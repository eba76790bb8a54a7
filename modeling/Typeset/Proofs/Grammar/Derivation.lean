import Typeset.Grammar.Parse

/-!
# Derivation trees

A derivation tree says why symbols are an expression of a typecode. A leaf is
a variable; an inner node is a rule of its typecode, with one part for every
variable that the rule names, each a derivation tree of that variable's
typecode. The symbols that a tree derives are those of its rules and leaves
from left to right. Nothing here knows of a parser.
-/

namespace Typeset.Grammar

/-- Whether a rule is one variable of the rule's own typecode and nothing
else. Such a rule makes an expression from itself alone, without end. -/
def isIdle (g : Grammar) (tc : Typecode) (r : Rule) : Bool :=
  match r.body with
  | [s] => g.variableTypecode? s == some tc
  | _ => false

/-- Any rule may be used. -/
def anyRule : Typecode → Rule → Prop := fun _ _ => True

/-- Any rule that is not idle may be used. -/
def busyRule (g : Grammar) : Typecode → Rule → Prop := fun tc r => g.isIdle tc r = false

/-- No rule is without symbols. -/
def NoEmptyRule (g : Grammar) : Prop := ∀ tc, ∀ r ∈ g.rulesOf tc, r.body ≠ []

/-- A rule of a typecode is listed in the table under it. -/
theorem mem_rulesOf {g : Grammar} {tc : Typecode} {r : Rule} (h : r ∈ g.rulesOf tc) :
    ∃ rs, g.rules.get? tc = some rs ∧ r ∈ rs := by
  unfold rulesOf at h
  cases hrs : g.rules.get? tc with
  | none => simp [hrs] at h
  | some rs => exact ⟨rs, rfl, by simpa [hrs] using h⟩

/-- What is true of all rules in the table is true of the rules of every
typecode. -/
theorem forall_rules_of_entries {g : Grammar} {P : Typecode → Rule → Prop}
    (h : ∀ e ∈ g.rules.entries, ∀ r ∈ e.2, P e.1 r) : ∀ tc, ∀ r ∈ g.rulesOf tc, P tc r := by
  intro tc r hr
  obtain ⟨rs, hrs, hmem⟩ := mem_rulesOf hr
  exact h (tc, rs) (Table.mem_of_get? hrs) r hmem

mutual

/-- A tree that derives symbols under a typecode with the rules that may be
used. -/
inductive Derives (g : Grammar) (usable : Typecode → Rule → Prop) :
    Typecode → Formula → List Symbol → Prop where
  /-- A variable by itself. -/
  | leaf {s : Symbol} {v : Floating} (hv : g.floatings.get? s = some v) :
    Derives g usable v.typecode (.node v.label v.typecode []) [s]
  /-- A rule of the typecode with parts for its variables. -/
  | rule {tc : Typecode} {r : Rule} {parts : List Formula} {symbols : List Symbol}
    (hr : r ∈ g.rulesOf tc) (hu : usable tc r)
    (hp : DerivesParts g usable r.body parts symbols) :
    Derives g usable tc (.node r.label tc parts) symbols

/-- Parts that derive symbols along the body of a rule. -/
inductive DerivesParts (g : Grammar) (usable : Typecode → Rule → Prop) :
    List Symbol → List Formula → List Symbol → Prop where
  /-- A body that is used up. -/
  | nil : DerivesParts g usable [] [] []
  /-- A constant stands for itself. -/
  | constant {s : Symbol} {body : List Symbol} {parts : List Formula} {symbols : List Symbol}
    (hs : g.variableTypecode? s = none) (hp : DerivesParts g usable body parts symbols) :
    DerivesParts g usable (s :: body) parts (s :: symbols)
  /-- A variable stands for an expression of its typecode. -/
  | part {s : Symbol} {body : List Symbol} {tc : Typecode} {f : Formula} {front : List Symbol}
    {parts : List Formula} {symbols : List Symbol} (hs : g.variableTypecode? s = some tc)
    (hf : Derives g usable tc f front) (hp : DerivesParts g usable body parts symbols) :
    DerivesParts g usable (s :: body) (f :: parts) (front ++ symbols)

end

variable {g : Grammar} {usable : Typecode → Rule → Prop}

/-- Induction over derivation trees and over the parts of their rules at
once. -/
theorem derives_induction {P : Typecode → Formula → List Symbol → Prop}
    {Q : List Symbol → List Formula → List Symbol → Prop}
    (leaf : ∀ {s : Symbol} {v : Floating}, g.floatings.get? s = some v →
      P v.typecode (.node v.label v.typecode []) [s])
    (rule : ∀ {tc : Typecode} {r : Rule} {parts : List Formula} {symbols : List Symbol},
      r ∈ g.rulesOf tc → usable tc r → DerivesParts g usable r.body parts symbols →
      Q r.body parts symbols → P tc (.node r.label tc parts) symbols)
    (nil : Q [] [] [])
    (constant : ∀ {s : Symbol} {body : List Symbol} {parts : List Formula} {symbols : List Symbol},
      g.variableTypecode? s = none → DerivesParts g usable body parts symbols →
      Q body parts symbols → Q (s :: body) parts (s :: symbols))
    (part : ∀ {s : Symbol} {body : List Symbol} {tc : Typecode} {f : Formula}
      {front : List Symbol} {parts : List Formula} {symbols : List Symbol},
      g.variableTypecode? s = some tc → Derives g usable tc f front →
      DerivesParts g usable body parts symbols → P tc f front → Q body parts symbols →
      Q (s :: body) (f :: parts) (front ++ symbols)) :
    (∀ {tc : Typecode} {f : Formula} {symbols : List Symbol},
      Derives g usable tc f symbols → P tc f symbols) ∧
    (∀ {body : List Symbol} {parts : List Formula} {symbols : List Symbol},
      DerivesParts g usable body parts symbols → Q body parts symbols) := by
  constructor
  · intro tc f symbols h
    exact @Derives.rec g usable (fun tc f symbols _ => P tc f symbols)
      (fun body parts symbols _ => Q body parts symbols) leaf rule nil constant part _ _ _ h
  · intro body parts symbols h
    exact @DerivesParts.rec g usable (fun tc f symbols _ => P tc f symbols)
      (fun body parts symbols _ => Q body parts symbols) leaf rule nil constant part _ _ _ h

/-- The typecode of a variable is that of its hypothesis. -/
theorem variableTypecode?_eq_some_iff {s : Symbol} {tc : Typecode} :
    g.variableTypecode? s = some tc ↔ ∃ v, g.floatings.get? s = some v ∧ v.typecode = tc := by
  simp [variableTypecode?]

/-- A symbol without hypothesis is a constant. -/
theorem variableTypecode?_eq_none_iff {s : Symbol} :
    g.variableTypecode? s = none ↔ g.floatings.get? s = none := by
  simp [variableTypecode?]

/-- A tree may be used wherever all its rules may be used. -/
theorem Derives.mono {usable' : Typecode → Rule → Prop}
    (hu : ∀ tc r, usable tc r → usable' tc r) {tc : Typecode} {f : Formula}
    {symbols : List Symbol} (h : Derives g usable tc f symbols) :
    Derives g usable' tc f symbols := by
  refine (derives_induction (P := Derives g usable') (Q := DerivesParts g usable') ?_ ?_ ?_ ?_
    ?_).1 h
  · exact .leaf
  · intro tc r parts symbols hr hus _ hp
    exact .rule hr (hu tc r hus) hp
  · exact .nil
  · intro s body parts symbols hs _ hp
    exact .constant hs hp
  · intro s body tc f front parts symbols hs _ _ hf hp
    exact .part hs hf hp

/-- A tree carries the typecode that it derives. -/
theorem Derives.typecode_eq {tc : Typecode} {f : Formula} {symbols : List Symbol}
    (h : Derives g usable tc f symbols) : f.typecode = tc := by
  cases h <;> rfl

/-- Without empty rules an expression has at least one symbol, and the parts
of a body have at least as many symbols as the body. -/
theorem length_of_derives (hg : g.NoEmptyRule) :
    (∀ {tc : Typecode} {f : Formula} {symbols : List Symbol},
      Derives g usable tc f symbols → 0 < symbols.length) ∧
    (∀ {body : List Symbol} {parts : List Formula} {symbols : List Symbol},
      DerivesParts g usable body parts symbols → body.length ≤ symbols.length) := by
  apply derives_induction (P := fun _ _ symbols => 0 < symbols.length)
    (Q := fun body _ symbols => body.length ≤ symbols.length)
  · simp
  · intro tc r parts symbols hr _ _ hle
    have hbody := List.length_pos_iff.mpr (hg tc r hr)
    omega
  · simp
  · intro s body parts symbols _ _ hle
    simpa using hle
  · intro s body tc f front parts symbols _ _ _ hpos hle
    simp only [List.length_cons, List.length_append]
    omega

/-- A body has one part for every variable in it. -/
theorem DerivesParts.length_parts {body : List Symbol} {parts : List Formula}
    {symbols : List Symbol} (h : DerivesParts g usable body parts symbols) :
    parts.length = body.countP fun s => (g.floatings.get? s).isSome := by
  refine (derives_induction (P := fun _ _ _ => True)
    (Q := fun body parts _ => parts.length = body.countP fun s => (g.floatings.get? s).isSome)
    ?_ ?_ ?_ ?_ ?_).2 h
  · intros
    trivial
  · intros
    trivial
  · rfl
  · intro s body parts symbols hs _ hlen
    have hnone := variableTypecode?_eq_none_iff.mp hs
    simp [hnone, hlen]
  · intro s body tc f front parts symbols hs _ _ _ hlen
    obtain ⟨v, hv, _⟩ := variableTypecode?_eq_some_iff.mp hs
    simp [hv, hlen]

/-- The sub-formulas of a tree are trees, and so are those of the parts of a
body. -/
theorem exists_derives_of_subformula :
    (∀ {tc : Typecode} {f : Formula} {symbols : List Symbol}, Derives g usable tc f symbols →
      ∀ n ∈ f.subformulas, ∃ tc' symbols', Derives g usable tc' n symbols') ∧
    (∀ {body : List Symbol} {parts : List Formula} {symbols : List Symbol},
      DerivesParts g usable body parts symbols →
      ∀ n ∈ Formula.subformulasAll parts, ∃ tc' symbols', Derives g usable tc' n symbols') := by
  apply derives_induction
    (P := fun _ f _ => ∀ n ∈ f.subformulas, ∃ tc' symbols', Derives g usable tc' n symbols')
    (Q := fun _ parts _ => ∀ n ∈ Formula.subformulasAll parts,
      ∃ tc' symbols', Derives g usable tc' n symbols')
  · intro s v hv n hn
    obtain rfl : n = .node v.label v.typecode [] := by
      simpa [Formula.subformulas, Formula.subformulasAll] using hn
    exact ⟨_, _, .leaf hv⟩
  · intro tc r parts symbols hr hu hp hparts n hn
    rcases Formula.mem_subformulas_iff.mp hn with rfl | hn
    · exact ⟨_, _, .rule hr hu hp⟩
    · exact hparts n hn
  · intro n hn
    simp [Formula.subformulasAll] at hn
  · intro s body parts symbols _ _ hparts
    exact hparts
  · intro s body tc f front parts symbols _ _ _ hf hparts n hn
    rw [Formula.subformulasAll] at hn
    rcases List.mem_append.mp hn with hn | hn
    · exact hf n hn
    · exact hparts n hn

/-- An idle rule changes nothing about what can be derived: whatever has a
tree has one without idle rules. -/
theorem Derives.exists_busy {tc : Typecode} {f : Formula} {symbols : List Symbol}
    (h : Derives g anyRule tc f symbols) : ∃ f', Derives g g.busyRule tc f' symbols := by
  refine (derives_induction
    (P := fun tc _ symbols => ∃ f', Derives g g.busyRule tc f' symbols)
    (Q := fun body _ symbols => ∃ parts', DerivesParts g g.busyRule body parts' symbols)
    ?_ ?_ ?_ ?_ ?_).1 h
  · intro s v hv
    exact ⟨_, .leaf hv⟩
  · rintro tc r parts symbols hr _ _ ⟨parts', hp⟩
    cases hi : g.isIdle tc r with
    | false => exact ⟨_, .rule hr hi hp⟩
    | true =>
      -- the one part of an idle rule derives the same symbols under the same typecode
      unfold isIdle at hi
      split at hi
      · rename_i s hbody
        rw [hbody] at hp
        cases hp with
        | constant hs _ => simp [hs] at hi
        | part hs hf hnil =>
          cases hnil
          have htc : some tc = some _ := (beq_iff_eq.mp hi).symm.trans hs
          cases htc
          exact ⟨_, by simpa using hf⟩
      · simp at hi
  · exact ⟨[], .nil⟩
  · rintro s body parts symbols hs _ ⟨parts', hp⟩
    exact ⟨parts', .constant hs hp⟩
  · rintro s body tc f front parts symbols hs _ _ ⟨f', hf⟩ ⟨parts', hp⟩
    exact ⟨f' :: parts', .part hs hf hp⟩

end Typeset.Grammar
