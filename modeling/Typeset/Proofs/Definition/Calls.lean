import Mathlib.Data.Set.Finite.Lattice
import Mathlib.Logic.Relation
import Typeset.Proofs.Definition.SideBySide

/-!
# The calls of a render

Rendering a formula asks for renders of what the variables of patterns stand
for. These calls are listed here, with no regard to which schemes are reached
and which renders succeed. Every call is about a formula below the root, or
about the same formula under a typecode that it is not being rendered under;
so no chain of calls is endless. What a render does with the formulas that it
hands on is decided by its calls alone, and every error of a render is that of
one of the calls below it.
-/

namespace Typeset

/-- A render that is asked for while others are in progress. -/
structure Call where
  /-- The typecode whose schemes are tried. -/
  typecode : Typecode
  /-- The formula. -/
  formula : Formula
  /-- The renders in progress. -/
  pending : Pending

namespace Call

/-- The renders in progress once this one has begun. -/
def begun (c : Call) : Pending := (c.typecode, .of c.formula) :: c.pending

/-- How much may still come below a call: first the nodes below the root of its
formula, then the typecodes, of a list, under which the formula is not being
rendered. -/
def weight (tcs : List Typecode) (c : Call) : Nat :=
  Formula.sizeAll c.formula.children * (tcs.length + 1) +
    tcs.countP fun tc => !c.begun.has tc c.formula

/-- A formula of `n` nodes has weight for fewer than `n` rounds of typecodes. -/
theorem weight_lt_size_mul (tcs : List Typecode) (c : Call) :
    c.weight tcs < c.formula.size * (tcs.length + 1) := by
  obtain ⟨tc, ⟨l, t, cs⟩, pending⟩ := c
  have hcount := List.countP_le_length (l := tcs)
    (p := fun tc' => !Pending.has (begun ⟨tc, .node l t cs, pending⟩) tc' (.node l t cs))
  simp only [weight, Formula.children, Formula.size, Nat.succ_mul]
  omega

end Call

namespace Definition

/-- What a scheme may hand on when it is applied to a formula: what each
variable with an identifier stands for, under the typecode of the identifier. -/
def passedOn (d : Definition) (s : Scheme) (f : Formula) : List (Typecode × Formula) :=
  if s.isIdentifier then []
  else
    match d.database.match? s.pattern f with
    | none => []
    | some bindings =>
      bindings.entries.filterMap fun b => (d.identifiers.get? b.1).map fun tc => (tc, b.2)

/-- The renders that a call may ask for. -/
def callsOf (d : Definition) (c : Call) : List Call :=
  ((d.schemesOf c.typecode).flatMap fun s => d.passedOn s c.formula).filterMap fun p =>
    if c.begun.has p.1 p.2 then none else some ⟨p.1, p.2, c.begun⟩

/-- One render asks for another. -/
def Calls (d : Definition) (c c' : Call) : Prop := c' ∈ d.callsOf c

/-- One render is, or is asked for below, another. -/
def Reaches (d : Definition) : Call → Call → Prop := Relation.ReflTransGen d.Calls

variable {d d' : Definition} {settings : Settings} {c c' : Call}

/-- A scheme hands on what its pattern binds to variables with identifiers. -/
theorem mem_passedOn_iff {s : Scheme} {f g : Formula} {tc : Typecode} :
    (tc, g) ∈ d.passedOn s f ↔ s.isIdentifier = false ∧
      ∃ bindings l, d.database.match? s.pattern f = some bindings ∧ (l, g) ∈ bindings.entries ∧
        d.identifiers.get? l = some tc := by
  unfold passedOn
  cases s.isIdentifier with
  | true => simp
  | false =>
    cases d.database.match? s.pattern f with
    | none => simp
    | some bindings => simp [List.mem_filterMap]

/-- A call is for what a scheme of the bucket hands on, unless such a render is
in progress. -/
theorem calls_iff :
    d.Calls c c' ↔
      (∃ s ∈ d.schemesOf c.typecode, (c'.typecode, c'.formula) ∈ d.passedOn s c.formula) ∧
      c'.pending = c.begun ∧ c.begun.has c'.typecode c'.formula = false := by
  obtain ⟨tc', g, pending⟩ := c'
  simp only [Calls, callsOf, List.mem_filterMap, List.mem_flatMap, Prod.exists]
  constructor
  · rintro ⟨tc, f, hpassed, hcall⟩
    split at hcall
    · cases hcall
    · rename_i hnew
      cases hcall
      exact ⟨hpassed, rfl, by simpa using hnew⟩
  · rintro ⟨hpassed, rfl, hnew⟩
    exact ⟨tc', g, hpassed, by rw [if_neg (by simp [hnew])]⟩

/-- A call is made under the typecode of an identifier. -/
theorem Calls.registered (h : d.Calls c c') : ∃ l, d.identifiers.get? l = some c'.typecode := by
  obtain ⟨⟨s, _, hpassed⟩, _, _⟩ := calls_iff.mp h
  obtain ⟨_, bindings, l, _, _, hl⟩ := mem_passedOn_iff.mp hpassed
  exact ⟨l, hl⟩

/-- A call is about the same formula or about one below its root. -/
theorem Calls.descends (h : d.Calls c c') :
    c'.formula = c.formula ∨ c'.formula ∈ Formula.subformulasAll c.formula.children := by
  obtain ⟨⟨s, _, hpassed⟩, _, _⟩ := calls_iff.mp h
  obtain ⟨_, bindings, l, hm, hl, _⟩ := mem_passedOn_iff.mp hpassed
  exact Formula.eq_or_mem_subformulasAll_of_match? hm hl

/-- A call weighs less than the render that makes it. -/
theorem Calls.weight_lt {tcs : List Typecode} (h : d.Calls c c') (htc : c'.typecode ∈ tcs) :
    c'.weight tcs < c.weight tcs := by
  obtain ⟨tc', g, pending⟩ := c'
  obtain ⟨_, hpending, hnew⟩ := calls_iff.mp h
  obtain rfl : pending = c.begun := hpending
  rcases h.descends with heq | hbelow
  · -- The formula is the same, and one more typecode is in progress for it.
    obtain rfl : g = c.formula := heq
    have := Pending.countP_cons_lt htc hnew
    simp only [Call.weight, Call.begun] at this ⊢
    omega
  · have hsize : Formula.sizeAll g.children < Formula.sizeAll c.formula.children := by
      have := Formula.size_le_of_mem_subformulasAll hbelow
      obtain ⟨l, t, cs⟩ := g
      simp only [Formula.size, Formula.children] at this ⊢
      omega
    exact mul_add_lt_mul_add hsize List.countP_le_length _

/-- What holds of a render if it holds of the renders that it asks for holds of
every render. -/
theorem call_induction (d : Definition) {P : Call → Prop}
    (h : ∀ c, (∀ c', d.Calls c c' → P c') → P c) (c : Call) : P c := by
  have hwf : WellFounded fun c' c => d.Calls c c' := by
    apply Subrelation.wf _ (measure (Call.weight d.identifiers.values)).wf
    intro c' c hcall
    obtain ⟨l, hl⟩ := hcall.registered
    exact hcall.weight_lt (List.mem_map.mpr ⟨_, Table.mem_of_get? hl, rfl⟩)
  exact hwf.induction c h

/-- There are only finitely many renders below a render. -/
theorem finite_reaches (d : Definition) (c : Call) : {c' | d.Reaches c c'}.Finite := by
  induction c using d.call_induction with
  | h c ih =>
    have hcalls : {c' | d.Calls c c'}.Finite := List.finite_toSet (d.callsOf c)
    refine ((hcalls.biUnion ih).insert c).subset ?_
    intro c' hc'
    rcases Relation.ReflTransGen.cases_head hc' with rfl | ⟨next, hcall, hrest⟩
    · exact Set.mem_insert _ _
    · exact Set.mem_insert_of_mem _ (Set.mem_biUnion hcall hrest)

/-- A call that is reached is the first one, or is made under the typecode of
an identifier; its formula is a sub-formula of the first one's. -/
theorem Reaches.below (h : d.Reaches c c') :
    (c' = c ∨ ∃ l, d.identifiers.get? l = some c'.typecode) ∧
      c'.formula ∈ c.formula.subformulas := by
  induction h with
  | refl => exact ⟨.inl rfl, Formula.mem_subformulas_self _⟩
  | tail _ hcall ih =>
    exact ⟨.inr hcall.registered,
      Formula.mem_subformulas_trans ih.2 (Formula.mem_subformulas_iff.mpr hcall.descends)⟩

/-- The outcome of a call. -/
def run (d : Definition) (settings : Settings) (c : Call) : Except RenderError String :=
  d.format settings c.typecode c.formula c.pending

/-- How a call renders what is handed on to it, given the outcomes of calls: not
at all where such a render is in progress. -/
def guarded {ε : Type} (c : Call) (outcome : Call → Except ε String) (tc : Typecode)
    (g : Formula) : Except ε (Option String) :=
  if c.begun.has tc g then .ok none else (outcome ⟨tc, g, c.begun⟩).map some

/-- The outcome of a call is made from the outcomes of further calls. -/
theorem run_eq (d : Definition) (settings : Settings) (c : Call) :
    d.run settings c = d.formatWith settings id c.typecode c.formula fun tc g _ =>
      guarded c (d.run settings) tc g := by
  rw [run, format]
  rfl

/-- What a scheme makes of the formula of a call. -/
def attempt (d : Definition) (settings : Settings) (c : Call) :
    Scheme → Except RenderError (Option String) :=
  fun s => d.applyWith settings s c.formula fun tc g _ => guarded c (d.run settings) tc g

/-- A text of a call is the first that its bucket gives. -/
theorem run_eq_ok_iff {text : String} :
    d.run settings c = .ok text ↔ ∃ bucket, d.schemes.get? c.typecode = some bucket ∧
      firstText (d.attempt settings c) bucket = .ok (some text) := by
  rw [run_eq, formatWith]
  unfold attempt
  cases d.schemes.get? c.typecode with
  | none => simp
  | some bucket =>
    simp only [Option.some.injEq, exists_eq_left']
    cases firstText (fun s => d.applyWith settings s c.formula fun tc g _ =>
        guarded c (d.run settings) tc g) bucket with
    | error e => simp
    | ok o => cases o <;> simp

/-- A scheme decides a call: it is the first of the bucket that is not passed
over. -/
def Decides (d : Definition) (settings : Settings) (c : Call) (s : Scheme) : Prop :=
  ∃ front back, d.schemesOf c.typecode = front ++ s :: back ∧
    (∀ t ∈ front, d.attempt settings c t = .ok none) ∧ d.attempt settings c s ≠ .ok none

/-- A typecode with schemes has a bucket. -/
theorem get?_schemes_of_ne_nil {tc : Typecode} (h : d.schemesOf tc ≠ []) :
    d.schemes.get? tc = some (d.schemesOf tc) := by
  unfold schemesOf at h ⊢
  cases hbucket : d.schemes.get? tc with
  | none =>
    rw [hbucket] at h
    exact absurd rfl h
  | some bucket => rfl

/-- The outcome of a call is what the scheme makes of the formula that decides the
call, be it a text or an error. -/
theorem Decides.run_eq {s : Scheme} (h : d.Decides settings c s) :
    (d.run settings c).map some = d.attempt settings c s := by
  obtain ⟨front, back, hbucket, hfront, hs⟩ := h
  have hne : d.schemesOf c.typecode ≠ [] := by
    simp [hbucket]
  have hsome := get?_schemes_of_ne_nil hne
  have hfirst : firstText (d.attempt settings c) (d.schemesOf c.typecode) =
      d.attempt settings c s := by
    rw [hbucket]
    exact firstText_eq_of_passed hfront hs back
  rw [Definition.run_eq, formatWith, hsome]
  dsimp only
  unfold attempt at hfirst hs ⊢
  rw [hfirst]
  generalize d.applyWith settings s c.formula _ = o at hs
  cases o with
  | error e => rfl
  | ok o =>
    cases o with
    | none => exact absurd rfl hs
    | some text => rfl

/-- The text that the deciding scheme gives is that of the call. -/
theorem Decides.run_eq_ok {s : Scheme} (h : d.Decides settings c s) {text : String}
    (hs : d.attempt settings c s = .ok (some text)) : d.run settings c = .ok text := by
  have hrun := h.run_eq
  rw [hs] at hrun
  cases ho : d.run settings c with
  | error e =>
    rw [ho] at hrun
    cases hrun
  | ok text' =>
    rw [ho] at hrun
    cases hrun
    rfl

/-- A call that gives a text is decided by a scheme. -/
theorem exists_decides_of_run_eq_ok {text : String} (h : d.run settings c = .ok text) :
    ∃ s, d.Decides settings c s ∧ d.attempt settings c s = .ok (some text) := by
  obtain ⟨bucket, hbucket, hfirst⟩ := run_eq_ok_iff.mp h
  have hne : firstText (d.attempt settings c) bucket ≠ .ok none := by
    rw [hfirst]
    simp
  obtain ⟨front, s, back, rfl, hfront, hs⟩ := exists_first_of_firstText hne
  have hdecides : d.Decides settings c s :=
    ⟨front, back, by rw [schemesOf, hbucket]; rfl, hfront, hs⟩
  refine ⟨s, hdecides, ?_⟩
  rw [← hdecides.run_eq, h]
  rfl

section Outcomes

variable {ε ε' : Type} {Excused : ε → Prop} {E : ε → ε' → Prop} {s : Scheme}
  {outcome : Call → Except ε String} {outcome' : Call → Except ε' String}

/-- A scheme is applied side by side if what it hands on is rendered so. -/
theorem answers_applyWith_of_passedOn (hd : d.ReadsLike d') {f : Formula}
    {render : (tc : Typecode) → (g : Formula) → d.HandsOn f tc g → Except ε (Option String)}
    {render' : (tc : Typecode) → (g : Formula) → d'.HandsOn f tc g → Except ε' (Option String)}
    (h : ∀ tc g handed handed', (tc, g) ∈ d.passedOn s f →
      Answers Excused E (render tc g handed) (render' tc g handed')) :
    Answers Excused E (d.applyWith settings s f render) (d'.applyWith settings s f render') := by
  cases hi : s.isIdentifier with
  | true =>
    rw [applyWith_of_isIdentifier hi, applyWith_of_isIdentifier hi]
    exact .ok _
  | false =>
    apply answers_applyWith hd (S := fun l g g' => g = g' ∧
      ∃ bindings, d.database.match? s.pattern f = some bindings ∧ (l, g) ∈ bindings.entries)
    · rintro l tc g g' handed handed' ⟨rfl, bindings, hm, hl⟩ ht
      exact h tc g handed handed' (mem_passedOn_iff.mpr ⟨hi, bindings, l, hm, hl, ht⟩)
    · rfl
    · cases hm : d.database.match? s.pattern f with
      | none => exact .none
      | some bindings =>
        exact .some (List.forall₂_same.mpr fun b hb => ⟨rfl, rfl, bindings, rfl, hb⟩)

/-- A scheme is applied side by side if the calls have outcomes that answer each
other. -/
theorem answers_applyWith_of_calls (hd : d.ReadsLike d') (hs : s ∈ d.schemesOf c.typecode)
    (h : ∀ c', d.Calls c c' → Answers Excused E (outcome c') (outcome' c')) :
    Answers Excused E
      (d.applyWith settings s c.formula fun tc g _ => guarded c outcome tc g)
      (d'.applyWith settings s c.formula fun tc g _ => guarded c outcome' tc g) := by
  apply answers_applyWith_of_passedOn hd
  intro tc g _ _ hpassed
  unfold guarded
  split
  · exact .ok none
  · rename_i hnew
    exact (h _ (calls_iff.mpr ⟨⟨s, hs, hpassed⟩, rfl, by simpa using hnew⟩)).map some

/-- A formula is rendered side by side if the calls have outcomes that answer
each other and errors of the formula itself are told alike. -/
theorem answers_formatWith_of_calls {failed : RenderError → ε} {failed' : RenderError → ε'}
    (hfailed : ∀ e, E (failed e) (failed' e))
    (h : ∀ c', d.Calls c c' → Answers Excused E (outcome c') (outcome' c')) :
    Answers Excused E
      (d.formatWith settings failed c.typecode c.formula fun tc g _ => guarded c outcome tc g)
      (d.formatWith settings failed' c.typecode c.formula fun tc g _ =>
        guarded c outcome' tc g) := by
  apply answers_formatWith
  · intro hnone
    exact ⟨hnone, hfailed _⟩
  · intro bucket hbucket
    refine ⟨bucket, hbucket, hfailed _, ?_⟩
    apply answers_firstText
    intro s hs
    apply answers_applyWith_of_calls (.refl d) _ h
    rw [schemesOf, hbucket]
    exact hs

end Outcomes

/-- A render asks for nothing but its calls: whatever other renders may come
to, it comes to the same. -/
theorem formatWith_eq_run {outcome : Call → Except RenderError String}
    (h : ∀ c', d.Calls c c' → outcome c' = d.run settings c') :
    (d.formatWith settings id c.typecode c.formula fun tc g _ => guarded c outcome tc g) =
      d.run settings c := by
  have hanswers : Answers (fun _ => False) Eq
      (d.formatWith settings id c.typecode c.formula fun tc g _ => guarded c outcome tc g)
      (d.formatWith settings id c.typecode c.formula fun tc g _ =>
        guarded c (d.run settings) tc g) := by
    apply answers_formatWith_of_calls fun _ => rfl
    intro c' hcall
    rw [h c' hcall]
    exact .refl _
  rw [run_eq]
  rcases hanswers.eq_or_excused with heq | ⟨e, _, hfalse⟩
  · exact heq
  · exact hfalse.elim

section Errors

variable {ε : Type} {f : Formula} {s : Scheme} {e : ε}
  {render : (tc : Typecode) → (g : Formula) → d.HandsOn f tc g → Except ε (Option String)}

/-- An error of bindings is that of the render of one of them; every variable
before it has an identifier. -/
theorem exists_of_renderBindings_eq_error {bindings : List (Label × Formula)}
    {h : ∀ b ∈ bindings, b.2 = f ∨ b.2.size < f.size} {texts : Table String String}
    (he : d.renderBindings settings f render bindings h texts = .error e) :
    ∃ front l g back tc handed, bindings = front ++ (l, g) :: back ∧
      (∀ b ∈ front, ∃ tc, d.identifiers.get? b.1 = some tc) ∧
      d.identifiers.get? l = some tc ∧ render tc g handed = .error e := by
  induction bindings generalizing texts with
  | nil => cases he
  | cons b more ih =>
    obtain ⟨l, g⟩ := b
    cases hn : d.database.variableName? l with
    | none =>
      rw [renderBindings_of_no_variable hn] at he
      cases he
    | some name =>
      cases ht : d.identifiers.get? l with
      | none =>
        rw [renderBindings_of_no_identifier ht] at he
        cases he
      | some tc =>
        rw [renderBindings_cons hn ht] at he
        split at he
        · rename_i hrender
          cases he
          exact ⟨[], l, g, more, tc, _, rfl, by simp, ht, hrender⟩
        · cases he
        · obtain ⟨front, l', g', back, tc', handed, rfl, hfront, ht', hrender⟩ := ih he
          refine ⟨(l, g) :: front, l', g', back, tc', handed, rfl, ?_, ht', hrender⟩
          intro b hb
          rcases List.mem_cons.mp hb with rfl | hb
          · exact ⟨tc, ht⟩
          · exact hfront b hb

/-- Bindings that all have texts are those of variables with names and
identifiers; the texts are those of the formulas that are bound, each under the
placeholder of its variable. -/
theorem exists_parts_of_renderBindings {bindings : List (Label × Formula)}
    {h : ∀ b ∈ bindings, b.2 = f ∨ b.2.size < f.size} {texts texts' : Table String String}
    (hok : d.renderBindings settings f render bindings h texts = .ok (some texts')) :
    ∃ parts : List (Symbol × String),
      List.Forall₂ (fun b part => d.database.variableName? b.1 = some part.1 ∧
        ∃ tc handed, d.identifiers.get? b.1 = some tc ∧
          render tc b.2 handed = .ok (some part.2)) bindings parts ∧
      texts' = parts.foldl (fun t part => t.set (settings.placeholder part.1) part.2) texts := by
  induction bindings generalizing texts with
  | nil =>
    cases hok
    exact ⟨[], .nil, rfl⟩
  | cons b more ih =>
    obtain ⟨l, g⟩ := b
    cases hn : d.database.variableName? l with
    | none =>
      rw [renderBindings_of_no_variable hn] at hok
      cases hok
    | some name =>
      cases ht : d.identifiers.get? l with
      | none =>
        rw [renderBindings_of_no_identifier ht] at hok
        cases hok
      | some tc =>
        rw [renderBindings_cons hn ht] at hok
        split at hok
        · cases hok
        · cases hok
        · rename_i text hrender
          obtain ⟨parts, hparts, rfl⟩ := ih hok
          exact ⟨(name, text) :: parts, .cons ⟨hn, tc, _, ht, hrender⟩ hparts, rfl⟩

/-- Bindings that are passed over have one of a variable without name or without
identifier, or one that is not rendered. -/
theorem exists_of_renderBindings_eq_none {bindings : List (Label × Formula)}
    {h : ∀ b ∈ bindings, b.2 = f ∨ b.2.size < f.size} {texts : Table String String}
    (hnone : d.renderBindings settings f render bindings h texts = .ok none) :
    ∃ l g, (l, g) ∈ bindings ∧ (d.database.variableName? l = none ∨
      d.identifiers.get? l = none ∨
      ∃ tc handed, d.identifiers.get? l = some tc ∧ render tc g handed = .ok none) := by
  induction bindings generalizing texts with
  | nil => cases hnone
  | cons b more ih =>
    obtain ⟨l, g⟩ := b
    cases hn : d.database.variableName? l with
    | none => exact ⟨l, g, List.mem_cons_self, .inl hn⟩
    | some name =>
      cases ht : d.identifiers.get? l with
      | none => exact ⟨l, g, List.mem_cons_self, .inr (.inl ht)⟩
      | some tc =>
        rw [renderBindings_cons hn ht] at hnone
        split at hnone
        · cases hnone
        · rename_i hrender
          exact ⟨l, g, List.mem_cons_self, .inr (.inr ⟨tc, _, ht, hrender⟩)⟩
        · obtain ⟨l', g', hl', hcause⟩ := ih hnone
          exact ⟨l', g', List.mem_cons_of_mem _ hl', hcause⟩

/-- A text of a pattern scheme is its template, filled with the texts of what the
variables of the pattern stand for. -/
theorem exists_parts_of_applyWith_eq_some {text : String} (hi : s.isIdentifier = false)
    (h : d.applyWith settings s f render = .ok (some text)) :
    ∃ (bindings : Bindings) (parts : List (Symbol × String)),
      d.database.match? s.pattern f = some bindings ∧
      List.Forall₂ (fun b part => d.database.variableName? b.1 = some part.1 ∧
        ∃ tc handed, d.identifiers.get? b.1 = some tc ∧
          render tc b.2 handed = .ok (some part.2)) bindings.entries parts ∧
      text = String.ofList (Text.fill
        ((Table.ofList (parts.map fun part => (settings.placeholder part.1, part.2))).entries.map
          fun t => (t.1.toList, t.2.toList)) s.template.toList) := by
  cases hm : d.database.match? s.pattern f with
  | none =>
    rw [applyWith_of_match?_eq_none hi hm] at h
    cases h
  | some bindings =>
    rw [applyWith_of_match?_eq_some hi hm] at h
    cases hr : d.renderBindings settings f render bindings.entries
        (fun _ hmem => Formula.eq_or_size_lt_of_match? hm hmem) .empty with
    | error e =>
      rw [hr] at h
      cases h
    | ok texts? =>
      rw [hr] at h
      cases texts? with
      | none => cases h
      | some texts =>
        obtain rfl := Option.some.inj (Except.ok.inj h)
        obtain ⟨parts, hparts, rfl⟩ := exists_parts_of_renderBindings hr
        exact ⟨bindings, parts, rfl, hparts, by rw [Table.ofList, List.foldl_map]⟩

/-- A pattern scheme that matches and is passed over has a variable without name or
without identifier, or one that stands for what is not rendered. -/
theorem exists_of_applyWith_eq_none (hi : s.isIdentifier = false)
    (h : d.applyWith settings s f render = .ok none) {bindings : Bindings}
    (hm : d.database.match? s.pattern f = some bindings) :
    ∃ l g, (l, g) ∈ bindings.entries ∧ (d.database.variableName? l = none ∨
      d.identifiers.get? l = none ∨
      ∃ tc handed, d.identifiers.get? l = some tc ∧ render tc g handed = .ok none) := by
  rw [applyWith_of_match?_eq_some hi hm] at h
  have hnone : d.renderBindings settings f render bindings.entries
      (fun _ hmem => Formula.eq_or_size_lt_of_match? hm hmem) .empty = .ok none := by
    generalize d.renderBindings settings f render bindings.entries _ .empty = o at h
    cases o with
    | error e => cases h
    | ok texts =>
      cases texts with
      | none => rfl
      | some texts => cases h
  exact exists_of_renderBindings_eq_none hnone

/-- An error of a scheme is that of the render of what a variable of its pattern
stands for; every variable bound before it has an identifier. -/
theorem exists_of_applyWith_eq_error (he : d.applyWith settings s f render = .error e) :
    s.isIdentifier = false ∧ ∃ bindings front l g back tc handed,
      d.database.match? s.pattern f = some bindings ∧
      bindings.entries = front ++ (l, g) :: back ∧
      (∀ b ∈ front, ∃ tc, d.identifiers.get? b.1 = some tc) ∧
      d.identifiers.get? l = some tc ∧ render tc g handed = .error e := by
  cases hi : s.isIdentifier with
  | true =>
    rw [applyWith_of_isIdentifier hi] at he
    cases he
  | false =>
    cases hm : d.database.match? s.pattern f with
    | none =>
      rw [applyWith_of_match?_eq_none hi hm] at he
      cases he
    | some bindings =>
      rw [applyWith_of_match?_eq_some hi hm] at he
      cases hr : d.renderBindings settings f render bindings.entries
          (fun _ hmem => Formula.eq_or_size_lt_of_match? hm hmem) .empty with
      | ok texts =>
        rw [hr] at he
        cases he
      | error e' =>
        rw [hr] at he
        cases he
        obtain ⟨front, l, g, back, tc, handed, hentries, hfront, ht, hrender⟩ :=
          exists_of_renderBindings_eq_error hr
        exact ⟨rfl, bindings, front, l, g, back, tc, handed, rfl, hentries, hfront, ht, hrender⟩

/-- An error of a list of schemes is that of one of them. -/
theorem exists_of_firstText_eq_error {apply : Scheme → Except ε (Option String)}
    {schemes : List Scheme} (he : firstText apply schemes = .error e) :
    ∃ s ∈ schemes, apply s = .error e := by
  induction schemes with
  | nil => cases he
  | cons s more ih =>
    rw [firstText] at he
    split at he
    · rename_i hs
      cases he
      exact ⟨s, List.mem_cons_self, hs⟩
    · cases he
    · obtain ⟨t, ht, happly⟩ := ih he
      exact ⟨t, List.mem_cons_of_mem _ ht, happly⟩

/-- An error of what is handed on is that of a call. -/
theorem of_guarded_eq_error {outcome : Call → Except ε String} {tc : Typecode} {g : Formula}
    (he : guarded c outcome tc g = .error e) :
    c.begun.has tc g = false ∧ outcome ⟨tc, g, c.begun⟩ = .error e := by
  unfold guarded at he
  split at he
  · cases he
  · rename_i hnew
    cases ho : outcome ⟨tc, g, c.begun⟩ with
    | ok text =>
      rw [ho] at he
      cases he
    | error e' =>
      rw [ho] at he
      cases he
      exact ⟨by simpa using hnew, rfl⟩

/-- An error of a render is its own, for want of a bucket or of a scheme that
applies, or that of a call. -/
theorem of_run_eq_error {e : RenderError} (he : d.run settings c = .error e) :
    (d.schemes.get? c.typecode = none ∧ e = .noSchemes c.typecode) ∨
      ((d.schemes.get? c.typecode).isSome ∧ e = d.unmatched c.typecode c.formula) ∨
      ∃ c', d.Calls c c' ∧ d.run settings c' = .error e := by
  rw [run_eq, formatWith] at he
  split at he
  · rename_i hnone
    cases he
    exact .inl ⟨hnone, rfl⟩
  · rename_i schemes hschemes
    right
    split at he
    · rename_i hfirst
      cases he
      obtain ⟨s, hs, happly⟩ := exists_of_firstText_eq_error hfirst
      obtain ⟨hi, bindings, front, l, g, back, tc, handed, hm, hentries, _, ht, hrender⟩ :=
        exists_of_applyWith_eq_error happly
      obtain ⟨hnew, hcall⟩ := of_guarded_eq_error hrender
      have hbucket : s ∈ d.schemesOf c.typecode := by
        rw [schemesOf, hschemes]
        exact hs
      have hpassed : (tc, g) ∈ d.passedOn s c.formula :=
        mem_passedOn_iff.mpr ⟨hi, bindings, l, hm, by simp [hentries], ht⟩
      exact .inr ⟨_, calls_iff.mpr ⟨⟨s, hbucket, hpassed⟩, rfl, hnew⟩, hcall⟩
    · cases he
    · cases he
      exact .inl ⟨by rw [hschemes]; rfl, rfl⟩

/-- Every error of a render is the own error of a call that it reaches. -/
theorem exists_reaches_of_run_eq_error {e : RenderError} (he : d.run settings c = .error e) :
    ∃ c', d.Reaches c c' ∧
      ((d.schemes.get? c'.typecode = none ∧ e = .noSchemes c'.typecode) ∨
        ((d.schemes.get? c'.typecode).isSome ∧ e = d.unmatched c'.typecode c'.formula)) := by
  induction c using d.call_induction with
  | h c ih =>
    rcases of_run_eq_error he with hown | hown | ⟨next, hcall, hnext⟩
    · exact ⟨c, .refl, .inl hown⟩
    · exact ⟨c, .refl, .inr hown⟩
    · obtain ⟨c', hreach, hown⟩ := ih next hcall hnext
      exact ⟨c', .head hcall hreach, hown⟩

end Errors

end Definition

end Typeset
