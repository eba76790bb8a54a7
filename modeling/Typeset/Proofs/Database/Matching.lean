import Typeset.Proofs.Database.Declared
import Typeset.Proofs.Grammar.Generic

/-!
# Matching derivation trees

A pattern is itself a derivation tree, with variables as leaves. Where it
matches a derivation tree of its own typecode, every variable stands for a
derivation tree of the variable's typecode. And a rule's pattern that matches
the expression of the rule itself asks nothing of the parts: it matches
everything that the rule builds.
-/

namespace Typeset.Database

open Grammar

variable {db : Database} {usable usable' : Typecode → Rule → Prop}

/-- A variable of the grammar is a variable of patterns. -/
theorem Consistent.isVariable_of_get? (h : db.Consistent) {s : Symbol} {v : Floating}
    (hv : db.grammar.floatings.get? s = some v) : db.isVariable v.label = true := by
  simp [isVariable, Table.contains, (h.variable_floating hv).2]

/-- A rule is not a variable of patterns. -/
theorem Consistent.isVariable_of_mem (h : db.Consistent) {tc : Typecode} {r : Rule}
    (hr : r ∈ db.grammar.rulesOf tc) : db.isVariable r.label = false := by
  simp [isVariable, Table.contains, h.get?_floatings_of_mem hr]

/-- The hypothesis of a variable names the variable. -/
theorem Consistent.variableName?_of_get? (h : db.Consistent) {s : Symbol} {v : Floating}
    (hv : db.grammar.floatings.get? s = some v) : db.variableName? v.label = some s := by
  obtain ⟨hsymbol, hfloat⟩ := h.variable_floating hv
  simp [variableName?, (h.floating_stored hfloat).2, Statement.variableOf?, Statement.body, hsymbol]

/-- What a label stands for is derived under the typecode of the variable with
that label. -/
def FitsVariable (db : Database) (usable : Typecode → Rule → Prop) (b : Label × Formula) : Prop :=
  ∃ s v symbols, db.grammar.floatings.get? s = some v ∧ v.label = b.1 ∧
    Derives db.grammar usable v.typecode b.2 symbols

/-- Every variable stands for what is derived under its typecode. -/
def WellBound (db : Database) (usable : Typecode → Rule → Prop) (bound : Bindings) : Prop :=
  ∀ b ∈ bound.entries, db.FitsVariable usable b

/-- Binding a variable to what is derived under its typecode. -/
theorem WellBound.set {bound : Bindings} (hb : db.WellBound usable bound) {s : Symbol}
    {v : Floating} {f : Formula} {symbols : List Symbol}
    (hv : db.grammar.floatings.get? s = some v)
    (hf : Derives db.grammar usable v.typecode f symbols) :
    db.WellBound usable (bound.set v.label f) := by
  rintro ⟨l, g⟩ hmem
  rcases Formula.mem_entries_set hmem with hmem | heq
  · exact hb _ hmem
  · obtain ⟨rfl, rfl⟩ := Prod.mk.inj heq
    exact ⟨s, v, symbols, hv, rfl, hf⟩

/-- Matching a derivation tree against another of the same typecode binds
variables to what is derived under their typecodes, and so does matching parts
against parts of the same body. -/
theorem Consistent.wellBound_all (h : db.Consistent) :
    (∀ {tc : Typecode} {p : Formula} {spelling : List Symbol},
      Derives db.grammar usable tc p spelling →
      ∀ f symbols bound bound', Derives db.grammar usable' tc f symbols →
        Formula.matchInto db.isVariable p f bound = some bound' →
        db.WellBound usable' bound → db.WellBound usable' bound') ∧
    (∀ {body : List Symbol} {ps : List Formula} {spelling : List Symbol},
      DerivesParts db.grammar usable body ps spelling →
      ∀ fs symbols bound bound', DerivesParts db.grammar usable' body fs symbols →
        Formula.matchAllInto db.isVariable ps fs bound = some bound' →
        db.WellBound usable' bound → db.WellBound usable' bound') := by
  have hd := h.distinct
  apply derives_induction
    (P := fun tc p _ => ∀ f symbols bound bound', Derives db.grammar usable' tc f symbols →
      Formula.matchInto db.isVariable p f bound = some bound' →
      db.WellBound usable' bound → db.WellBound usable' bound')
    (Q := fun body ps _ => ∀ fs symbols bound bound',
      DerivesParts db.grammar usable' body fs symbols →
      Formula.matchAllInto db.isVariable ps fs bound = some bound' →
      db.WellBound usable' bound → db.WellBound usable' bound')
  · intro s v hv f symbols bound bound' hf hmatch hb
    rw [Formula.matchInto, if_pos (h.isVariable_of_get? hv)] at hmatch
    split at hmatch
    · cases hmatch
      exact hb.set hv hf
    · split at hmatch
      · cases hmatch
        exact hb
      · cases hmatch
  · intro tc r ps spelling hr _ _ ih f symbols bound bound' hf hmatch hb
    rw [Formula.matchInto, if_neg (by simp [h.isVariable_of_mem hr])] at hmatch
    split at hmatch
    · rename_i hfits
      cases hf with
      | leaf hv => exact absurd hfits.1.symm (hd.label_ne hv hr)
      | rule hr' _ hfs =>
        obtain ⟨_, rfl⟩ := hd.rule_eq hr hr' hfits.1
        exact ih _ _ bound bound' hfs hmatch hb
    · cases hmatch
  · intro fs symbols bound bound' _ hmatch hb
    rw [Formula.matchAllInto] at hmatch
    cases hmatch
    exact hb
  · intro s body ps spelling hs _ ih fs symbols bound bound' hfs hmatch hb
    cases hfs with
    | constant _ hfs => exact ih _ _ bound bound' hfs hmatch hb
    | part hs' _ _ => simp [hs] at hs'
  · intro s body tc p front ps spelling hs _ _ ihp ihps fs symbols bound bound' hfs hmatch hb
    cases hfs with
    | constant hs' _ => simp [hs] at hs'
    | part hs' hf hfs =>
      cases hs.symm.trans hs'
      rw [Formula.matchAllInto] at hmatch
      split at hmatch
      · rename_i bound₁ hfirst
        exact ihps _ _ bound₁ bound' hfs hmatch (ihp _ _ bound bound₁ hf hfirst hb)
      · cases hmatch

/-- Where a derivation tree matches another of the same typecode, every variable stands
for what is derived under its typecode. -/
theorem Consistent.wellBound_of_match? (h : db.Consistent) {tc : Typecode} {p f : Formula}
    {spelling symbols : List Symbol} (hp : Derives db.grammar usable tc p spelling)
    (hf : Derives db.grammar usable' tc f symbols) {bindings : Bindings}
    (hm : db.match? p f = some bindings) : db.WellBound usable' bindings := by
  apply h.wellBound_all.1 hp f symbols .empty bindings hf hm
  intro b hb
  simp [Table.empty] at hb

/-- A derivation tree with a rule at its root matches trees of its own typecode
only: they have the same rule at the root. -/
theorem Consistent.typecode_eq_of_match? (h : db.Consistent) {tc tc' : Typecode} {p f : Formula}
    {spelling symbols : List Symbol} (hp : Derives db.grammar usable tc p spelling)
    (hf : Derives db.grammar usable' tc' f symbols) (hroot : db.isVariable p.label = false)
    {bindings : Bindings} (hm : db.match? p f = some bindings) : tc = tc' := by
  have hd := h.distinct
  cases hp with
  | leaf hv =>
    rw [Formula.label, h.isVariable_of_get? hv] at hroot
    cases hroot
  | rule hr _ _ =>
    rw [match?, Formula.match?, Formula.matchInto, if_neg (by simp [h.isVariable_of_mem hr])] at hm
    split at hm
    · rename_i hfits
      cases hf with
      | leaf hv => exact absurd hfits.1.symm (hd.label_ne hv hr)
      | rule hr' _ _ => exact (hd.rule_eq hr hr' hfits.1).1
    · cases hm

/-- A variable that stands for nothing yet matches any formula. -/
theorem matchInto_of_get?_eq_none {isVariable : Label → Bool} {p : Formula} {bound : Bindings}
    (hp : isVariable p.label = true) (hnew : bound.get? p.label = none) (f : Formula) :
    Formula.matchInto isVariable p f bound = some (bound.set p.label f) := by
  obtain ⟨l, tc, ps⟩ := p
  have hl : isVariable l = true := hp
  have hget : bound.get? l = none := hnew
  rw [Formula.matchInto, if_pos hl, hget]
  rfl

/-- Only a variable that stands for nothing yet matches a variable that no bound
formula has the label of. -/
theorem of_matchInto_leaf {isVariable : Label → Bool} {p : Formula} {v : Floating}
    {bound found : Bindings} (hv : isVariable v.label = true)
    (havoids : ∀ l g, bound.get? l = some g → g.label ≠ v.label)
    (h : Formula.matchInto isVariable p v.leaf bound = some found) :
    isVariable p.label = true ∧ bound.get? p.label = none ∧ found = bound.set p.label v.leaf := by
  obtain ⟨l, tc, ps⟩ := p
  rw [Formula.matchInto] at h
  split at h
  · rename_i hl
    split at h
    · rename_i hget
      cases h
      exact ⟨hl, hget, rfl⟩
    · rename_i g hget
      split at h
      · rename_i hsame
        obtain ⟨gl, gtc, gs⟩ := g
        simp only [Floating.leaf, Formula.same, Bool.and_eq_true, beq_iff_eq] at hsame
        exact absurd hsame.1 (havoids l _ hget)
      · cases h
  · rename_i hl
    split at h
    · rename_i hfits
      exact absurd (hfits.1 ▸ hv) hl
    · cases h

/-- Patterns that match different variables match any formulas in their place:
each of them is a variable, and none comes twice. -/
theorem matchAllInto_of_leaves {isVariable : Label → Bool} (ps : List Formula) :
    ∀ (vs : List Floating) (fs : List Formula) (bound bound' found : Bindings),
      (∀ v ∈ vs, isVariable v.label = true) → (vs.map (·.label)).Nodup →
      (∀ v ∈ vs, ∀ l g, bound.get? l = some g → g.label ≠ v.label) →
      (∀ l, bound.get? l = none → bound'.get? l = none) → fs.length = vs.length →
      Formula.matchAllInto isVariable ps (vs.map Floating.leaf) bound = some found →
      ∃ found', Formula.matchAllInto isVariable ps fs bound' = some found' := by
  induction ps with
  | nil =>
    intro vs fs bound bound' found _ _ _ _ _ _
    exact ⟨bound', by rw [Formula.matchAllInto]⟩
  | cons p ps ih =>
    intro vs fs bound bound' found hvars hnodup havoids hkeys hlength hmatch
    cases vs with
    | nil =>
      obtain rfl := List.length_eq_zero_iff.mp hlength
      exact ⟨bound', by rw [Formula.matchAllInto]⟩
    | cons v vs =>
      cases fs with
      | nil => simp at hlength
      | cons f fs =>
        obtain ⟨hlabel, hnodup⟩ := List.nodup_cons.mp hnodup
        rw [List.map_cons, Formula.matchAllInto] at hmatch
        split at hmatch
        · rename_i bound₁ hfirst
          obtain ⟨hp, hnew, rfl⟩ := of_matchInto_leaf (hvars v List.mem_cons_self)
            (havoids v List.mem_cons_self) hfirst
          rw [Formula.matchAllInto, matchInto_of_get?_eq_none hp (hkeys _ hnew)]
          refine ih vs fs _ _ found ?_ hnodup ?_ ?_ (by simpa using hlength) hmatch
          · intro v' hv'
            exact hvars v' (List.mem_cons_of_mem _ hv')
          · intro v' hv' l g hg
            rw [Table.get?_set] at hg
            split at hg
            · cases hg
              intro heq
              exact hlabel (List.mem_map.mpr ⟨v', hv', heq.symm⟩)
            · exact havoids v' (List.mem_cons_of_mem _ hv') l g hg
          · intro l hl
            rw [Table.get?_set] at hl ⊢
            split at hl
            · cases hl
            · rename_i hne
              rw [if_neg hne]
              exact hkeys l hl
        · cases hmatch

/-- A pattern for a rule that repeats no variable matches all that the rule
builds, if it matches the expression of the rule itself. -/
theorem Consistent.match?_of_generic (h : db.Consistent) {tc : Typecode} {r : Rule}
    (hn : (r.body.filter fun x => (db.grammar.floatings.get? x).isSome).Nodup) {p : Formula}
    (hp : db.isVariable p.label = false) {found : Bindings}
    (hm : db.match? p (db.grammar.generic tc r) = some found) {parts : List Formula}
    {symbols : List Symbol} (hparts : DerivesParts db.grammar usable r.body parts symbols) :
    ∃ found', db.match? p (.node r.label tc parts) = some found' := by
  obtain ⟨l, ptc, ps⟩ := p
  have hl : ¬db.isVariable l = true := by simpa [Formula.label] using hp
  have hlength := length_eq_of_derivesParts hparts
  rw [match?, Formula.match?, Formula.matchInto, if_neg hl] at hm ⊢
  split at hm
  · rename_i hfits
    obtain ⟨hlabel, hsize⟩ := hfits
    have hleaves : (db.grammar.generic tc r).children.length =
        (db.grammar.variablesOf r.body).length := by
      simp [generic, Formula.children]
    have hvars : ∀ v ∈ db.grammar.variablesOf r.body, db.isVariable v.label = true := by
      intro v hv
      obtain ⟨x, _, hx⟩ := List.mem_filterMap.mp hv
      exact h.isVariable_of_get? hx
    have hunbound : ∀ v ∈ db.grammar.variablesOf r.body, ∀ l g,
        (Table.empty : Bindings).get? l = some g → g.label ≠ v.label := by
      intro v _ l g hg
      simp [Table.empty, Table.get?] at hg
    have hfits : l = (Formula.node r.label tc parts).label ∧
        ps.length = (Formula.node r.label tc parts).children.length :=
      ⟨hlabel, by rw [hsize, hleaves, Formula.children, hlength]⟩
    rw [if_pos hfits]
    exact matchAllInto_of_leaves ps _ parts .empty .empty found hvars
      (nodup_labels_variablesOf h.distinct hn) hunbound (fun _ hempty => hempty) hlength hm
  · cases hm

end Typeset.Database
