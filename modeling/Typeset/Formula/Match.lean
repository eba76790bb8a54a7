import Typeset.Formula
import Typeset.Table

/-!
# Matching a formula against a pattern

A pattern is a formula in which some labels are variables. Matching binds
each of them to the sub-formula that stands in its place; everything else has
to agree label by label. A variable that occurs twice has to stand for the
same formula in both places. Bindings are listed in the order in which the
pattern first names their variables.
-/

namespace Typeset

/-- What the variables of a pattern stand for. -/
abbrev Bindings := Table Label Formula

namespace Formula

mutual

/-- Matches a formula, adding to bindings made further left. -/
def matchInto (isVariable : Label → Bool) : Formula → Formula → Bindings → Option Bindings
  | node l _ ps, f, bound =>
    if isVariable l then
      match bound.get? l with
      | none => some (bound.set l f)
      | some g => if g.same f then some bound else none
    else if l = f.label ∧ ps.length = f.children.length then
      matchAllInto isVariable ps f.children bound
    else none

/-- Matches formulas one by one, from the left. -/
def matchAllInto (isVariable : Label → Bool) :
    List Formula → List Formula → Bindings → Option Bindings
  | p :: ps, f :: fs, bound =>
    match matchInto isVariable p f bound with
    | some bound' => matchAllInto isVariable ps fs bound'
    | none => none
  | [], _, bound => some bound
  | _ :: _, [], bound => some bound

end

/-- What the variables of a pattern stand for in a formula, none if they do
not fit together. -/
def match? (isVariable : Label → Bool) (pattern f : Formula) : Option Bindings :=
  matchInto isVariable pattern f .empty

/-- Setting a key adds no other value. -/
theorem mem_entries_set {t : Bindings} {l k : Label} {f g : Formula}
    (h : (k, g) ∈ (t.set l f).entries) : (k, g) ∈ t.entries ∨ (k, g) = (l, f) := by
  obtain ⟨es⟩ := t
  simp only [Table.set] at h ⊢
  induction es with
  | nil => simpa [Table.setEntry] using h
  | cons e es ih =>
    unfold Table.setEntry at h
    split at h
    · rename_i hl
      rcases List.mem_cons.1 h with h | h
      · right
        rw [h, hl]
      · simp [h]
    · rcases List.mem_cons.1 h with h | h
      · simp [h]
      · rcases ih h with h | h <;> simp [h]

mutual

/-- What matching binds is a sub-formula of the formula that is matched. -/
theorem mem_subformulas_of_mem_matchInto {isVariable : Label → Bool} (p f : Formula)
    {bound bound' : Bindings} (h : matchInto isVariable p f bound = some bound') {l : Label}
    {g : Formula} (hg : (l, g) ∈ bound'.entries) :
    (l, g) ∈ bound.entries ∨ g ∈ f.subformulas := by
  obtain ⟨pl, ptc, ps⟩ := p
  rw [matchInto] at h
  split at h
  · split at h
    · obtain rfl := Option.some.inj h
      rcases mem_entries_set hg with h | h
      · exact .inl h
      · exact .inr ((Prod.mk.inj h).2 ▸ mem_subformulas_self f)
    · split at h
      · exact .inl (Option.some.inj h ▸ hg)
      · simp at h
  · split at h
    · rcases mem_subformulasAll_of_mem_matchAllInto ps f.children h hg with h | h
      · exact .inl h
      · exact .inr (mem_subformulas_iff.2 (.inr h))
    · simp at h

/-- What matching parts binds is a sub-formula of the parts. -/
theorem mem_subformulasAll_of_mem_matchAllInto {isVariable : Label → Bool} (ps fs : List Formula)
    {bound bound' : Bindings} (h : matchAllInto isVariable ps fs bound = some bound') {l : Label}
    {g : Formula} (hg : (l, g) ∈ bound'.entries) :
    (l, g) ∈ bound.entries ∨ g ∈ subformulasAll fs := by
  match ps, fs with
  | [], _ =>
    rw [matchAllInto] at h
    exact .inl (Option.some.inj h ▸ hg)
  | _ :: _, [] =>
    rw [matchAllInto] at h
    exact .inl (Option.some.inj h ▸ hg)
  | p :: ps, f :: fs =>
    rw [matchAllInto] at h
    split at h
    · rename_i bound₁ hp
      rw [subformulasAll, List.mem_append]
      rcases mem_subformulasAll_of_mem_matchAllInto ps fs h hg with h' | h'
      · rcases mem_subformulas_of_mem_matchInto p f hp h' with h' | h'
        · exact .inl h'
        · exact .inr (.inl h')
      · exact .inr (.inr h')
    · simp at h

end

/-- A variable stands for the whole formula or for one below its root. -/
theorem eq_or_mem_subformulasAll_of_match? {isVariable : Label → Bool} {p f : Formula}
    {bound : Bindings} (h : match? isVariable p f = some bound) {l : Label} {g : Formula}
    (hg : (l, g) ∈ bound.entries) : g = f ∨ g ∈ subformulasAll f.children := by
  rcases mem_subformulas_of_mem_matchInto p f h hg with h | h
  · simp [Table.empty] at h
  · exact mem_subformulas_iff.1 h

/-- A variable inside a pattern stands for a formula smaller than the whole. -/
theorem size_lt_of_match? {isVariable : Label → Bool} {p f : Formula} {bound : Bindings}
    (hp : isVariable p.label = false) (h : match? isVariable p f = some bound) {l : Label}
    {g : Formula} (hg : (l, g) ∈ bound.entries) : g.size < f.size := by
  obtain ⟨pl, ptc, ps⟩ := p
  have hl : ¬isVariable pl = true := by simpa [label] using hp
  rw [match?, matchInto, if_neg hl] at h
  split at h
  · rcases mem_subformulasAll_of_mem_matchAllInto ps f.children h hg with h | h
    · simp [Table.empty] at h
    · exact size_lt_of_mem_subformulasAll h
  · simp at h

/-- A variable stands for the whole formula or for a smaller one. -/
theorem eq_or_size_lt_of_match? {isVariable : Label → Bool} {p f : Formula} {bound : Bindings}
    (h : match? isVariable p f = some bound) {l : Label} {g : Formula}
    (hg : (l, g) ∈ bound.entries) : g = f ∨ g.size < f.size :=
  (eq_or_mem_subformulasAll_of_match? h hg).imp_right size_lt_of_mem_subformulasAll

end Formula

end Typeset
