import Typeset.Proofs.Database.Declared
import Typeset.Proofs.Formula.Sameness
import Typeset.Proofs.Formula.Variables

/-!
# Matching finds instances

An assignment says for every variable which formula stands in its place, and
makes an instance of a pattern. Matching builds a part of an assignment, node by
node from the left; an assignment that makes the formula out of the pattern
respects all that is bound on the way. So matching succeeds exactly on the
instances of the pattern, and what it binds is the one assignment that makes the
formula, as far as the pattern has variables.
-/

namespace Typeset

namespace Formula

mutual

/-- A pattern with formulas in the places of its variables. What stands below a
variable goes with it. -/
def instantiate (isVariable : Label → Bool) (σ : Label → Formula) : Formula → Formula
  | node l tc ps => if isVariable l then σ l else node l tc (instantiateAll isVariable σ ps)

/-- Several patterns with formulas in the places of their variables. -/
def instantiateAll (isVariable : Label → Bool) (σ : Label → Formula) :
    List Formula → List Formula
  | [] => []
  | p :: ps => p.instantiate isVariable σ :: instantiateAll isVariable σ ps

end

/-- There are as many instances as patterns. -/
@[simp] theorem length_instantiateAll (isVariable : Label → Bool) (σ : Label → Formula)
    (ps : List Formula) : (instantiateAll isVariable σ ps).length = ps.length := by
  induction ps with
  | nil => rfl
  | cons p ps ih => rw [instantiateAll, List.length_cons, List.length_cons, ih]

/-- An assignment gives every variable that is bound the formula that it is bound
to, up to tags. -/
def Respects (σ : Label → Formula) (bound : Bindings) : Prop :=
  ∀ l g, bound.get? l = some g → (σ l).same g = true

variable {isVariable : Label → Bool} {σ : Label → Formula}

/-- Every assignment respects what is bound as long as nothing is. -/
theorem respects_empty (σ : Label → Formula) : Respects σ .empty := by
  intro l g h
  cases h

/-- A variable is newly bound to the formula that the assignment gives it. -/
theorem Respects.set {bound : Bindings} (h : Respects σ bound) {l : Label} {f : Formula}
    (hf : (σ l).same f = true) : Respects σ (bound.set l f) := by
  intro k g hg
  rw [Table.get?_set] at hg
  split at hg
  · rename_i hk
    cases hg
    rw [hk]
    exact hf
  · exact h k g hg

mutual

/-- What is bound stays bound. -/
theorem get?_of_matchInto (p : Formula) {f : Formula} {bound bound' : Bindings}
    (h : matchInto isVariable p f bound = some bound') {l : Label} {g : Formula}
    (hg : bound.get? l = some g) : bound'.get? l = some g := by
  obtain ⟨pl, tc, ps⟩ := p
  rw [matchInto] at h
  split at h
  · split at h
    · rename_i hnew
      cases h
      have hne : l ≠ pl := by
        rintro rfl
        rw [hnew] at hg
        cases hg
      rw [Table.get?_set_of_ne hne, hg]
    · split at h
      · cases h
        exact hg
      · cases h
  · split at h
    · exact get?_of_matchAllInto ps h hg
    · cases h

/-- What is bound stays bound while parts are matched. -/
theorem get?_of_matchAllInto (ps : List Formula) {fs : List Formula} {bound bound' : Bindings}
    (h : matchAllInto isVariable ps fs bound = some bound') {l : Label} {g : Formula}
    (hg : bound.get? l = some g) : bound'.get? l = some g := by
  match ps, fs with
  | [], _ =>
    rw [matchAllInto] at h
    cases h
    exact hg
  | _ :: _, [] =>
    rw [matchAllInto] at h
    cases h
    exact hg
  | p :: ps, f :: fs =>
    rw [matchAllInto] at h
    split at h
    · rename_i bound₁ hfirst
      exact get?_of_matchAllInto ps h (get?_of_matchInto p hfirst hg)
    · cases h

end

mutual

/-- Where a pattern matches, an assignment that respects what is bound then makes
the formula out of it. -/
theorem same_instantiate_of_matchInto (p : Formula) {f : Formula} {bound bound' : Bindings}
    (h : matchInto isVariable p f bound = some bound') (hσ : Respects σ bound') :
    (p.instantiate isVariable σ).same f = true := by
  obtain ⟨l, tc, ps⟩ := p
  rw [matchInto] at h
  rw [instantiate]
  split at h
  · rename_i hl
    rw [if_pos hl]
    split at h
    · cases h
      exact hσ l f (Table.get?_set_self bound l f)
    · rename_i g hget
      split at h
      · rename_i hsame
        cases h
        exact same_trans (hσ l g hget) hsame
      · cases h
  · rename_i hl
    rw [if_neg hl]
    split at h
    · rename_i hfits
      obtain ⟨fl, ftc, fs⟩ := f
      have hparts : sameAll (instantiateAll isVariable σ ps) fs = true :=
        sameAll_instantiateAll_of_matchAllInto ps hfits.2 h hσ
      simp [same, hfits.1, label, hparts]
    · cases h

/-- Where patterns match formulas, as many as there are, an assignment that
respects what is bound then makes the formulas out of them. -/
theorem sameAll_instantiateAll_of_matchAllInto (ps : List Formula) {fs : List Formula}
    {bound bound' : Bindings} (hlength : ps.length = fs.length)
    (h : matchAllInto isVariable ps fs bound = some bound')
    (hσ : Respects σ bound') : sameAll (instantiateAll isVariable σ ps) fs = true := by
  match ps, fs with
  | [], [] => rfl
  | [], _ :: _ => cases hlength
  | _ :: _, [] => cases hlength
  | p :: ps, f :: fs =>
    rw [matchAllInto] at h
    split at h
    · rename_i bound₁ hfirst
      -- What the first part binds is still bound at the end, so it is respected too.
      have hσ₁ : Respects σ bound₁ := fun l g hg => hσ l g (get?_of_matchAllInto ps h hg)
      rw [instantiateAll, sameAll, same_instantiate_of_matchInto p hfirst hσ₁,
        sameAll_instantiateAll_of_matchAllInto ps (Nat.succ.inj hlength) h hσ]
      rfl
    · cases h

end

mutual

/-- A pattern matches what an assignment makes out of it, and the assignment
respects what is bound then. -/
theorem exists_matchInto_of_same (p : Formula) {f : Formula} {bound : Bindings}
    (hσ : Respects σ bound) (h : (p.instantiate isVariable σ).same f = true) :
    ∃ bound', matchInto isVariable p f bound = some bound' ∧ Respects σ bound' := by
  obtain ⟨l, tc, ps⟩ := p
  rw [instantiate] at h
  rw [matchInto]
  split at h
  · rename_i hl
    rw [if_pos hl]
    -- A variable that is bound already is no obstacle: its value is what the assignment says.
    cases hget : bound.get? l with
    | none => exact ⟨_, rfl, hσ.set h⟩
    | some g =>
      have hsame : g.same f = true := by
        have hback := hσ l g hget
        rw [same_comm] at hback
        exact same_trans hback h
      exact ⟨bound, if_pos hsame, hσ⟩
  · rename_i hl
    rw [if_neg hl]
    obtain ⟨fl, ftc, fs⟩ := f
    simp only [same, Bool.and_eq_true, beq_iff_eq] at h
    have hlength : ps.length = fs.length := by
      rw [← length_eq_of_sameAll h.2, length_instantiateAll]
    rw [if_pos ⟨h.1, hlength⟩]
    exact exists_matchAllInto_of_sameAll ps hσ h.2

/-- Patterns match what an assignment makes out of them, and the assignment
respects what is bound then. -/
theorem exists_matchAllInto_of_sameAll (ps : List Formula) {fs : List Formula}
    {bound : Bindings} (hσ : Respects σ bound)
    (h : sameAll (instantiateAll isVariable σ ps) fs = true) :
    ∃ bound', matchAllInto isVariable ps fs bound = some bound' ∧ Respects σ bound' := by
  match ps, fs with
  | [], _ => exact ⟨bound, by rw [matchAllInto], hσ⟩
  | _ :: _, [] => exact ⟨bound, by rw [matchAllInto], hσ⟩
  | p :: ps, f :: fs =>
    simp only [instantiateAll, sameAll, Bool.and_eq_true] at h
    obtain ⟨bound₁, hfirst, hσ₁⟩ := exists_matchInto_of_same p hσ h.1
    rw [matchAllInto, hfirst]
    exact exists_matchAllInto_of_sameAll ps hσ₁ h.2

end

variable {p f : Formula} {bound : Bindings}

/-- A match is respected by an assignment exactly if the assignment gives every
variable of the pattern what it stands for. -/
theorem respects_iff_of_match? (h : match? isVariable p f = some bound) :
    Respects σ bound ↔
      ∀ l ∈ p.variableLabels isVariable, ∃ g, bound.get? l = some g ∧ (σ l).same g = true := by
  have hkeys : ∀ l, l ∈ bound.keys ↔ l ∈ p.variableLabels isVariable := by
    intro l
    rw [keys_of_match? h, mem_foldl_meet]
    simp
  constructor
  · intro hσ l hl
    obtain ⟨g, hg⟩ := Table.exists_get?_of_mem_keys ((hkeys l).mpr hl)
    exact ⟨g, hg, hσ l g hg⟩
  · intro hvariables l g hg
    obtain ⟨g', hg', hsame⟩ := hvariables l ((hkeys l).mp (Table.mem_keys_of_get? hg))
    obtain rfl : g = g' := Option.some.inj (hg.symm.trans hg')
    exact hsame

/-- A pattern matches exactly its instances. -/
theorem isSome_match?_iff :
    (match? isVariable p f).isSome = true ↔
      ∃ σ, (p.instantiate isVariable σ).same f = true := by
  constructor
  · intro h
    obtain ⟨bound, hbound⟩ := Option.isSome_iff_exists.mp h
    refine ⟨fun l => (bound.get? l).getD default, same_instantiate_of_matchInto p hbound ?_⟩
    intro l g hg
    dsimp only
    rw [hg]
    exact same_refl g
  · rintro ⟨σ, hσ⟩
    obtain ⟨bound, hbound, _⟩ := exists_matchInto_of_same p (respects_empty σ) hσ
    exact Option.isSome_iff_exists.mpr ⟨bound, hbound⟩

mutual

/-- Two assignments one after the other are a single one. -/
theorem instantiate_instantiate (isVariable : Label → Bool) (σ τ : Label → Formula)
    (p : Formula) :
    (p.instantiate isVariable σ).instantiate isVariable τ =
      p.instantiate isVariable fun l => (σ l).instantiate isVariable τ := by
  obtain ⟨l, tc, ps⟩ := p
  rw [instantiate, instantiate]
  by_cases hl : isVariable l = true
  · rw [if_pos hl, if_pos hl]
  · rw [if_neg hl, if_neg hl, instantiate, if_neg hl,
      instantiateAll_instantiateAll isVariable σ τ ps]

/-- Two assignments one after the other are a single one on several patterns. -/
theorem instantiateAll_instantiateAll (isVariable : Label → Bool) (σ τ : Label → Formula)
    (ps : List Formula) :
    instantiateAll isVariable τ (instantiateAll isVariable σ ps) =
      instantiateAll isVariable (fun l => (σ l).instantiate isVariable τ) ps := by
  match ps with
  | [] => rfl
  | p :: ps =>
    rw [instantiateAll, instantiateAll, instantiateAll,
      instantiate_instantiate isVariable σ τ p, instantiateAll_instantiateAll isVariable σ τ ps]

end

mutual

/-- An assignment makes the same out of patterns that are the same. -/
theorem same_instantiate (p : Formula) {q : Formula} (h : p.same q = true) :
    (p.instantiate isVariable σ).same (q.instantiate isVariable σ) = true := by
  obtain ⟨l, tc, ps⟩ := p
  obtain ⟨l', tc', qs⟩ := q
  simp only [same, Bool.and_eq_true, beq_iff_eq] at h
  obtain ⟨rfl, hparts⟩ := h
  rw [instantiate, instantiate]
  split
  · exact same_refl _
  · simp [same, sameAll_instantiateAll ps hparts]

/-- An assignment makes the same out of lists of patterns that agree one by one. -/
theorem sameAll_instantiateAll (ps : List Formula) {qs : List Formula}
    (h : sameAll ps qs = true) :
    sameAll (instantiateAll isVariable σ ps) (instantiateAll isVariable σ qs) = true := by
  match ps, qs with
  | [], [] => rfl
  | [], _ :: _ => cases h
  | _ :: _, [] => cases h
  | p :: ps, q :: qs =>
    simp only [sameAll, Bool.and_eq_true] at h
    rw [instantiateAll, instantiateAll, sameAll, same_instantiate p h.1,
      sameAll_instantiateAll ps h.2]
    rfl

end

/-- A pattern matches the instances of its instances. -/
theorem isSome_match?_trans {q : Formula} (hpq : (match? isVariable p q).isSome = true)
    (hqf : (match? isVariable q f).isSome = true) : (match? isVariable p f).isSome = true := by
  obtain ⟨σ, hσ⟩ := isSome_match?_iff.mp hpq
  obtain ⟨τ, hτ⟩ := isSome_match?_iff.mp hqf
  refine isSome_match?_iff.mpr ⟨fun l => (σ l).instantiate isVariable τ, ?_⟩
  rw [← instantiate_instantiate]
  exact same_trans (same_instantiate _ hσ) hτ

/-- The assignments that make a formula out of a pattern are those that respect
the match. -/
theorem same_instantiate_iff_of_match? (h : match? isVariable p f = some bound) :
    (p.instantiate isVariable σ).same f = true ↔ Respects σ bound := by
  constructor
  · intro hsame
    obtain ⟨bound', hbound', hσ⟩ := exists_matchInto_of_same p (respects_empty σ) hsame
    obtain rfl : bound = bound' := Option.some.inj (h.symm.trans hbound')
    exact hσ
  · exact same_instantiate_of_matchInto p h

end Formula

namespace Database

/-- Matching is exactly one-sided matching of trees, whatever tags the nodes
carry. A pattern matches a formula if and only if some assignment of formulas to
the variables makes the formula out of the pattern. What is bound then is what
every such assignment gives the variables of the pattern, and it is a part of the
formula. The variables are bound in the order in which they first stand in the
pattern; where nothing stands below them these are all labels of the pattern that
are variables. -/
theorem matching_is_exact (db : Database) (p f : Formula) :
    ((db.match? p f).isSome = true ↔
      ∃ σ, (p.instantiate db.isVariable σ).same f = true) ∧
    (∀ bound, db.match? p f = some bound →
      (∀ σ, (p.instantiate db.isVariable σ).same f = true ↔
        ∀ l ∈ p.variableLabels db.isVariable,
          ∃ g, bound.get? l = some g ∧ (σ l).same g = true) ∧
      bound.keys = (p.variableLabels db.isVariable).eraseDups ∧
      ∀ l g, bound.get? l = some g → g ∈ f.subformulas) ∧
    ((∀ g ∈ p.subformulas, db.isVariable g.label = true → g.children = []) →
      p.variableLabels db.isVariable = p.labels.filter db.isVariable) := by
  refine ⟨Formula.isSome_match?_iff, ?_, p.variableLabels_eq_filter⟩
  intro bound hbound
  refine ⟨?_, ?_, ?_⟩
  · intro σ
    exact (Formula.same_instantiate_iff_of_match? hbound).trans
      (Formula.respects_iff_of_match? hbound)
  · rw [Formula.keys_of_match? hbound, Formula.foldl_meet_nil]
  · intro l g hg
    exact Formula.mem_subformulas_iff.mpr
      (Formula.eq_or_mem_subformulasAll_of_match? hbound (Table.mem_of_get? hg))

/-- The pattern for sums of a class with itself. -/
def sampleDouble : Formula := .node "add" "c" [.node "cx" "c" [], .node "cx" "c" []]

/-- The sum of the second variable with itself, under several tags. -/
def sampleRetagged : Formula := .node "add" "w" [.node "cy" "c" [], .node "cy" "w" []]

/-- The sum of the second variable with itself fits the pattern whatever its tags
are, and there is one way only to make it out of the pattern. -/
theorem matching_is_exact_sample :
    sample.match? sampleDouble sampleRetagged = some ⟨[("cx", .node "cy" "c" [])]⟩ ∧
      ∀ σ, (sampleDouble.instantiate sample.isVariable σ).same sampleRetagged = true ↔
        (σ "cx").same (.node "cy" "c" []) = true := by
  have hmatch : sample.match? sampleDouble sampleRetagged =
      some ⟨[("cx", .node "cy" "c" [])]⟩ := by
    rfl
  have hlabels : sampleDouble.variableLabels sample.isVariable = ["cx", "cx"] := by
    rfl
  have hvalue : Table.get? (⟨[("cx", .node "cy" "c" [])]⟩ : Bindings) "cx" =
      some (.node "cy" "c" []) := by
    rfl
  refine ⟨hmatch, fun σ => ?_⟩
  have hexact := ((matching_is_exact sample sampleDouble sampleRetagged).2.1 _ hmatch).1 σ
  rw [hexact, hlabels]
  simp [hvalue]

/-- The two places of a repeated variable must hold the same formula. -/
example : (sample.match? sampleDouble sampleSum).isNone = true := by
  rfl

end Database

end Typeset
