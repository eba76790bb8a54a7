import Mathlib.Data.List.Induction
import Typeset.Formula.Measured

/-!
# The distinct sub-formulas of a formula

All sub-formulas of a formula, parts before the whole, list every part of a formula
before the formula. Leaving out what came before keeps that: what is left out is there
already, further to the front. The whole formula comes last and is larger than all that
comes before it, so it is never left out.
-/

namespace Typeset.Formula

/-- A formula is in a list, up to tags. -/
def IsAmong (f : Formula) (fs : List Formula) : Prop := ∃ g ∈ fs, g.same f = true

/-- Every part of a formula of a list stands before the formula. -/
def PartsFirst (fs : List Formula) : Prop :=
  ∀ before f after, fs = before ++ f :: after → ∀ c ∈ f.children, c.IsAmong before

/-- The steps that build a formula: its sub-formulas, each once, parts before what they
are parts of, and the formula last. -/
structure AreSteps (steps : List Formula) (f : Formula) : Prop where
  /-- The formula comes last. -/
  exists_last : ∃ last, steps.getLast? = some last ∧ last.same f = true
  /-- The steps are the sub-formulas. -/
  isAmong_iff : ∀ g : Formula, g.IsAmong steps ↔ g.IsAmong f.subformulas
  /-- No two steps are the same. -/
  pairwise : steps.Pairwise fun g h => g.same h = false
  /-- The parts of a step are earlier steps. -/
  partsFirst : PartsFirst steps

variable {f g : Formula} {fs gs : List Formula}

/-- What is in a list is in it up to tags. -/
theorem isAmong_of_mem (h : f ∈ fs) : f.IsAmong fs := ⟨f, h, same_refl f⟩

theorem isAmong_iff_any : f.IsAmong fs ↔ (fs.any fun g => g.same f) = true := by
  rw [List.any_eq_true]
  rfl

/-- What is in two lists side by side is in one of them. -/
theorem isAmong_append : f.IsAmong (fs ++ gs) ↔ f.IsAmong fs ∨ f.IsAmong gs := by
  simp only [IsAmong, List.mem_append, or_and_right, exists_or]

theorem isAmong_singleton : f.IsAmong [g] ↔ g.same f = true := by
  simp only [IsAmong, List.mem_singleton, exists_eq_left]

/-- What is the same as a formula of a list is in the list up to tags. -/
theorem IsAmong.of_same (h : g.IsAmong fs) (hsame : g.same f = true) : f.IsAmong fs := by
  obtain ⟨h, hh, hg⟩ := h
  exact ⟨h, hh, same_trans hg hsame⟩

/-- Parts stand first in a list with one more formula exactly if they do in the list
and those of the formula are in it. -/
theorem partsFirst_concat :
    PartsFirst (fs ++ [f]) ↔ PartsFirst fs ∧ ∀ c ∈ f.children, c.IsAmong fs := by
  constructor
  · intro h
    refine ⟨?_, h fs f [] rfl⟩
    rintro before g after rfl
    exact h before g (after ++ [f]) (List.append_assoc _ _ _)
  · rintro ⟨hfs, hf⟩ before g after hsplit
    rcases List.eq_nil_or_concat after with rfl | ⟨after, last, rfl⟩
    · obtain ⟨rfl, hlast⟩ := List.append_inj' hsplit rfl
      obtain rfl := List.singleton_inj.mp hlast
      exact hf
    · have hassoc : before ++ g :: (after ++ [last]) = (before ++ g :: after) ++ [last] := by
        rw [List.append_assoc, List.cons_append]
      rw [List.concat_eq_append, hassoc] at hsplit
      exact hfs before g after (List.append_inj' hsplit rfl).1

/-- Lists side by side list parts first if each of them does. -/
theorem PartsFirst.append (hfs : PartsFirst fs) (hgs : PartsFirst gs) : PartsFirst (fs ++ gs) := by
  induction gs using List.reverseRecOn with
  | nil => rwa [List.append_nil]
  | append_singleton gs g ih =>
    obtain ⟨hgs, hg⟩ := partsFirst_concat.mp hgs
    rw [← List.append_assoc]
    exact partsFirst_concat.mpr ⟨ih hgs, fun c hc => isAmong_append.mpr (.inr (hg c hc))⟩

/-- A tree of a list is among the sub-formulas of the list. -/
theorem mem_subformulasAll_of_mem {cs : List Formula} (h : f ∈ cs) : f ∈ subformulasAll cs := by
  induction cs with
  | nil => cases h
  | cons c cs ih =>
    rw [subformulasAll]
    rcases List.mem_cons.mp h with rfl | h
    · exact List.mem_append_left _ (mem_subformulas_self f)
    · exact List.mem_append_right _ (ih h)

mutual

/-- The sub-formulas of a formula are listed parts first. -/
theorem partsFirst_subformulas (f : Formula) : PartsFirst f.subformulas := by
  obtain ⟨l, tc, cs⟩ := f
  rw [subformulas]
  refine partsFirst_concat.mpr ⟨partsFirst_subformulasAll cs, ?_⟩
  intro c hc
  exact isAmong_of_mem (mem_subformulasAll_of_mem hc)

/-- The sub-formulas of several formulas are listed parts first. -/
theorem partsFirst_subformulasAll (cs : List Formula) : PartsFirst (subformulasAll cs) := by
  match cs with
  | [] =>
    intro before f after hsplit
    simp [subformulasAll] at hsplit
  | c :: cs =>
    rw [subformulasAll]
    exact (partsFirst_subformulas c).append (partsFirst_subformulasAll cs)

end

/-- A formula that is new to a list is one more distinct formula, and any other is
none. -/
theorem distinct_concat (fs : List Formula) (f : Formula) :
    distinct (fs ++ [f]) =
      if (distinct fs).any fun g => g.same f then distinct fs else distinct fs ++ [f] := by
  unfold distinct
  dsimp only
  rw [List.map_append, List.foldl_append, List.any_map]
  simp only [List.map_cons, List.map_nil, List.foldl_cons, List.foldl_nil, Measured.same_eq]
  split
  · rename_i hseen
    exact (if_pos hseen).symm
  · rename_i hseen
    rw [List.map_append]
    exact (if_neg hseen).symm

/-- The distinct formulas of a list are in it. -/
theorem mem_of_mem_distinct (h : f ∈ distinct fs) : f ∈ fs := by
  induction fs using List.reverseRecOn with
  | nil => cases h
  | append_singleton fs g ih =>
    rw [distinct_concat] at h
    split at h
    · exact List.mem_append_left _ (ih h)
    · rcases List.mem_append.mp h with h | h
      · exact List.mem_append_left _ (ih h)
      · exact List.mem_append_right _ h

/-- Up to tags all formulas of a list are among the distinct ones. -/
theorem isAmong_distinct : g.IsAmong (distinct fs) ↔ g.IsAmong fs := by
  induction fs using List.reverseRecOn with
  | nil => rfl
  | append_singleton fs f ih =>
    rw [distinct_concat, isAmong_append, isAmong_singleton]
    split
    · rename_i hseen
      have hf := isAmong_iff_any.mpr hseen
      rw [← ih]
      exact ⟨.inl, fun h => h.elim id hf.of_same⟩
    · rw [isAmong_append, isAmong_singleton, ih]

/-- No two distinct formulas are the same. -/
theorem pairwise_distinct (fs : List Formula) :
    (distinct fs).Pairwise fun g h => g.same h = false := by
  induction fs using List.reverseRecOn with
  | nil => exact .nil
  | append_singleton fs f ih =>
    rw [distinct_concat]
    split
    · exact ih
    · rename_i hnew
      refine List.pairwise_append.mpr ⟨ih, List.pairwise_singleton _ _, ?_⟩
      intro g hg h hh
      obtain rfl := List.mem_singleton.mp hh
      rw [List.any_eq_true, not_exists] at hnew
      simpa [hg] using hnew g

/-- The distinct formulas of a list are listed parts first if the list is. -/
theorem PartsFirst.distinct (h : PartsFirst fs) : PartsFirst (distinct fs) := by
  induction fs using List.reverseRecOn with
  | nil => exact h
  | append_singleton fs f ih =>
    obtain ⟨hfs, hf⟩ := partsFirst_concat.mp h
    rw [distinct_concat]
    split
    · exact ih hfs
    · exact partsFirst_concat.mpr ⟨ih hfs, fun c hc => isAmong_distinct.mpr (hf c hc)⟩

/-- The sub-formulas of a formula are those of its parts, and the formula. -/
theorem subformulas_eq (f : Formula) : f.subformulas = subformulasAll f.children ++ [f] := by
  obtain ⟨l, tc, cs⟩ := f
  rw [subformulas]
  rfl

/-- Below the root no sub-formula is the same as the whole. -/
theorem not_isAmong_subformulasAll (f : Formula) : ¬f.IsAmong (subformulasAll f.children) := by
  rintro ⟨g, hg, hsame⟩
  have hlt := size_lt_of_mem_subformulasAll hg
  rw [size_eq_of_same hsame] at hlt
  exact Nat.lt_irrefl _ hlt

/-- The distinct sub-formulas of a formula are the steps that build it. -/
theorem areSteps_distinct (f : Formula) : AreSteps (Formula.distinct f.subformulas) f where
  exists_last := by
    have hnew : ¬((Formula.distinct (subformulasAll f.children)).any fun g => g.same f) = true := by
      rw [← isAmong_iff_any, isAmong_distinct]
      exact not_isAmong_subformulasAll f
    rw [subformulas_eq, distinct_concat, if_neg hnew, List.getLast?_concat]
    exact ⟨f, rfl, same_refl f⟩
  isAmong_iff _ := isAmong_distinct
  pairwise := pairwise_distinct _
  partsFirst := (partsFirst_subformulas f).distinct

/-- The tag of the root does not matter to the steps. -/
theorem AreSteps.retag (h : AreSteps fs f) (tc : Typecode) : AreSteps fs (f.retag tc) where
  exists_last := by
    obtain ⟨last, hlast, hsame⟩ := h.exists_last
    exact ⟨last, hlast, same_trans hsame (same_retag f tc)⟩
  isAmong_iff := by
    intro g
    have hsame : (f.retag tc).same g = f.same g := by
      cases f
      cases g
      rfl
    rw [h.isAmong_iff, subformulas_eq f, subformulas_eq (f.retag tc), children_retag,
      isAmong_append, isAmong_append, isAmong_singleton, isAmong_singleton, hsame]
  pairwise := h.pairwise
  partsFirst := h.partsFirst

end Typeset.Formula
