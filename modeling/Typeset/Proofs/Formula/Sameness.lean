import Mathlib.Data.List.Forall2
import Mathlib.Data.Option.Basic
import Typeset.Formula.Match

/-!
# Matching does not see tags

Formulas that are the same up to their tags fit the same patterns, and what
the variables of a pattern stand for in one of them is the same, variable by
variable, as in the other.
-/

namespace Typeset

/-- The same variables, in the same order, standing for formulas in a
relation. -/
def Bindings.Rel (S : Formula → Formula → Prop) (b b' : Bindings) : Prop :=
  List.Forall₂ (fun e e' => e.1 = e'.1 ∧ S e.2 e'.2) b.entries b'.entries

/-- Bindings that agree variable by variable, up to tags. -/
abbrev Bindings.Alike : Bindings → Bindings → Prop := Bindings.Rel fun f g => f.same g = true

namespace Formula

/-- Two formulas that are the same are compared alike with any third. -/
theorem same_congr {f f' : Formula} (h : f.same f' = true) (g : Formula) :
    g.same f = g.same f' := by
  rw [Bool.eq_iff_iff, same_iff, same_iff, (same_iff f f').mp h]

/-- Lists that agree one by one have one length. -/
theorem length_eq_of_sameAll {fs fs' : List Formula} (h : sameAll fs fs' = true) :
    fs.length = fs'.length := by
  induction fs generalizing fs' with
  | nil =>
    cases fs' with
    | nil => rfl
    | cons f' fs' => simp [sameAll] at h
  | cons f fs ih =>
    cases fs' with
    | nil => simp [sameAll] at h
    | cons f' fs' =>
      simp only [sameAll, Bool.and_eq_true] at h
      rw [List.length_cons, List.length_cons, ih h.2]

/-- Bindings that agree have values that agree. -/
theorem get?_alike {b b' : Bindings} (h : b.Alike b') (l : Label) :
    Option.Rel (fun f g => f.same g = true) (b.get? l) (b'.get? l) := by
  obtain ⟨es⟩ := b
  obtain ⟨es'⟩ := b'
  unfold Bindings.Alike Bindings.Rel at h
  simp only [Table.get?] at h ⊢
  induction h with
  | nil => exact .none
  | @cons e e' es es' hhead _ ih =>
    obtain ⟨k, f⟩ := e
    obtain ⟨k', f'⟩ := e'
    obtain ⟨rfl, hsame⟩ := hhead
    rw [List.lookup_cons, List.lookup_cons]
    cases l == k with
    | true => exact .some hsame
    | false => exact ih

/-- Setting the same variable keeps bindings in agreement. -/
theorem set_alike {b b' : Bindings} (h : b.Alike b') (l : Label) {f f' : Formula}
    (hf : f.same f' = true) : Bindings.Alike (b.set l f) (b'.set l f') := by
  obtain ⟨es⟩ := b
  obtain ⟨es'⟩ := b'
  unfold Bindings.Alike Bindings.Rel at h ⊢
  simp only [Table.set] at h ⊢
  induction h with
  | nil => exact .cons ⟨rfl, hf⟩ .nil
  | @cons e e' es es' hhead htail ih =>
    obtain ⟨k, g⟩ := e
    obtain ⟨k', g'⟩ := e'
    obtain ⟨rfl, hsame⟩ := hhead
    unfold Table.setEntry
    split
    · exact .cons ⟨rfl, hf⟩ htail
    · exact .cons ⟨rfl, hsame⟩ ih

mutual

/-- Formulas that are the same are matched alike. -/
theorem matchInto_alike {isVariable : Label → Bool} (p : Formula) {f f' : Formula}
    {bound bound' : Bindings} (hf : f.same f' = true) (hb : bound.Alike bound') :
    Option.Rel Bindings.Alike (matchInto isVariable p f bound)
      (matchInto isVariable p f' bound') := by
  obtain ⟨l, tc, ps⟩ := p
  rw [matchInto, matchInto]
  split
  · have hget := get?_alike hb l
    generalize bound.get? l = o at hget
    generalize bound'.get? l = o' at hget
    cases hget with
    | none => exact .some (set_alike hb l hf)
    | @some g g' hsame =>
      have hsees : g.same f = g'.same f' := by
        rw [same_congr hf g, same_comm g, same_comm g', same_congr hsame f']
      simp only [hsees]
      split
      · exact .some hb
      · exact .none
  · obtain ⟨fl, ftc, fs⟩ := f
    obtain ⟨fl', ftc', fs'⟩ := f'
    simp only [same, Bool.and_eq_true, beq_iff_eq] at hf
    obtain ⟨rfl, hfs⟩ := hf
    have hlength := length_eq_of_sameAll hfs
    change Option.Rel Bindings.Alike
      (if l = fl ∧ ps.length = fs.length then matchAllInto isVariable ps fs bound else none)
      (if l = fl ∧ ps.length = fs'.length then matchAllInto isVariable ps fs' bound' else none)
    rw [hlength]
    by_cases hfits : l = fl ∧ ps.length = fs'.length
    · rw [if_pos hfits, if_pos hfits]
      exact matchAllInto_alike ps hfs hb
    · rw [if_neg hfits, if_neg hfits]
      exact .none

/-- Lists of formulas that agree one by one are matched alike. -/
theorem matchAllInto_alike {isVariable : Label → Bool} (ps : List Formula) {fs fs' : List Formula}
    {bound bound' : Bindings} (hf : sameAll fs fs' = true) (hb : bound.Alike bound') :
    Option.Rel Bindings.Alike (matchAllInto isVariable ps fs bound)
      (matchAllInto isVariable ps fs' bound') := by
  cases ps with
  | nil =>
    rw [matchAllInto, matchAllInto]
    exact .some hb
  | cons p ps =>
    cases fs with
    | nil =>
      cases fs' with
      | nil =>
        rw [matchAllInto, matchAllInto]
        exact .some hb
      | cons f' fs' => simp [sameAll] at hf
    | cons f fs =>
      cases fs' with
      | nil => simp [sameAll] at hf
      | cons f' fs' =>
        simp only [sameAll, Bool.and_eq_true] at hf
        have hfirst := @matchInto_alike isVariable p f f' bound bound' hf.1 hb
        rw [matchAllInto, matchAllInto]
        generalize matchInto isVariable p f bound = o at hfirst
        generalize matchInto isVariable p f' bound' = o' at hfirst
        cases hfirst with
        | none => exact .none
        | some hbound => exact matchAllInto_alike ps hf.2 hbound

end

/-- Formulas that are the same fit the same patterns, with bindings that
agree. -/
theorem match?_alike {f f' : Formula} (hf : f.same f' = true) (isVariable : Label → Bool)
    (p : Formula) :
    Option.Rel Bindings.Alike (match? isVariable p f) (match? isVariable p f') :=
  matchInto_alike p hf .nil

end Formula

end Typeset
