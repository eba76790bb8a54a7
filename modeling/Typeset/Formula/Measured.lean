import Typeset.Formula

/-!
# Telling formulas apart

To compare two deep trees node by node takes long, above all when they agree
nearly everywhere. A measured formula has its size at hand. Formulas of
different sizes are not the same, so most comparisons look at the sizes alone.
-/

namespace Typeset

namespace Formula

mutual

/-- Formulas that are the same have one size. -/
theorem size_eq_of_same {f g : Formula} (h : f.same g = true) : f.size = g.size := by
  obtain ⟨l, tc, cs⟩ := f
  obtain ⟨l', tc', cs'⟩ := g
  simp only [same, Bool.and_eq_true] at h
  simp only [size, sizeAll_eq_of_sameAll h.2]

/-- Lists of formulas that agree one by one have one size. -/
theorem sizeAll_eq_of_sameAll {cs cs' : List Formula} (h : sameAll cs cs' = true) :
    sizeAll cs = sizeAll cs' := by
  match cs, cs' with
  | [], [] => rfl
  | [], _ :: _ => simp [sameAll] at h
  | _ :: _, [] => simp [sameAll] at h
  | c :: cs, c' :: cs' =>
    simp only [sameAll, Bool.and_eq_true] at h
    simp only [sizeAll, size_eq_of_same h.1, sizeAll_eq_of_sameAll h.2]

end

end Formula

/-- A formula with its size at hand. -/
structure Measured where
  /-- The formula. -/
  formula : Formula
  /-- Its size. -/
  size : Nat
  /-- The size is that of the formula. -/
  size_eq : size = formula.size

namespace Measured

/-- Measures a formula. -/
def of (f : Formula) : Measured := ⟨f, f.size, rfl⟩

/-- Whether two formulas are the same. -/
def same (m n : Measured) : Bool := m.size == n.size && m.formula.same n.formula

/-- Sizes decide nothing that the trees do not. -/
@[simp] theorem same_eq (m n : Measured) : m.same n = m.formula.same n.formula := by
  unfold same
  cases h : m.formula.same n.formula with
  | false => simp
  | true => simp [m.size_eq, n.size_eq, Formula.size_eq_of_same h]

end Measured

/-- The distinct formulas of a list, each at the place where it first occurs. -/
def Formula.distinct (fs : List Formula) : List Formula :=
  let measured := (fs.map Measured.of).foldl
    (fun seen m => if seen.any (·.same m) then seen else seen ++ [m]) []
  measured.map (·.formula)

end Typeset
