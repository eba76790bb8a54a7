import Typeset.Statement

/-!
# Formula trees

A node of a formula is labelled by the syntax axiom that builds it, or, at a
leaf, by the floating hypothesis of a variable. Every node carries the
typecode it was read under, but that is a tag: two formulas are the same when
their labels and children are, whatever the tags say. So a formula read as a
well-formed expression is still the same formula when it is asserted.
-/

namespace Typeset

/-- A formula tree with its tags. -/
inductive Formula where
  /-- A node: its label, its tag, its parts. -/
  | node (label : Label) (typecode : Typecode) (children : List Formula)
deriving Repr, Inhabited

namespace Formula

/-- The label of the root. -/
def label : Formula → Label
  | node l _ _ => l

/-- The tag of the root. -/
def typecode : Formula → Typecode
  | node _ tc _ => tc

/-- The parts of the root. -/
def children : Formula → List Formula
  | node _ _ cs => cs

mutual

/-- Decides whether two trees are equal, tags included. -/
def decEq : (f g : Formula) → Decidable (f = g)
  | node l tc cs, node l' tc' cs' =>
    match decEqAll cs cs' with
    | .isTrue h => decidable_of_iff (l = l' ∧ tc = tc') (by simp [h])
    | .isFalse h => .isFalse (by simp [h])

/-- Decides whether two lists of trees are equal, tags included. -/
def decEqAll : (cs cs' : List Formula) → Decidable (cs = cs')
  | [], [] => .isTrue rfl
  | [], _ :: _ => .isFalse (by simp)
  | _ :: _, [] => .isFalse (by simp)
  | c :: cs, c' :: cs' =>
    match decEq c c', decEqAll cs cs' with
    | .isTrue h, .isTrue h' => .isTrue (by rw [h, h'])
    | .isFalse h, _ => .isFalse (by simp [h])
    | _, .isFalse h' => .isFalse (by simp [h'])

end

instance : DecidableEq Formula := decEq

/-- The same tree under another tag. -/
def retag (tc : Typecode) : Formula → Formula
  | node l _ cs => node l tc cs

mutual

/-- The number of nodes. -/
def size : Formula → Nat
  | node _ _ cs => sizeAll cs + 1

/-- The number of nodes of several trees. -/
def sizeAll : List Formula → Nat
  | [] => 0
  | c :: cs => c.size + sizeAll cs

end

mutual

/-- Whether two trees agree in all labels, whatever their tags. -/
def same : Formula → Formula → Bool
  | node l _ cs, node l' _ cs' => l == l' && sameAll cs cs'

/-- Whether two lists of trees agree one by one. -/
def sameAll : List Formula → List Formula → Bool
  | [], [] => true
  | c :: cs, c' :: cs' => c.same c' && sameAll cs cs'
  | _, _ => false

end

mutual

/-- The tree with every tag removed. -/
def untagged : Formula → Formula
  | node l _ cs => node l "" (untaggedAll cs)

/-- Several trees with every tag removed. -/
def untaggedAll : List Formula → List Formula
  | [] => []
  | c :: cs => c.untagged :: untaggedAll cs

end

mutual

/-- The labels, each node before its parts. -/
def labels : Formula → List Label
  | node l _ cs => l :: labelsAll cs

/-- The labels of several trees, one tree after the other. -/
def labelsAll : List Formula → List Label
  | [] => []
  | c :: cs => c.labels ++ labelsAll cs

end

mutual

/-- The tree as text: the label, and the parts in parentheses if there are any. -/
def toText : Formula → String
  | node l _ [] => l
  | node l _ (c :: cs) => l ++ "(" ++ c.toText ++ toTextAll cs ++ ")"

/-- Further parts as text, each behind a comma. -/
def toTextAll : List Formula → String
  | [] => ""
  | c :: cs => ", " ++ c.toText ++ toTextAll cs

end

mutual

/-- All sub-formulas, parts before the whole, as often as they occur. -/
def subformulas : Formula → List Formula
  | node l tc cs => subformulasAll cs ++ [node l tc cs]

/-- All sub-formulas of several trees. -/
def subformulasAll : List Formula → List Formula
  | [] => []
  | c :: cs => c.subformulas ++ subformulasAll cs

end

mutual

/-- Trees are the same exactly when they are equal without their tags. -/
theorem same_iff (f g : Formula) : f.same g = true ↔ f.untagged = g.untagged := by
  obtain ⟨l, tc, cs⟩ := f
  obtain ⟨l', tc', cs'⟩ := g
  simp [same, untagged, sameAll_iff cs cs']

/-- Lists of trees agree exactly when they are equal without their tags. -/
theorem sameAll_iff (cs cs' : List Formula) :
    sameAll cs cs' = true ↔ untaggedAll cs = untaggedAll cs' := by
  cases cs with
  | nil => cases cs' <;> simp [sameAll, untaggedAll]
  | cons c cs =>
    cases cs' with
    | nil => simp [sameAll, untaggedAll]
    | cons c' cs' => simp [sameAll, untaggedAll, same_iff c c', sameAll_iff cs cs']

end

@[simp] theorem same_refl (f : Formula) : f.same f = true := (same_iff f f).2 rfl

/-- Sameness goes both ways. -/
theorem same_comm (f g : Formula) : f.same g = g.same f := by
  rw [Bool.eq_iff_iff, same_iff, same_iff, eq_comm]

/-- Sameness goes on. -/
theorem same_trans {f g h : Formula} (hfg : f.same g = true) (hgh : g.same h = true) :
    f.same h = true :=
  (same_iff f h).2 (((same_iff f g).1 hfg).trans ((same_iff g h).1 hgh))

@[simp] theorem same_retag (f : Formula) (tc : Typecode) : f.same (f.retag tc) = true := by
  cases f
  simp [same_iff, retag, untagged]

@[simp] theorem label_retag (f : Formula) (tc : Typecode) : (f.retag tc).label = f.label := by
  cases f
  rfl

@[simp] theorem children_retag (f : Formula) (tc : Typecode) :
    (f.retag tc).children = f.children := by
  cases f
  rfl

@[simp] theorem retag_typecode (f : Formula) : f.retag f.typecode = f := by
  cases f
  rfl

/-- A formula is one of its sub-formulas. -/
theorem mem_subformulas_self (f : Formula) : f ∈ f.subformulas := by
  obtain ⟨l, tc, cs⟩ := f
  rw [subformulas]
  exact List.mem_append_right _ List.mem_cons_self

/-- A sub-formula is the whole or lies below the root. -/
theorem mem_subformulas_iff {f g : Formula} :
    g ∈ f.subformulas ↔ g = f ∨ g ∈ subformulasAll f.children := by
  obtain ⟨l, tc, cs⟩ := f
  rw [subformulas, List.mem_append, List.mem_singleton, or_comm]
  rfl

mutual

/-- A sub-formula is no larger than the whole. -/
theorem size_le_of_mem_subformulas {f g : Formula} (h : g ∈ f.subformulas) : g.size ≤ f.size := by
  obtain ⟨l, tc, cs⟩ := f
  rw [subformulas] at h
  rcases List.mem_append.1 h with h | h
  · have := size_le_of_mem_subformulasAll h
    simp only [size]
    omega
  · obtain rfl := List.mem_singleton.1 h
    exact Nat.le_refl _

/-- A sub-formula of several trees is no larger than the trees together. -/
theorem size_le_of_mem_subformulasAll {cs : List Formula} {g : Formula}
    (h : g ∈ subformulasAll cs) : g.size ≤ sizeAll cs := by
  match cs with
  | [] => simp [subformulasAll] at h
  | c :: cs =>
    rw [subformulasAll] at h
    simp only [sizeAll]
    rcases List.mem_append.1 h with h | h
    · have := size_le_of_mem_subformulas h
      omega
    · have := size_le_of_mem_subformulasAll h
      omega

end

/-- What lies below the root is smaller than the whole. -/
theorem size_lt_of_mem_subformulasAll {f g : Formula} (h : g ∈ subformulasAll f.children) :
    g.size < f.size := by
  obtain ⟨l, tc, cs⟩ := f
  have := size_le_of_mem_subformulasAll h
  simp only [children] at this
  simp only [size]
  omega

mutual

/-- A sub-formula of a sub-formula is a sub-formula. -/
theorem mem_subformulas_trans {f g h : Formula} (hg : g ∈ f.subformulas)
    (hh : h ∈ g.subformulas) : h ∈ f.subformulas := by
  obtain ⟨l, tc, cs⟩ := f
  rw [subformulas] at hg ⊢
  rcases List.mem_append.1 hg with hg | hg
  · exact List.mem_append_left _ (mem_subformulasAll_trans hg hh)
  · rwa [List.mem_singleton.1 hg, subformulas] at hh

/-- A sub-formula of a sub-formula of several trees is one of theirs. -/
theorem mem_subformulasAll_trans {cs : List Formula} {g h : Formula}
    (hg : g ∈ subformulasAll cs) (hh : h ∈ g.subformulas) : h ∈ subformulasAll cs := by
  match cs with
  | [] => simp [subformulasAll] at hg
  | c :: cs =>
    rw [subformulasAll] at hg ⊢
    rcases List.mem_append.1 hg with hg | hg
    · exact List.mem_append_left _ (mem_subformulas_trans hg hh)
    · exact List.mem_append_right _ (mem_subformulasAll_trans hg hh)

end

/-- An index that counts from the end and lies before the first part. -/
structure BeforeStart where
  /-- The index. -/
  index : Int
deriving DecidableEq, Repr

/-- The part at an index; negative indices count from the end, and there is no
part behind the last one. -/
def childAt (cs : List Formula) (index : Int) : Except BeforeStart (Option Formula) :=
  let place := if index < 0 then index + cs.length else index
  if place < 0 then .error ⟨index⟩ else .ok cs[place.toNat]?

/-- The label found by following indices from the root, unless the way ends
before or the label is empty. -/
def labelAt (f : Formula) : List Int → Except BeforeStart (Option Label)
  | [] => .ok (if f.label = "" then none else some f.label)
  | index :: path =>
    match childAt f.children index with
    | .ok (some c) => c.labelAt path
    | .ok none => .ok none
    | .error e => .error e

end Formula

end Typeset
