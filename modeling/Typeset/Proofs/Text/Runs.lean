import Mathlib.Data.List.Infix
import Typeset.Text.Search

/-!
# Where a run and a cut end

A reader that takes as many characters of a class as there are stops where the
first other character stands. A reader that searches for a mark of two
different characters stops at the first place of the mark, so the text before
it is free of the mark, even together with the first character of the mark.
-/

namespace Typeset.Text

/-- A text does not begin with a character of a class. -/
def StopsAt (p : Char → Bool) (s : List Char) : Prop := ∀ c ∈ s.head?, p c = false

@[simp] theorem stopsAt_nil (p : Char → Bool) : StopsAt p [] := by
  simp [StopsAt]

@[simp] theorem stopsAt_cons {p : Char → Bool} {c : Char} {s : List Char} :
    StopsAt p (c :: s) ↔ p c = false := by
  simp [StopsAt]

/-- What remains of a text after a run of a class stops the run. -/
theorem stopsAt_dropWhile (p : Char → Bool) (s : List Char) : StopsAt p (s.dropWhile p) := by
  intro c hc
  have := List.head?_dropWhile_not p s
  rw [Option.mem_def.mp hc] at this
  simpa using this

variable {p : Char → Bool} {front rest : List Char}

/-- A run of a class ends where another character stands. -/
theorem takeWhile_append (hfront : ∀ c ∈ front, p c = true) (hrest : StopsAt p rest) :
    (front ++ rest).takeWhile p = front := by
  rw [List.takeWhile_append_of_pos hfront]
  cases rest with
  | nil => simp
  | cons c rest => simp [stopsAt_cons.mp hrest]

/-- After a run of a class stands what stops it. -/
theorem dropWhile_append (hfront : ∀ c ∈ front, p c = true) (hrest : StopsAt p rest) :
    (front ++ rest).dropWhile p = rest := by
  rw [List.dropWhile_append_of_pos hfront]
  cases rest with
  | nil => rfl
  | cons c rest => simp [stopsAt_cons.mp hrest]

/-- A mark of two characters is nowhere in a text exactly if the text does not begin with
it and it is nowhere behind the first character. -/
theorem not_isInfix_cons {a b c : Char} {s : List Char} :
    ¬[a, b] <:+: c :: s ↔ ¬(a = c ∧ b ∈ s.head?) ∧ ¬[a, b] <:+: s := by
  rw [List.infix_cons_iff, not_or, List.cons_prefix_cons]
  cases s with
  | nil => simp
  | cons d s => simp [List.cons_prefix_cons, eq_comm]

/-- A text without the first character of a mark of two characters brings no mark to the
text behind it. -/
theorem not_isInfix_append_of_notMem {a b : Char} {s t : List Char} (hs : a ∉ s)
    (ht : ¬[a, b] <:+: t) : ¬[a, b] <:+: s ++ t := by
  induction s with
  | nil => exact ht
  | cons c s ih =>
    rw [List.mem_cons, not_or] at hs
    exact not_isInfix_cons.mpr ⟨fun h => hs.1 h.1, ih hs.2⟩

/-- Two texts without a mark of two characters have none side by side, unless the second
begins with the second character of the mark. -/
theorem not_isInfix_append {a b : Char} {s t : List Char} (hs : ¬[a, b] <:+: s)
    (ht : ¬[a, b] <:+: t) (hstop : StopsAt (· == b) t) : ¬[a, b] <:+: s ++ t := by
  induction s with
  | nil => exact ht
  | cons c s ih =>
    obtain ⟨hhead, htail⟩ := not_isInfix_cons.mp hs
    refine not_isInfix_cons.mpr ⟨?_, ih htail⟩
    rintro ⟨hc, hb⟩
    cases s with
    | nil => simpa using hstop b hb
    | cons d s => exact hhead ⟨hc, hb⟩

/-- A mark of two different characters that stands behind a text without it is
first found there. -/
theorem cutAt?_append {a b : Char} (hab : a ≠ b) {before : List Char} (after : List Char)
    (hfree : ¬[a, b] <:+: before) :
    cutAt? [a, b] (before ++ a :: b :: after) = some (before, after) := by
  induction before with
  | nil => simp [cutAt?, stripStart?]
  | cons c before ih =>
    have hno : stripStart? [a, b] (c :: (before ++ a :: b :: after)) = none := by
      rw [Option.eq_none_iff_forall_ne_some]
      intro rest hstrip
      rw [stripStart?_eq_some_iff] at hstrip
      obtain ⟨rfl, htail⟩ := List.cons.inj hstrip
      cases before with
      | nil => exact hab (List.cons.inj htail).1
      | cons d before =>
        obtain ⟨rfl, -⟩ := List.cons.inj htail
        exact hfree ⟨[], before, rfl⟩
    have htail : ¬[a, b] <:+: before := fun h => hfree (h.trans (List.suffix_cons c before).isInfix)
    rw [List.cons_append, cutAt?, hno, ih htail]
    rfl

/-- The text before the first place of a mark is free of it. -/
theorem not_isInfix_of_cutAt? {a b : Char} {s before after : List Char}
    (h : cutAt? [a, b] s = some (before, after)) : ¬[a, b] <:+: before := by
  induction s generalizing before with
  | nil => simp [cutAt?] at h
  | cons c s ih =>
    rw [cutAt?] at h
    split at h
    · cases h
      simp
    · rename_i hno
      obtain ⟨⟨before', after'⟩, hcut, heq⟩ := Option.map_eq_some_iff.mp h
      cases heq
      rw [List.infix_cons_iff]
      rintro (hhead | htail)
      · obtain ⟨more, hmore⟩ := hhead
        have hs : c :: s = [a, b] ++ (more ++ [a, b] ++ after) := by
          rw [eq_of_cutAt? hcut]
          simpa using congrArg (· ++ a :: b :: after) hmore.symm
        rw [stripStart?_eq_some_iff.mpr hs] at hno
        cases hno
      · exact ih hcut htail

/-- A cut at a mark of two different characters is a cut at its first place. -/
theorem cutAt?_eq_some_iff {a b : Char} (hab : a ≠ b) {s before after : List Char} :
    cutAt? [a, b] s = some (before, after) ↔
      s = before ++ a :: b :: after ∧ ¬[a, b] <:+: before := by
  constructor
  · intro h
    exact ⟨by simpa using eq_of_cutAt? h, not_isInfix_of_cutAt? h⟩
  · rintro ⟨rfl, hfree⟩
    exact cutAt?_append hab after hfree

end Typeset.Text
