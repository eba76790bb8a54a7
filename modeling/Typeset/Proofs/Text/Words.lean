import Mathlib.Data.List.TakeWhile
import Typeset.Proofs.Text.Runs
import Typeset.Text.Basic

/-!
# The words of two texts side by side

Where no word goes on from one text into the next, the words of both together
are those of the first and those of the second. Only the first word of the
second has more before it: the blanks at the end of the first text, which are no
word's there.
-/

namespace Typeset.Text

/-- No word goes on from a text into the one behind it. -/
def Apart (front back : List Char) : Prop :=
  StopsAt (!isBlank ·) front.reverse ∨ StopsAt (!isBlank ·) back

/-- Words with further blanks before the first of them. -/
def widen (gap : List Char) : List Word → List Word
  | [] => []
  | w :: ws => ⟨gap ++ w.gap, w.text⟩ :: ws

/-- A word that ends where a blank stands is the first of the text. -/
theorem words_cons (gap word : List Char) {rest : List Char} (hgap : ∀ c ∈ gap, isBlank c = true)
    (hword : ∀ c ∈ word, isBlank c = false) (hne : word ≠ [])
    (hrest : StopsAt (!isBlank ·) rest) :
    words (gap ++ (word ++ rest)) = ⟨gap, word⟩ :: words rest := by
  obtain ⟨c, run, rfl⟩ := List.exists_cons_of_ne_nil hne
  rw [List.forall_mem_cons] at hword
  have hstop : StopsAt isBlank (c :: run ++ rest) := stopsAt_cons.mpr hword.1
  have hrun : ∀ c ∈ run, (!isBlank c) = true := fun c hc => by rw [hword.2 c hc]; rfl
  rw [words, dropWhile_append hgap hstop, takeWhile_append hgap hstop]
  dsimp only [List.cons_append]
  rw [takeWhile_append hrun hrest, dropWhile_append hrun hrest]

/-- A word of a text stands in the text. -/
theorem isInfix_of_mem_words {s : List Char} {w : Word} (h : w ∈ words s) : w.text <:+: s := by
  obtain ⟨after, _, htext⟩ := eq_flatMap_words s
  obtain ⟨before, behind, hwords⟩ := List.append_of_mem h
  rw [hwords, List.flatMap_append, List.flatMap_cons] at htext
  refine ⟨before.flatMap (fun w => w.gap ++ w.text) ++ w.gap,
    behind.flatMap (fun w => w.gap ++ w.text) ++ after, ?_⟩
  conv => rhs; rw [htext]
  simp only [List.append_assoc]

/-- Blanks before a text stand before its first word. -/
theorem words_of_blank {gap : List Char} (hgap : ∀ c ∈ gap, isBlank c = true) (s : List Char) :
    words (gap ++ s) = widen gap (words s) := by
  have hlead : ∀ c ∈ s.takeWhile isBlank, isBlank c = true :=
    fun c hc => List.all_eq_true.mp List.all_takeWhile c hc
  have hall : ∀ c ∈ gap ++ s.takeWhile isBlank, isBlank c = true :=
    List.forall_mem_append.mpr ⟨hgap, hlead⟩
  have hstop : StopsAt isBlank (s.dropWhile isBlank) := stopsAt_dropWhile isBlank s
  have hsplit : gap ++ s = (gap ++ s.takeWhile isBlank) ++ s.dropWhile isBlank := by
    rw [List.append_assoc, List.takeWhile_append_dropWhile]
  rw [words.eq_def s, words.eq_def (gap ++ s), hsplit, dropWhile_append hall hstop,
    takeWhile_append hall hstop]
  cases s.dropWhile isBlank with
  | nil => rfl
  | cons c rest => rfl

/-- Blanks alone are no words. -/
theorem words_eq_nil {s : List Char} (hs : ∀ c ∈ s, isBlank c = true) : words s = [] := by
  have hnone := words_of_blank hs []
  rw [List.append_nil] at hnone
  rw [hnone, words]
  rfl

/-- What holds of texts without words, and of a text with a word before it if it holds
of the text, holds of every text. -/
theorem words_induction {P : List Char → Prop}
    (blank : ∀ s, (∀ c ∈ s, isBlank c = true) → P s)
    (cons : ∀ gap word rest, (∀ c ∈ gap, isBlank c = true) → (∀ c ∈ word, isBlank c = false) →
      word ≠ [] → StopsAt (!isBlank ·) rest → P rest → P (gap ++ (word ++ rest)))
    (s : List Char) : P s := by
  fun_induction words s with
  | case1 s hdrop =>
    exact blank s (List.dropWhile_eq_nil_iff.mp hdrop)
  | case2 s c rest hdrop ih =>
    have hc : isBlank c = false := by
      have hstop := stopsAt_dropWhile isBlank s
      rwa [hdrop, stopsAt_cons] at hstop
    have hlead : ∀ b ∈ s.takeWhile isBlank, isBlank b = true :=
      fun b hb => List.all_eq_true.mp List.all_takeWhile b hb
    have hrun : ∀ b ∈ rest.takeWhile (!isBlank ·), isBlank b = false := by
      intro b hb
      simpa using List.all_eq_true.mp List.all_takeWhile b hb
    have hsplit : s = s.takeWhile isBlank ++
        (c :: rest.takeWhile (!isBlank ·) ++ rest.dropWhile (!isBlank ·)) := by
      rw [List.cons_append, List.takeWhile_append_dropWhile, ← hdrop,
        List.takeWhile_append_dropWhile]
    rw [hsplit]
    exact cons _ _ _ hlead (List.forall_mem_cons.mpr ⟨hc, hrun⟩) (List.cons_ne_nil _ _)
      (stopsAt_dropWhile _ rest) ih

/-- What follows a text that is not empty does not matter to where a run stops. -/
theorem stopsAt_append_of_ne_nil {p : Char → Bool} {s : List Char} (hs : s ≠ [])
    (rest : List Char) : StopsAt p (s ++ rest) ↔ StopsAt p s := by
  obtain ⟨c, cs, rfl⟩ := List.exists_cons_of_ne_nil hs
  rw [List.cons_append, stopsAt_cons, stopsAt_cons]

/-- Texts that stand apart still do without the front of the first, and a word that
the front ends with ends there. -/
theorem Apart.of_append {front word rest back : List Char}
    (h : Apart (front ++ (word ++ rest)) back) (hword : ∀ c ∈ word, isBlank c = false)
    (hne : word ≠ []) (hrest : StopsAt (!isBlank ·) rest) :
    Apart rest back ∧ StopsAt (!isBlank ·) (rest ++ back) := by
  unfold Apart at h
  rw [List.reverse_append, List.reverse_append, List.append_assoc] at h
  by_cases hnil : rest = []
  · subst hnil
    rw [List.reverse_nil, List.nil_append,
      stopsAt_append_of_ne_nil (List.reverse_ne_nil_iff.mpr hne)] at h
    refine ⟨.inl (stopsAt_nil _), h.resolve_left ?_⟩
    intro hstop
    obtain ⟨c, cs, hc⟩ := List.exists_cons_of_ne_nil (List.reverse_ne_nil_iff.mpr hne)
    have hmem : c ∈ word := List.mem_reverse.mp (by rw [hc]; exact List.mem_cons_self)
    rw [hc, stopsAt_cons, hword c hmem] at hstop
    cases hstop
  · rw [stopsAt_append_of_ne_nil (List.reverse_ne_nil_iff.mpr hnil)] at h
    exact ⟨h, (stopsAt_append_of_ne_nil hnil back).mpr hrest⟩

/-- A text is its words and the blanks behind them, and before any text that it does
not run into it has just these words. -/
theorem exists_words_append (front : List Char) :
    ∃ gap : List Char, (∀ c ∈ gap, isBlank c = true) ∧
      front = (words front).flatMap (fun w => w.gap ++ w.text) ++ gap ∧
      ∀ back, Apart front back → words (front ++ back) = words front ++ widen gap (words back) := by
  induction front using words_induction with
  | blank front hblank =>
    rw [words_eq_nil hblank]
    exact ⟨front, hblank, rfl, fun back _ => words_of_blank hblank back⟩
  | cons gap word rest hgap hword hne hrest ih =>
    obtain ⟨after, hafter, htext, hwords⟩ := ih
    rw [words_cons gap word hgap hword hne hrest]
    refine ⟨after, hafter, ?_, ?_⟩
    · rw [List.flatMap_cons, List.append_assoc, ← htext, List.append_assoc]
    · intro back hapart
      obtain ⟨htail, hstop⟩ := hapart.of_append hword hne hrest
      rw [List.append_assoc, List.append_assoc, words_cons gap word hgap hword hne hstop,
        hwords back htail, List.cons_append]

end Typeset.Text
