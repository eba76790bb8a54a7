import Mathlib.Data.List.Nodup
import Typeset.Proofs.Text.Runs
import Typeset.Text.Placeholder

/-!
# Filling is one scan for the longest placeholders

A template is filled by trying placeholders in a fixed order. What comes of it
can be said without that order: from left to right, at every place the longest
placeholder that stands there gives way to its text, and a character where none
stands is copied. If no placeholder is given twice this leaves no choice, so
the order in which the fillings are given makes no difference. Where all
placeholders are names between marks, a template of such names and of literals
without the mark comes out as it reads.
-/

namespace Typeset.Text

/-- A placeholder stands at the head of a text; the empty one stands nowhere. -/
def Stands (placeholder s : List Char) : Prop := placeholder ≠ [] ∧ placeholder <+: s

/-- A filling whose placeholder is the longest that stands at the head of a
text. -/
structure LongestAt (fillings : List Filling) (p : Filling) (s : List Char) : Prop where
  /-- It is one of the fillings. -/
  mem : p ∈ fillings
  /-- Its placeholder stands there. -/
  stands : Stands p.1 s
  /-- No longer placeholder does. -/
  longest : ∀ q ∈ fillings, Stands q.1 s → q.1.length ≤ p.1.length

/-- A template and what it is filled to, by a scan from left to right. -/
inductive Filled (fillings : List Filling) : List Char → List Char → Prop where
  /-- The end of the template. -/
  | done : Filled fillings [] []
  /-- The longest placeholder at the place gives way to its text. -/
  | put {p : Filling} {rest filled : List Char} (hp : LongestAt fillings p (p.1 ++ rest))
    (h : Filled fillings rest filled) : Filled fillings (p.1 ++ rest) (p.2 ++ filled)
  /-- A character where no placeholder stands is copied. -/
  | copy {c : Char} {rest filled : List Char} (hnone : ∀ q ∈ fillings, ¬Stands q.1 (c :: rest))
    (h : Filled fillings rest filled) : Filled fillings (c :: rest) (c :: filled)

variable {fillings fillings' tried : List Filling} {p q : Filling} {s rest out out' : List Char}

section Trying

/-- Whether a filling is taken where it is tried. -/
theorem standing_iff : (!p.1.isEmpty && p.1.isPrefixOf s) = true ↔ Stands p.1 s := by
  simp [Stands]

/-- No filling is taken where none of the placeholders stands. -/
theorem firstAt?_eq_none_iff : firstAt? tried s = none ↔ ∀ q ∈ tried, ¬Stands q.1 s := by
  simp only [firstAt?, List.find?_eq_none, standing_iff]

/-- The filling that is taken has the longest placeholder: those before it do
not stand there, and those behind it are no longer. -/
theorem longestAt_of_firstAt? (h : firstAt? (longestFirst fillings) s = some p) :
    LongestAt fillings p s := by
  obtain ⟨hp, before, behind, htried, hbefore⟩ := List.find?_eq_some_iff_append.mp h
  refine ⟨?_, standing_iff.mp hp, ?_⟩
  · rw [← mem_longestFirst, htried]
    exact List.mem_append_right _ List.mem_cons_self
  · intro q hq hstands
    have hsorted := pairwise_longestFirst fillings
    rw [← mem_longestFirst, htried] at hq
    rw [htried] at hsorted
    rcases List.mem_append.mp hq with hq | hq
    · have hnot := hbefore q hq
      rw [standing_iff.mpr hstands] at hnot
      cases hnot
    · rcases List.mem_cons.mp hq with rfl | hq
      · exact Nat.le_refl _
      · exact (List.pairwise_cons.mp (List.pairwise_append.mp hsorted).2.1).1 q hq

/-- The characters of a placeholder that was filled are passed over. -/
theorem fillFrom_append (tried : List Filling) (front rest : List Char) :
    fillFrom tried front.length (front ++ rest) = fillFrom tried 0 rest := by
  induction front with
  | nil => rfl
  | cons c front ih => exact ih

/-- The filling that is taken puts its text in the place of its placeholder. -/
theorem fill_append_of_firstAt?
    (h : firstAt? (longestFirst fillings) (p.1 ++ rest) = some p) :
    fill fillings (p.1 ++ rest) = p.2 ++ fill fillings rest := by
  have hne := (longestAt_of_firstAt? h).stands.1
  obtain ⟨placeholder, text⟩ := p
  obtain ⟨c, placeholder, rfl⟩ := List.exists_cons_of_ne_nil hne
  rw [fill, List.cons_append, fillFrom]
  rw [List.cons_append] at h
  rw [h]
  exact congrArg (text ++ ·) (fillFrom_append _ placeholder rest)

/-- A character where no placeholder stands is copied. -/
theorem fill_cons_of_not_stands {c : Char} (h : ∀ q ∈ fillings, ¬Stands q.1 (c :: rest)) :
    fill fillings (c :: rest) = c :: fill fillings rest := by
  have hnone : firstAt? (longestFirst fillings) (c :: rest) = none := by
    rw [firstAt?_eq_none_iff]
    intro q hq
    exact h q (mem_longestFirst.mp hq)
  rw [fill, fillFrom, hnone]
  rfl

end Trying

/-- A template is filled by the scan. -/
theorem filled_fill (fillings : List Filling) (template : List Char) :
    Filled fillings template (fill fillings template) := by
  -- On the length, since the scan goes on behind a whole placeholder.
  induction hn : template.length using Nat.strongRecOn generalizing template with
  | ind n ih =>
    cases template with
    | nil => exact .done
    | cons c rest =>
      cases hfirst : firstAt? (longestFirst fillings) (c :: rest) with
      | none =>
        have hnone : ∀ q ∈ fillings, ¬Stands q.1 (c :: rest) := by
          intro q hq
          exact firstAt?_eq_none_iff.mp hfirst q (mem_longestFirst.mpr hq)
        rw [fill_cons_of_not_stands hnone]
        exact .copy hnone (ih _ (by simp [← hn]) _ rfl)
      | some p =>
        have hp := longestAt_of_firstAt? hfirst
        obtain ⟨behind, hbehind⟩ := hp.stands.2
        rw [← hbehind] at hfirst hp hn ⊢
        rw [fill_append_of_firstAt? hfirst]
        have hlength := List.length_pos_iff.mpr hp.stands.1
        rw [List.length_append] at hn
        exact .put hp (ih _ (by omega) _ rfl)

/-- Two placeholders at one place that are both the longest are the same. -/
theorem LongestAt.eq (hdistinct : (fillings.map Prod.fst).Nodup) (hp : LongestAt fillings p s)
    (hq : LongestAt fillings q s) : p = q := by
  have hlength : p.1.length = q.1.length :=
    Nat.le_antisymm (hq.longest p hp.mem hp.stands) (hp.longest q hq.mem hq.stands)
  have hplaceholder : p.1 = q.1 :=
    (List.prefix_of_prefix_length_le hp.stands.2 hq.stands.2
      (Nat.le_of_eq hlength)).eq_of_length hlength
  exact List.inj_on_of_nodup_map hdistinct hp.mem hq.mem hplaceholder

/-- If no placeholder is given twice the scan leaves no choice. -/
theorem Filled.unique (hdistinct : (fillings.map Prod.fst).Nodup) (h : Filled fillings s out)
    (h' : Filled fillings s out') : out = out' := by
  induction h generalizing out' with
  | done =>
    generalize hs : ([] : List Char) = s at h'
    cases h' with
    | done => rfl
    | put hp _ => exact absurd (List.append_eq_nil_iff.mp hs.symm).1 hp.stands.1
    | copy _ _ => cases hs
  | @put p rest filled hp _ ih =>
    generalize hs : p.1 ++ rest = s at h' hp
    cases h' with
    | done => exact absurd (List.append_eq_nil_iff.mp hs).1 hp.stands.1
    | @put q rest' _ hq hrest =>
      obtain rfl := hp.eq hdistinct hq
      obtain rfl := List.append_cancel_left hs
      rw [ih hrest]
    | copy hnone _ => exact absurd hp.stands (hnone p hp.mem)
  | @copy c rest filled hnone _ ih =>
    generalize hs : c :: rest = s at h' hnone
    cases h' with
    | done => cases hs
    | put hq _ => exact absurd hq.stands (hnone _ hq.mem)
    | copy _ hrest =>
      obtain ⟨rfl, rfl⟩ := List.cons.inj hs
      rw [ih hrest]

/-- Filling is the scan, and nothing else is. -/
theorem filled_iff (hdistinct : (fillings.map Prod.fst).Nodup) :
    Filled fillings s out ↔ out = fill fillings s := by
  constructor
  · intro h
    exact h.unique hdistinct (filled_fill fillings s)
  · rintro rfl
    exact filled_fill fillings s

/-- The scan knows the fillings, but not their order. -/
theorem Filled.of_mem_iff (hmem : ∀ p, p ∈ fillings ↔ p ∈ fillings')
    (h : Filled fillings s out) : Filled fillings' s out := by
  induction h with
  | done => exact .done
  | put hp _ ih =>
    refine .put ⟨(hmem _).mp hp.mem, hp.stands, ?_⟩ ih
    intro q hq
    exact hp.longest q ((hmem q).mpr hq)
  | copy hnone _ ih =>
    refine .copy ?_ ih
    intro q hq
    exact hnone q ((hmem q).mpr hq)

/-- The order in which fillings are given makes no difference. -/
theorem fill_eq_of_perm (hdistinct : (fillings.map Prod.fst).Nodup)
    (hperm : fillings'.Perm fillings) (s : List Char) : fill fillings' s = fill fillings s :=
  (filled_iff hdistinct).mp ((filled_fill fillings' s).of_mem_iff fun _ => hperm.mem_iff)

section Marked

variable {mark : Char}

/-- A name between two marks. -/
def marked (mark : Char) (name : List Char) : List Char := mark :: (name ++ [mark])

/-- Names without the mark that stand between marks at one place are the same. -/
theorem eq_of_isPrefix_marked {name name' rest : List Char} (hname : mark ∉ name)
    (hname' : mark ∉ name') (h : marked mark name' <+: marked mark name ++ rest) :
    name' = name := by
  obtain ⟨rest', h⟩ := h
  simp only [marked, List.cons_append, List.append_assoc, List.nil_append, List.cons.injEq,
    true_and] at h
  have hall : ∀ n : List Char, mark ∉ n → ∀ c ∈ n, (c != mark) = true := by
    intro n hn c hc
    have hne : c ≠ mark := fun heq => hn (heq ▸ hc)
    simpa using hne
  have hstops : ∀ r : List Char, StopsAt (· != mark) (mark :: r) := by simp
  rw [← takeWhile_append (hall name' hname') (hstops rest'), h,
    takeWhile_append (hall name hname) (hstops rest)]

/-- A text without the mark is copied, if all placeholders are marked. -/
theorem fill_append_of_not_mem (hmarked : ∀ q ∈ fillings, ∃ name, q.1 = marked mark name)
    {front : List Char} (hfront : mark ∉ front) (rest : List Char) :
    fill fillings (front ++ rest) = front ++ fill fillings rest := by
  induction front with
  | nil => rfl
  | cons c front ih =>
    rw [List.mem_cons, not_or] at hfront
    have hnone : ∀ q ∈ fillings, ¬Stands q.1 (c :: (front ++ rest)) := by
      rintro q hq ⟨-, hstands⟩
      obtain ⟨name, hname⟩ := hmarked q hq
      rw [hname, marked, List.cons_prefix_cons] at hstands
      exact hfront.1 hstands.1
    rw [List.cons_append, fill_cons_of_not_stands hnone, ih hfront.2, List.cons_append]

/-- A marked name without the mark gives way to its text, if the placeholders of
names with the mark do not stand there. -/
theorem fill_marked_append (hdistinct : (fillings.map Prod.fst).Nodup) {name text : List Char}
    (hname : mark ∉ name) (hmem : (marked mark name, text) ∈ fillings) {rest : List Char}
    (hmarked : ∀ q ∈ fillings, ∃ name', q.1 = marked mark name' ∧
      (mark ∈ name' → ¬q.1 <+: marked mark name ++ rest)) :
    fill fillings (marked mark name ++ rest) = text ++ fill fillings rest := by
  have hlongest : LongestAt fillings (marked mark name, text) (marked mark name ++ rest) := by
    refine ⟨hmem, ⟨List.cons_ne_nil _ _, List.prefix_append _ _⟩, ?_⟩
    rintro q hq ⟨-, hstands⟩
    obtain ⟨name', hname', hfree⟩ := hmarked q hq
    have hfree' : mark ∉ name' := fun hmark => hfree hmark hstands
    rw [hname'] at hstands ⊢
    rw [eq_of_isPrefix_marked hname hfree' hstands]
  exact ((filled_iff hdistinct).mp (.put hlongest (filled_fill fillings rest))).symm

/-- Marked names, each with the literal that stands behind it. -/
def slotted (mark : Char) (slots : List (Filling × List Char)) : List Char :=
  slots.flatMap fun slot => marked mark slot.1.1 ++ slot.2

/-- A template of literals and names without the mark comes out as it reads, if the
placeholders of names with the mark are nowhere in it. -/
theorem fill_slotted (hdistinct : (fillings.map Prod.fst).Nodup) {front : List Char}
    (hfront : mark ∉ front) {slots : List (Filling × List Char)}
    (hslots : ∀ slot ∈ slots, mark ∉ slot.1.1 ∧ mark ∉ slot.2 ∧
      (marked mark slot.1.1, slot.1.2) ∈ fillings)
    (hmarked : ∀ q ∈ fillings, ∃ name, q.1 = marked mark name ∧
      (mark ∈ name → ¬q.1 <:+: front ++ slotted mark slots)) :
    fill fillings (front ++ slotted mark slots) =
      front ++ slots.flatMap fun slot => slot.1.2 ++ slot.2 := by
  have hmarked' : ∀ q ∈ fillings, ∃ name, q.1 = marked mark name := by
    intro q hq
    obtain ⟨name, hname, -⟩ := hmarked q hq
    exact ⟨name, hname⟩
  -- Along the slots; what is nowhere in the template is nowhere in the rest of it.
  induction slots generalizing front with
  | nil => rw [slotted, List.flatMap_nil, fill_append_of_not_mem hmarked' hfront]; rfl
  | cons slot slots ih =>
    obtain ⟨⟨hname, hliteral, hmem⟩, hslots⟩ := List.forall_mem_cons.mp hslots
    have hcons : slotted mark (slot :: slots) =
        marked mark slot.1.1 ++ (slot.2 ++ slotted mark slots) := by
      rw [slotted, List.flatMap_cons, List.append_assoc]
      rfl
    rw [hcons] at hmarked ⊢
    have hhere : ∀ q ∈ fillings, ∃ name, q.1 = marked mark name ∧
        (mark ∈ name → ¬q.1 <+: marked mark slot.1.1 ++ (slot.2 ++ slotted mark slots)) := by
      intro q hq
      obtain ⟨name, hq, hnowhere⟩ := hmarked q hq
      exact ⟨name, hq, fun hmark hhead =>
        hnowhere hmark (hhead.isInfix.trans (List.suffix_append front _).isInfix)⟩
    have hbehind : ∀ q ∈ fillings, ∃ name, q.1 = marked mark name ∧
        (mark ∈ name → ¬q.1 <:+: slot.2 ++ slotted mark slots) := by
      intro q hq
      obtain ⟨name, hq, hnowhere⟩ := hmarked q hq
      refine ⟨name, hq, fun hmark hwithin => hnowhere hmark (hwithin.trans ?_)⟩
      exact (List.suffix_append _ _).isInfix.trans (List.suffix_append front _).isInfix
    rw [fill_append_of_not_mem hmarked' hfront, fill_marked_append hdistinct hname hmem hhere,
      ih hliteral hslots hbehind, List.flatMap_cons, List.append_assoc]

end Marked

end Typeset.Text
