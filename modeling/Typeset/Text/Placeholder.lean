/-!
# Filling placeholders

A template names the texts it is built from by placeholders. Filling it is
one pass from the left: at every place the placeholders are tried in turn,
longer ones before shorter ones, and the first that stands there gives way to
its text; every other character is copied. Text that was put in is never
searched again, so it may hold placeholders itself.
-/

namespace Typeset.Text

/-- A placeholder with the text that goes into its place. -/
abbrev Filling := List Char × List Char

/-- Puts a filling before the first one whose placeholder is no longer. -/
def insertByLength (p : Filling) : List Filling → List Filling
  | [] => [p]
  | q :: more =>
    if q.1.length ≤ p.1.length then p :: q :: more else q :: insertByLength p more

/-- The fillings in the order in which their placeholders are tried: longer
ones first, equally long ones as they come. -/
def longestFirst (fillings : List Filling) : List Filling := fillings.foldr insertByLength []

/-- What was put in is there, and all that was there before. -/
theorem mem_insertByLength {p q : Filling} {tried : List Filling} :
    q ∈ insertByLength p tried ↔ q = p ∨ q ∈ tried := by
  induction tried with
  | nil => simp [insertByLength]
  | cons r more ih => grind [insertByLength]

/-- Every filling is tried. -/
@[simp] theorem mem_longestFirst {q : Filling} {fillings : List Filling} :
    q ∈ longestFirst fillings ↔ q ∈ fillings := by
  induction fillings with
  | nil => simp [longestFirst]
  | cons p fillings ih =>
    rw [longestFirst, List.foldr_cons, mem_insertByLength, List.mem_cons]
    exact or_congr_right ih

/-- A filling that is put in its place leaves longer placeholders before
shorter ones. -/
theorem pairwise_insertByLength (p : Filling) {tried : List Filling}
    (h : tried.Pairwise fun q r => r.1.length ≤ q.1.length) :
    (insertByLength p tried).Pairwise fun q r => r.1.length ≤ q.1.length := by
  induction h with
  | nil => exact List.pairwise_singleton _ _
  | @cons q more hq hmore ih =>
    rw [insertByLength]
    split
    · rename_i hle
      refine List.pairwise_cons.mpr ⟨?_, List.pairwise_cons.mpr ⟨hq, hmore⟩⟩
      intro r hr
      rcases List.mem_cons.mp hr with rfl | hr
      · exact hle
      · exact Nat.le_trans (hq r hr) hle
    · rename_i hlt
      refine List.pairwise_cons.mpr ⟨?_, ih⟩
      intro r hr
      rcases mem_insertByLength.mp hr with rfl | hr
      · omega
      · exact hq r hr

/-- No placeholder is tried before a longer one. -/
theorem pairwise_longestFirst (fillings : List Filling) :
    (longestFirst fillings).Pairwise fun q r => r.1.length ≤ q.1.length := by
  induction fillings with
  | nil => exact .nil
  | cons p fillings ih => exact pairwise_insertByLength p ih

/-- The first filling whose placeholder stands at the head of a text. The empty
placeholder stands nowhere. -/
def firstAt? (tried : List Filling) (s : List Char) : Option Filling :=
  tried.find? fun p => !p.1.isEmpty && p.1.isPrefixOf s

/-- Fills a template with fillings in the order in which they are tried; `skip`
characters of the last placeholder are still to be passed over. -/
def fillFrom (tried : List Filling) : Nat → List Char → List Char
  | _, [] => []
  | skip + 1, _ :: rest => fillFrom tried skip rest
  | 0, c :: rest =>
    match firstAt? tried (c :: rest) with
    | some (placeholder, text) => text ++ fillFrom tried (placeholder.length - 1) rest
    | none => c :: fillFrom tried 0 rest

/-- Fills every placeholder of a template in one pass. -/
def fill (fillings : List Filling) (template : List Char) : List Char :=
  fillFrom (longestFirst fillings) 0 template

/-- Without placeholders a template stays as it is. -/
@[simp] theorem fill_nil (template : List Char) : fill [] template = template := by
  rw [fill, longestFirst, List.foldr_nil]
  induction template with
  | nil => rfl
  | cons c rest ih => rw [fillFrom, firstAt?, List.find?_nil, ih]

end Typeset.Text
