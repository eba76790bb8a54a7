/-!
# Characters, words and lines

Two sets of blanks occur. Databases, templates and highlighted sources take
the white space of Unicode; the layout of a definition file takes only the
four blanks of a keyboard. Digits are those of every script that counts by
tens: such a script has its ten digits side by side, from zero to nine, so a
digit is known by the zeros. Digits in other roles, such as superscripts, are
not among them.

A word is a maximal run of characters that are not blank, and cutting a text
into words keeps, beside each word, the text that stood before it, so that
nothing of the source is lost.

A line of a text ends with a line feed and nothing else, so the line of a
position is one more than the line feeds before it. A file holds the UTF-8
encoding of a text. Reading it back refuses bytes that encode nothing and
writes every line end as one line feed; a byte order mark is a character like
any other.
-/

namespace Typeset.Text

section Characters

/-- White space of Unicode: the ASCII controls that separate text, the spaces
of every width, and the line and paragraph separators. The zero-width space
and the byte order mark are not blank. -/
def isBlank (c : Char) : Bool :=
  let n := c.toNat
  (9 ≤ n && n ≤ 13) || (0x1C ≤ n && n ≤ 0x20) || n == 0x85 || n == 0xA0 || n == 0x1680 ||
    (0x2000 ≤ n && n ≤ 0x200A) || n == 0x2028 || n == 0x2029 || n == 0x202F || n == 0x205F ||
    n == 0x3000

/-- The blanks of definition files: space, tab, carriage return, line feed. -/
def isLayoutBlank (c : Char) : Bool :=
  c == ' ' || c == '\t' || c == '\r' || c == '\n'

/-- A layout blank is blank. -/
theorem isBlank_of_isLayoutBlank {c : Char} (h : isLayoutBlank c = true) : isBlank c = true := by
  simp only [isLayoutBlank, Bool.or_eq_true, beq_iff_eq] at h
  rcases h with ((rfl | rfl) | rfl) | rfl <;> decide

/-- Every blank of ASCII is blank. -/
theorem isBlank_of_isWhitespace {c : Char} (h : c.isWhitespace = true) : isBlank c = true := by
  simp only [Char.isWhitespace, Bool.or_eq_true, decide_eq_true_eq] at h
  rcases h with ((rfl | rfl) | rfl) | rfl <;> decide

/-- The code points of the zeros of Unicode 14. -/
def zeros : List Nat :=
  [0x30, 0x660, 0x6F0, 0x7C0, 0x966, 0x9E6, 0xA66, 0xAE6, 0xB66, 0xBE6, 0xC66, 0xCE6, 0xD66,
    0xDE6, 0xE50, 0xED0, 0xF20, 0x1040, 0x1090, 0x17E0, 0x1810, 0x1946, 0x19D0, 0x1A80, 0x1A90,
    0x1B50, 0x1BB0, 0x1C40, 0x1C50, 0xA620, 0xA8D0, 0xA900, 0xA9D0, 0xA9F0, 0xAA50, 0xABF0,
    0xFF10, 0x104A0, 0x10D30, 0x11066, 0x110F0, 0x11136, 0x111D0, 0x112F0, 0x11450, 0x114D0,
    0x11650, 0x116C0, 0x11730, 0x118E0, 0x11950, 0x11C50, 0x11D50, 0x11DA0, 0x16A60, 0x16AC0,
    0x16B50, 0x1D7CE, 0x1D7D8, 0x1D7E2, 0x1D7EC, 0x1D7F6, 0x1E140, 0x1E2F0, 0x1E950, 0x1FBF0]

/-- Whether a character is a decimal digit of some script. -/
def isDecimalDigit (c : Char) : Bool := zeros.any fun z => z ≤ c.toNat && c.toNat < z + 10

/-- The digits of ASCII are decimal digits. -/
theorem isDecimalDigit_of_isDigit {c : Char} (h : c.isDigit = true) : isDecimalDigit c = true := by
  simp only [Char.isDigit, Bool.and_eq_true, decide_eq_true_eq] at h
  have h₁ : 48 ≤ c.toNat := h.1
  have h₂ : c.toNat ≤ 57 := h.2
  refine List.any_eq_true.2 ⟨0x30, by decide, ?_⟩
  simp only [Bool.and_eq_true, decide_eq_true_eq]
  omega

end Characters

section Words

/-- Blanks removed at the front. -/
def trimStart (s : List Char) : List Char := s.dropWhile isBlank

/-- Blanks removed at both ends. -/
def trim (s : List Char) : List Char := (trimStart (trimStart s).reverse).reverse

/-- A word of a source with the text between it and the word before. -/
structure Word where
  /-- The blanks that stand before the word. -/
  gap : List Char
  /-- The word itself, free of blanks. -/
  text : List Char
deriving DecidableEq, Repr

/-- Cuts a source into its words, left to right. The blanks after the last
word belong to no word. -/
def words (s : List Char) : List Word :=
  match _h : s.dropWhile isBlank with
  | [] => []
  | c :: rest =>
    ⟨s.takeWhile isBlank, c :: rest.takeWhile (!isBlank ·)⟩ :: words (rest.dropWhile (!isBlank ·))
termination_by s.length
decreasing_by
  have hs : (s.dropWhile isBlank).length ≤ s.length := (List.dropWhile_suffix _).length_le
  have hr : (rest.dropWhile (!isBlank ·)).length ≤ rest.length :=
    (List.dropWhile_suffix _).length_le
  rw [_h, List.length_cons] at hs
  omega

/-- A word is not empty and holds no blank; what stands before it is blank. -/
theorem of_mem_words {s : List Char} {w : Word} (h : w ∈ words s) :
    w.text ≠ [] ∧ (∀ c ∈ w.text, isBlank c = false) ∧ ∀ c ∈ w.gap, isBlank c = true := by
  fun_induction words s with
  | case1 => simp at h
  | case2 s c rest hs ih =>
    rcases List.mem_cons.1 h with rfl | h
    · have hc : isBlank c = false := by
        have := List.head?_dropWhile_not isBlank s
        simpa [hs] using this
      refine ⟨by simp, fun d hd => ?_, fun d hd => List.all_eq_true.1 List.all_takeWhile d hd⟩
      rcases List.mem_cons.1 hd with rfl | hd
      · exact hc
      · simpa using List.all_eq_true.1 List.all_takeWhile d hd
    · exact ih h

/-- Cutting into words loses nothing but the blanks at the end. -/
theorem eq_flatMap_words (s : List Char) :
    ∃ after : List Char, (∀ c ∈ after, isBlank c = true) ∧
      s = (words s).flatMap (fun w => w.gap ++ w.text) ++ after := by
  fun_induction words s with
  | case1 s hs =>
    have hall := List.takeWhile_append_dropWhile (p := isBlank) (l := s)
    rw [hs, List.append_nil] at hall
    exact ⟨s, hall ▸ List.all_eq_true.1 List.all_takeWhile, by simp⟩
  | case2 s c rest hs ih =>
    obtain ⟨after, hblank, heq⟩ := ih
    refine ⟨after, hblank, ?_⟩
    have hrest := List.takeWhile_append_dropWhile (p := (!isBlank ·)) (l := rest)
    have hall := List.takeWhile_append_dropWhile (p := isBlank) (l := s)
    simp only [List.flatMap_cons, List.append_assoc, List.cons_append]
    rw [← heq, hrest, ← hs, hall]

end Words

section Lines

/-- How many line feeds a text holds. -/
def lineFeeds (s : List Char) : Nat := s.count '\n'

/-- Line feeds add up along a text. -/
@[simp] theorem lineFeeds_append (s t : List Char) :
    lineFeeds (s ++ t) = lineFeeds s + lineFeeds t := by
  simp [lineFeeds]

/-- Writes every line end as one line feed: a carriage return with the line
feed after it, and a carriage return alone. -/
def unifyLineEnds : List Char → List Char
  | [] => []
  | '\r' :: '\n' :: rest => '\n' :: unifyLineEnds rest
  | '\r' :: rest => '\n' :: unifyLineEnds rest
  | c :: rest => c :: unifyLineEnds rest

/-- No carriage return is left. -/
theorem not_mem_unifyLineEnds (s : List Char) : '\r' ∉ unifyLineEnds s := by
  fun_induction unifyLineEnds s <;> simp_all [eq_comm]

/-- The text that bytes encode, with one kind of line end. -/
def decode? (bytes : ByteArray) : Option (List Char) :=
  (String.fromUTF8? bytes).map fun s => unifyLineEnds s.toList

/-- The bytes that encode a text. -/
def encode (s : String) : ByteArray := s.toUTF8

/-- A text reads back from its bytes, with one kind of line end. -/
theorem decode?_encode (s : String) : decode? (encode s) = some (unifyLineEnds s.toList) := by
  simpa [decode?, encode, String.fromUTF8?, String.fromUTF8] using s.isValidUTF8

end Lines

end Typeset.Text
