import Typeset.Directive.Read
import Typeset.Proofs.Text.Runs

/-!
# Layouts of definition files

A layout writes a definition file down piece by piece: runs of blanks,
comments, schemes with all their gaps, and texts. Nothing here knows of a
reader. Each item has the characters it is written with and the content it
stands for. Two runs of blanks side by side are written like one, so the items
that a reader can tell apart are those of the layout with such runs merged.
-/

namespace Typeset

open Text

/-- A text that is not empty, of characters of one class. -/
structure Stretch (p : Char → Bool) where
  /-- The characters. -/
  chars : List Char
  /-- There is one at least. -/
  ne_nil : chars ≠ []
  /-- All of them are of the class. -/
  all : ∀ c ∈ chars, p c = true

/-- A run of layout blanks. -/
abbrev Blanks := Stretch isLayoutBlank

/-- A math symbol as it is written. -/
abbrev MathWord := Stretch isMathChar

/-- A text in which a mark does not stand. -/
structure Unmarked (mark : List Char) where
  /-- The text. -/
  chars : List Char
  /-- The mark is nowhere in it. -/
  free : ¬mark <:+: chars

namespace Stretch

variable {p : Char → Bool}

/-- A single character. -/
def single (c : Char) (h : p c = true) : Stretch p :=
  ⟨[c], List.cons_ne_nil c [], List.forall_mem_singleton.mpr h⟩

/-- Two stretches side by side are one. -/
def append (g g' : Stretch p) : Stretch p where
  chars := g.chars ++ g'.chars
  ne_nil := List.append_ne_nil_of_left_ne_nil g.ne_nil g'.chars
  all := List.forall_mem_append.mpr ⟨g.all, g'.all⟩

/-- A stretch read backwards is one. -/
def reverse (g : Stretch p) : Stretch p where
  chars := g.chars.reverse
  ne_nil := List.reverse_ne_nil_iff.mpr g.ne_nil
  all := fun c hc => g.all c (List.mem_reverse.mp hc)

/-- A stretch begins with a character of its class. -/
theorem exists_cons (g : Stretch p) : ∃ c cs, g.chars = c :: cs ∧ p c = true := by
  obtain ⟨c, cs, hc⟩ := List.exists_cons_of_ne_nil g.ne_nil
  exact ⟨c, cs, hc, g.all c (by rw [hc]; exact List.mem_cons_self)⟩

/-- A stretch of one class stops a run of another. -/
theorem stopsAt (g : Stretch p) {q : Char → Bool} (hq : ∀ c, p c = true → q c = false)
    (rest : List Char) : StopsAt q (g.chars ++ rest) := by
  obtain ⟨c, cs, hc, hp⟩ := g.exists_cons
  rw [hc, List.cons_append, stopsAt_cons]
  exact hq c hp

end Stretch

/-- A math character is printable ASCII, and no dollar. -/
theorem of_isMathChar {c : Char} (h : isMathChar c = true) :
    0x21 ≤ c.toNat ∧ c.toNat ≤ 0x7E ∧ c ≠ '$' := by
  simp only [isMathChar, Bool.and_eq_true, decide_eq_true_eq, bne_iff_ne] at h
  obtain ⟨⟨hlow, hhigh⟩, hne⟩ := h
  exact ⟨hlow, hhigh, hne⟩

/-- A math character is not blank. -/
theorem isBlank_of_isMathChar {c : Char} (h : isMathChar c = true) : isBlank c = false := by
  obtain ⟨hlow, hhigh, -⟩ := of_isMathChar h
  simp only [isBlank, Bool.or_eq_false_iff, Bool.and_eq_false_iff, decide_eq_false_iff_not,
    beq_eq_false_iff_ne]
  omega

/-- A math character is no layout blank. -/
theorem isLayoutBlank_of_isMathChar {c : Char} (h : isMathChar c = true) :
    isLayoutBlank c = false := by
  by_contra hblank
  have := isBlank_of_isLayoutBlank (by simpa using hblank)
  rw [isBlank_of_isMathChar h] at this
  cases this

/-- A layout blank is no math character. -/
theorem isMathChar_of_isLayoutBlank {c : Char} (h : isLayoutBlank c = true) :
    isMathChar c = false := by
  by_contra hmath
  rw [isLayoutBlank_of_isMathChar (by simpa using hmath)] at h
  cases h

/-- The symbol that a math word writes. -/
def MathWord.symbol (w : MathWord) : Symbol := String.ofList w.chars

/-- An item of a layout. -/
inductive Item where
  /-- A run of blanks. -/
  | gap (g : Blanks)
  /-- A comment, given by what stands between its marks. -/
  | comment (body : Unmarked ['$', ')'])
  /-- A scheme: its first symbol names the typecode, and each further symbol
  has a gap before it. -/
  | scheme (isIdentifier : Bool) (before : Blanks) (first : MathWord)
    (more : List (Blanks × MathWord)) (after : Blanks) (template : Unmarked ['$', '.'])
  /-- A text. -/
  | text (role : TextRole) (body : Unmarked ['$', '.'])

/-- The letter of a scheme's keyword. -/
def schemeLetter (isIdentifier : Bool) : Char := if isIdentifier then 'i' else 's'

/-- The characters of symbols with gaps before them. -/
def mathChars (words : List (Blanks × MathWord)) : List Char :=
  words.flatMap fun w => w.1.chars ++ w.2.chars

namespace Item

/-- The characters that an item is written with. -/
def chars : Item → List Char
  | gap g => g.chars
  | comment body => '$' :: '(' :: (body.chars ++ ['$', ')'])
  | scheme isIdentifier before first more after template =>
    '$' :: schemeLetter isIdentifier :: (before.chars ++ (first.chars ++ (mathChars more ++
      (after.chars ++ '$' :: ':' :: (template.chars ++ ['$', '.'])))))
  | text role body => '$' :: role.letter :: (body.chars ++ ['$', '.'])

/-- What an item says. -/
def content : Item → Content
  | gap _ => .blank
  | comment _ => .blank
  | scheme isIdentifier _ first more _ template =>
    .scheme isIdentifier first.symbol (more.map (·.2.symbol)) (String.ofList template.chars)
  | text role body => .text role (String.ofList body.chars)

/-- What may follow an item that is read as a whole: a run of blanks goes on as
long as there are blanks. -/
def EndsAt : Item → List Char → Prop
  | gap _, rest => StopsAt isLayoutBlank rest
  | _, _ => True

/-- Only a run of blanks begins with a blank; anything else begins with a
dollar. -/
theorem eq_gap_or_dollar (i : Item) :
    (∃ g, i = gap g) ∨ ∃ tail, i.chars = '$' :: tail := by
  cases i with
  | gap g => exact .inl ⟨g, rfl⟩
  | comment body => exact .inr ⟨_, rfl⟩
  | scheme isIdentifier before first more after template => exact .inr ⟨_, rfl⟩
  | text role body => exact .inr ⟨_, rfl⟩

end Item

/-- A definition file, piece by piece. -/
abbrev Layout := List Item

namespace Layout

/-- The text that a layout writes. -/
def chars (items : Layout) : List Char := items.flatMap Item.chars

@[simp] theorem chars_nil : chars [] = [] := rfl

@[simp] theorem chars_cons (i : Item) (items : Layout) :
    chars (i :: items) = i.chars ++ chars items := rfl

/-- Puts an item before a layout; a run of blanks joins one that begins the
layout. -/
def put : Item → Layout → Layout
  | .gap g, .gap g' :: items => .gap (g.append g') :: items
  | i, items => i :: items

/-- The layout with neighbouring runs of blanks merged into one. -/
def merged (items : Layout) : Layout := items.foldr put []

/-- The directives of items that stand behind a text: one for each item, on the
line that is one more than the line feeds before it. -/
def directivesAfter (before : List Char) : Layout → List Directive
  | [] => []
  | i :: items =>
    ⟨i.content, 1 + lineFeeds before⟩ :: directivesAfter (before ++ i.chars) items

/-- The directives of a layout: one for each item, runs of blanks merged. -/
def directives (items : Layout) : List Directive := directivesAfter [] (merged items)

/-- Before what follows them, the items of a layout end where they end: every
run of blanks is as long as it can be. -/
def Settled : Layout → List Char → Prop
  | [], _ => True
  | i :: items, rest => i.EndsAt (chars items ++ rest) ∧ Settled items rest

/-- Putting an item before a layout puts its characters before those of the
layout. -/
theorem chars_put (i : Item) (items : Layout) : chars (put i items) = i.chars ++ chars items := by
  unfold put
  split
  · simp [Item.chars, Stretch.append]
  · rfl

/-- Merging runs of blanks changes nothing in the text. -/
theorem chars_merged (items : Layout) : chars (merged items) = chars items := by
  induction items with
  | nil => rfl
  | cons i items ih =>
    rw [merged, List.foldr_cons, chars_put, chars_cons]
    exact congrArg (i.chars ++ ·) ih

/-- A layout that does not begin with a run of blanks begins with a dollar, if
with anything. -/
theorem stopsAt_chars {p : Char → Bool} (hp : p '$' = false) {items : Layout}
    (h : ∀ g more, items ≠ .gap g :: more) : StopsAt p (chars items) := by
  cases items with
  | nil => exact stopsAt_nil _
  | cons i items =>
    rcases i.eq_gap_or_dollar with ⟨g, rfl⟩ | ⟨tail, htail⟩
    · exact absurd rfl (h g items)
    · rw [chars_cons, htail, List.cons_append, stopsAt_cons]
      exact hp

/-- Where a run of blanks stops no further one begins. -/
theorem ne_gap_of_stopsAt {items : Layout} {rest : List Char}
    (h : StopsAt isLayoutBlank (chars items ++ rest)) (g : Blanks) (more : Layout) :
    items ≠ .gap g :: more := by
  rintro rfl
  obtain ⟨c, cs, hc, hblank⟩ := g.exists_cons
  rw [chars_cons, Item.chars, hc, List.cons_append, List.cons_append, stopsAt_cons, hblank] at h
  cases h

/-- Putting an item before a settled layout leaves it settled. -/
theorem Settled.put {items : Layout} (h : Settled items []) (i : Item) :
    Settled (Layout.put i items) [] := by
  unfold Layout.put
  split
  · exact h
  · rename_i hno
    refine ⟨?_, h⟩
    rw [List.append_nil]
    cases i with
    | gap g => exact stopsAt_chars (by decide) fun g' more heq => hno g g' more rfl heq
    | comment body => trivial
    | scheme isIdentifier before first more after template => trivial
    | text role body => trivial

/-- A merged layout is settled. -/
theorem settled_merged (items : Layout) : Settled (merged items) [] := by
  induction items with
  | nil => trivial
  | cons i items ih => exact ih.put i

/-- Nothing is to be merged in a settled layout. -/
theorem Settled.merged_eq {items : Layout} {rest : List Char} (h : Settled items rest) :
    merged items = items := by
  induction items with
  | nil => rfl
  | cons i items ih =>
    obtain ⟨hends, hitems⟩ := h
    change Layout.put i (merged items) = i :: items
    rw [ih hitems]
    unfold Layout.put
    split
    · rename_i g g' more
      exact absurd rfl (ne_gap_of_stopsAt hends g' more)
    · rfl

end Layout

end Typeset
