import Typeset.Directive.Basic
import Typeset.Journal
import Typeset.Text.Basic

/-!
# Reading a definition file

Each reader below takes a directive off the head of a text and returns what
follows it. At every place a blank is tried first, then a scheme, then a text;
at most one of them fits. A text or template ends at the first `$.` and a
comment at the first `$)`, whatever stands before. Reading a file goes on as
long as some directive fits, and what remains is kept.
-/

namespace Typeset

open Text

/-- A character of math in a definition file: printable ASCII but the dollar. -/
def isMathChar (c : Char) : Bool := '!' ≤ c && c ≤ '~' && c != '$'

/-- Takes a run of layout blanks, of which there is at least one. -/
def layoutGap? (s : List Char) : Option (List Char) :=
  if (s.takeWhile isLayoutBlank).isEmpty then none else some (s.dropWhile isLayoutBlank)

theorem length_lt_of_layoutGap? {s rest : List Char} (h : layoutGap? s = some rest) :
    rest.length < s.length := by
  unfold layoutGap? at h
  split at h
  · simp at h
  · rename_i hne
    obtain rfl := Option.some.inj h
    have := congrArg List.length (List.takeWhile_append_dropWhile (p := isLayoutBlank) (l := s))
    rw [List.length_append] at this
    have : (s.takeWhile isLayoutBlank).length ≠ 0 := by simpa using hne
    omega

/-- Takes a math symbol. -/
def mathSymbol? (s : List Char) : Option (Symbol × List Char) :=
  if (s.takeWhile isMathChar).isEmpty then none
  else some (String.ofList (s.takeWhile isMathChar), s.dropWhile isMathChar)

theorem length_le_of_mathSymbol? {s rest : List Char} {t : Symbol}
    (h : mathSymbol? s = some (t, rest)) : rest.length ≤ s.length := by
  unfold mathSymbol? at h
  split at h
  · simp at h
  · obtain ⟨-, rfl⟩ := Prod.mk.inj (Option.some.inj h)
    exact (List.dropWhile_suffix _).length_le

/-- Takes math symbols with blanks between them: the first one and those that
follow it. The blanks after the last symbol are not taken. -/
def mathSymbols? (s : List Char) : Option (Symbol × List Symbol × List Char) :=
  match _ht : mathSymbol? s with
  | none => none
  | some (t, rest) =>
    match _hg : layoutGap? rest with
    | none => some (t, [], rest)
    | some next =>
      match mathSymbols? next with
      | none => some (t, [], rest)
      | some (u, us, after) => some (t, u :: us, after)
termination_by s.length
decreasing_by
  have := length_le_of_mathSymbol? _ht
  have := length_lt_of_layoutGap? _hg
  omega

/-- Takes a comment or a run of blanks. -/
def blank? (s : List Char) : Option (Content × List Char) :=
  match stripStart? "$(".toList s with
  | some inside => (cutAt? "$)".toList inside).map fun (_, rest) => (.blank, rest)
  | none => (layoutGap? s).map fun rest => (.blank, rest)

/-- Takes the keyword of a scheme, and says whether the scheme is for a
single symbol. -/
def schemeKeyword? : List Char → Option (Bool × List Char)
  | '$' :: 's' :: rest => some (false, rest)
  | '$' :: 'i' :: rest => some (true, rest)
  | _ => none

/-- Takes a scheme: its keyword, blanks, math symbols, blanks, `$:`, and the
template up to the first `$.`. -/
def scheme? (s : List Char) : Option (Content × List Char) := do
  let (isIdentifier, s) ← schemeKeyword? s
  let s ← layoutGap? s
  let (typecode, symbols, s) ← mathSymbols? s
  let s ← layoutGap? s
  let s ← stripStart? "$:".toList s
  let (template, rest) ← cutAt? "$.".toList s
  return (.scheme isIdentifier typecode symbols (String.ofList template), rest)

/-- Takes the keyword of a text directive. -/
def textKeyword? : List Char → Option (TextRole × List Char)
  | '$' :: c :: rest => (TextRole.ofLetter? c).map (·, rest)
  | _ => none

/-- Takes a text directive: its keyword and the text up to the first `$.`. -/
def text? (s : List Char) : Option (Content × List Char) := do
  let (role, s) ← textKeyword? s
  let (text, rest) ← cutAt? "$.".toList s
  return (.text role (String.ofList text), rest)

/-- Takes a directive. -/
def content? (s : List Char) : Option (Content × List Char) :=
  (blank? s).or ((scheme? s).or (text? s))

theorem length_lt_of_stripStart? {pattern s rest : List Char} (hp : pattern ≠ [])
    (h : stripStart? pattern s = some rest) : rest.length < s.length := by
  rw [stripStart?_eq_some_iff] at h
  have : pattern.length ≠ 0 := by simpa using hp
  simp only [h, List.length_append]
  omega

theorem length_le_of_cutAt? {pattern s before rest : List Char}
    (h : cutAt? pattern s = some (before, rest)) : rest.length ≤ s.length := by
  simp only [eq_of_cutAt? h, List.length_append]
  omega

theorem length_lt_of_blank? {s rest : List Char} {c : Content}
    (h : blank? s = some (c, rest)) : rest.length < s.length := by
  unfold blank? at h
  split at h
  · rename_i inside hs
    obtain ⟨⟨before, after⟩, hc, heq⟩ := Option.map_eq_some_iff.1 h
    obtain ⟨-, rfl⟩ := Prod.mk.inj heq
    have := length_lt_of_stripStart? (by decide) hs
    have := length_le_of_cutAt? hc
    omega
  · obtain ⟨after, hg, heq⟩ := Option.map_eq_some_iff.1 h
    obtain ⟨-, rfl⟩ := Prod.mk.inj heq
    exact length_lt_of_layoutGap? hg

theorem length_lt_of_schemeKeyword? {s rest : List Char} {b : Bool}
    (h : schemeKeyword? s = some (b, rest)) : rest.length < s.length := by
  unfold schemeKeyword? at h
  split at h <;> simp at h <;> grind

theorem length_le_of_mathSymbols? {s rest : List Char} {t : Symbol} {ts : List Symbol}
    (h : mathSymbols? s = some (t, ts, rest)) : rest.length ≤ s.length := by
  fun_induction mathSymbols? s generalizing t ts rest with
  | case1 => simp at h
  | case2 s t next ht =>
    obtain ⟨-, -, rfl⟩ := by simpa using h
    exact length_le_of_mathSymbol? ht
  | case3 s t next ht =>
    obtain ⟨-, -, rfl⟩ := by simpa using h
    exact length_le_of_mathSymbol? ht
  | case4 s t next ht gap hg u us after hm ih =>
    obtain ⟨-, -, rfl⟩ := by simpa using h
    have := length_le_of_mathSymbol? ht
    have := length_lt_of_layoutGap? hg
    have := ih hm
    omega

theorem length_lt_of_scheme? {s rest : List Char} {c : Content}
    (h : scheme? s = some (c, rest)) : rest.length < s.length := by
  simp only [scheme?, Option.bind_eq_bind, Option.bind_eq_some_iff, Prod.exists,
    Option.pure_def, Option.some.injEq, Prod.mk.injEq] at h
  obtain ⟨b, s₁, h₁, s₂, h₂, t, ts, s₃, h₃, s₄, h₄, s₅, h₅, template, s₆, h₆, -, rfl⟩ := h
  have := length_lt_of_schemeKeyword? h₁
  have := length_lt_of_layoutGap? h₂
  have := length_le_of_mathSymbols? h₃
  have := length_lt_of_layoutGap? h₄
  have := length_lt_of_stripStart? (by decide) h₅
  have := length_le_of_cutAt? h₆
  omega

theorem length_lt_of_text? {s rest : List Char} {c : Content}
    (h : text? s = some (c, rest)) : rest.length < s.length := by
  simp only [text?, Option.bind_eq_bind, Option.bind_eq_some_iff, Prod.exists,
    Option.pure_def, Option.some.injEq, Prod.mk.injEq] at h
  obtain ⟨role, s₁, h₁, text, s₂, h₂, -, rfl⟩ := h
  have := length_le_of_cutAt? h₂
  unfold textKeyword? at h₁
  split at h₁
  · obtain ⟨r, -, heq⟩ := Option.map_eq_some_iff.1 h₁
    obtain ⟨-, rfl⟩ := Prod.mk.inj heq
    simp only [List.length_cons]
    omega
  · simp at h₁

/-- A directive takes at least one character. -/
theorem length_lt_of_content? {s rest : List Char} {c : Content}
    (h : content? s = some (c, rest)) : rest.length < s.length := by
  simp only [content?, Option.or_eq_some_iff] at h
  rcases h with h | ⟨-, h | ⟨-, h⟩⟩
  · exact length_lt_of_blank? h
  · exact length_lt_of_scheme? h
  · exact length_lt_of_text? h

/-- What was read of a definition file. -/
structure Reading where
  /-- The directives, in order. -/
  directives : List Directive
  /-- The rest, at which no directive fits. -/
  remaining : List Char
  /-- The line that the rest starts on. -/
  line : Nat
deriving DecidableEq, Repr

/-- Whether the whole file was read. -/
def Reading.complete (r : Reading) : Bool := r.remaining.isEmpty

/-- Takes directives off a text that starts on the given line, as long as one
fits. -/
def readFrom (line : Nat) (s : List Char) : Reading :=
  match _h : content? s with
  | none => ⟨[], s, line⟩
  | some (content, rest) =>
    let read := readFrom (line + lineFeeds (s.take (s.length - rest.length))) rest
    { read with directives := ⟨content, line⟩ :: read.directives }
termination_by s.length
decreasing_by exact length_lt_of_content? _h

/-- Reads the directives at the head of a definition file. -/
def readDirectives (s : List Char) : Reading := readFrom 1 s

/-- Reads a whole definition file. Its directives are noted one by one if
`verbose` asks for it. -/
def parseDefinition (verbose : Bool) (s : List Char) :
    Logged LayoutError (List Directive) := do
  let read := readDirectives s
  if verbose then
    read.directives.forM fun d =>
      .detail 3 (d.content.kindName ++ " at line " ++ toString d.line)
  if read.complete then
    .detail 2 ("Parsed " ++ toString read.directives.length ++ " directives")
    return read.directives
  else .fail ⟨.of read.remaining, read.line⟩

end Typeset
