import Typeset.Statement
import Typeset.Text.Basic
import Typeset.Text.Quoted
import Typeset.Text.Search

/-!
# Typesetting comments

A comment whose first word begins with `$t` may define the markup of single
symbols: the word `althtmldef`, a quoted symbol, the word `as`, and quoted
strings, joined by plus signs or by nothing, up to a semicolon. Whatever is
not such a definition is passed over.

Where a string is malformed several closings of it may be possible. The first
one that lets the definition be completed is taken, and the value is then read
once more from its text alone.
-/

namespace Typeset.Database

open Text

/-- The markup of one symbol. -/
structure SymbolDefinition where
  /-- The symbol. -/
  symbol : Symbol
  /-- Its markup. -/
  markup : String
deriving DecidableEq, Repr

/-- Drops a plus sign with the blanks around it. -/
def skipJoint (s : List Char) : List Char :=
  match trimStart s with
  | '+' :: rest => trimStart rest
  | rest => rest

theorem length_trimStart_le (s : List Char) : (trimStart s).length ≤ s.length :=
  (List.dropWhile_suffix _).length_le

theorem length_skipJoint_le (s : List Char) : (skipJoint s).length ≤ s.length := by
  have h := length_trimStart_le s
  unfold skipJoint
  split
  · rename_i rest heq
    have := length_trimStart_le rest
    rw [heq, List.length_cons] at h
    omega
  · exact h

/-- Reads quoted strings up to a semicolon and returns what follows it. The
closings of each string are tried in order. -/
def skipValue? : List Char → Option (List Char)
  | [] => none
  | q :: s =>
    if isQuote q then
      (closings q s).attach.findSome? fun ⟨closing, _h⟩ =>
        match skipJoint closing.rest with
        | ';' :: rest => some rest
        | _ => skipValue? (skipJoint closing.rest)
    else none
termination_by s => s.length
decreasing_by
  have h₁ := length_rest_lt _h
  have h₂ := length_skipJoint_le closing.rest
  simp only [List.length_cons]
  omega

/-- Drops the blanks at the head of a text, of which there is at least one. -/
def skipBlanks? (s : List Char) : Option (List Char) :=
  if (s.takeWhile isBlank).isEmpty then none else some (trimStart s)

/-- Reads the value of a definition; returns its text and what follows the
semicolon. -/
def value? (s : List Char) : Option (List Char × List Char) :=
  (skipValue? s).map fun rest => (s.take (s.length - rest.length - 1), rest)

/-- Reads the part of a definition after its symbol. -/
def valueClause? (s : List Char) : Option (List Char × List Char) := do
  let s ← skipBlanks? s
  let s ← stripStart? "as".toList s
  let s ← skipBlanks? s
  value? s

/-- Reads a definition at the head of a text, and returns what follows it. -/
def definition? (s : List Char) : Option (SymbolDefinition × List Char) := do
  let s ← stripStart? "althtmldef".toList s
  let s ← skipBlanks? s
  match s with
  | [] => none
  | q :: s =>
    if isQuote q then
      (closings q s).findSome? fun closing =>
        (valueClause? closing.rest).map fun (value, rest) =>
          (⟨String.ofList (undouble q (closing.body s)), String.ofList (joinQuoted value)⟩, rest)
    else none

/-- Reads all definitions of a text; `skip` characters of the last one are
still to be passed over. -/
def definitionsFrom : Nat → List Char → List SymbolDefinition
  | _, [] => []
  | skip + 1, _ :: rest => definitionsFrom skip rest
  | 0, c :: rest =>
    match definition? (c :: rest) with
    | some (d, after) => d :: definitionsFrom (rest.length - after.length) rest
    | none => definitionsFrom 0 rest

/-- The definitions that a comment makes, given the text between its marks. -/
def definitionsOfComment (s : List Char) : List SymbolDefinition :=
  match trimStart s with
  | '$' :: 't' :: _ => definitionsFrom 0 s
  | _ => []

end Typeset.Database
