import Typeset.Text.Basic
import Typeset.Text.Search

/-!
# Tokens of a definition file for highlighting

A highlighter has to show every file, also one that cannot be read, so its
lexer never refuses a text. It keeps a stack of modes: outside of directives,
in the math of a scheme, in its template, in a text. Each mode has an ordered
list of rules; the first rule that matches at the present place gives the next
token and may change the stack.
-/

namespace Typeset.Highlight

open Text

/-- What a token is shown as. -/
inductive Kind where
  /-- A comment. -/
  | comment
  /-- The keyword of a scheme. -/
  | keyword
  /-- The keyword of a text directive. -/
  | declaration
  /-- Blanks outside of templates and texts. -/
  | blank
  /-- A math symbol. -/
  | name
  /-- A placeholder in a template. -/
  | variableName
  /-- A mark that separates or ends. -/
  | punctuation
  /-- A piece of a template. -/
  | template
  /-- A piece of a text. -/
  | text
  /-- What has no place where it stands. -/
  | error
deriving DecidableEq, Repr

/-- A token: what it is shown as and its text. -/
structure Token where
  /-- What the token is shown as. -/
  kind : Kind
  /-- The token's text. -/
  text : List Char
deriving DecidableEq, Repr

/-- Where in a file the lexer is. -/
inductive Mode where
  /-- Outside of directives. -/
  | root
  /-- In the math of a scheme. -/
  | math
  /-- In the template of a scheme. -/
  | template
  /-- In a text directive. -/
  | text
deriving DecidableEq, Repr

/-- What a rule does to the stack of modes. -/
inductive Move where
  /-- Leaves it as it is. -/
  | stay
  /-- Enters a mode. -/
  | enter (mode : Mode)
  /-- Leaves the present mode. -/
  | leave
  /-- Leaves the present mode for another one. -/
  | change (mode : Mode)
deriving DecidableEq, Repr

/-- Leaves a mode; the last mode of the stack is never left. -/
def leave : List Mode → List Mode
  | _ :: mode :: below => mode :: below
  | stack => stack

/-- The stack of modes after a move; the present mode comes first. -/
def Move.apply : Move → List Mode → List Mode
  | stay, stack => stack
  | enter mode, stack => mode :: stack
  | .leave, stack => Highlight.leave stack
  | change mode, stack => mode :: Highlight.leave stack

/-- A rule of a mode. -/
structure Rule where
  /-- How many characters the rule takes at the head of a text, if it matches. -/
  taken? : List Char → Option Nat
  /-- What the token is shown as. -/
  kind : Kind
  /-- What happens to the stack. -/
  move : Move := .stay

/-- Takes a fixed text. -/
def literal (pattern : String) (s : List Char) : Option Nat :=
  if pattern.toList.isPrefixOf s then some pattern.length else none

/-- Takes one character of a set. -/
def one (p : Char → Bool) : List Char → Option Nat
  | [] => none
  | c :: _ => if p c then some 1 else none

/-- Takes as many characters of a set as there are, one at least. -/
def run (p : Char → Bool) (s : List Char) : Option Nat :=
  let n := (s.takeWhile p).length
  if n = 0 then none else some n

/-- Takes a comment up to the first mark that closes it. -/
def comment (s : List Char) : Option Nat := do
  let inside ← stripStart? "$(".toList s
  let (before, _) ← cutAt? "$)".toList inside
  return before.length + 4

/-- Takes the keyword of a scheme, which a blank has to follow. -/
def schemeKeyword : List Char → Option Nat
  | '$' :: k :: c :: _ => if (k == 's' || k == 'i') && isBlank c then some 2 else none
  | _ => none

/-- Takes the keyword of a text directive. -/
def textKeyword : List Char → Option Nat
  | '$' :: k :: _ => if ['u', 'c', 'd', 't', 'h'].contains k then some 2 else none
  | _ => none

/-- Takes a placeholder: number signs around a name without blanks, dollars
and number signs. -/
def placeholder : List Char → Option Nat
  | '#' :: s =>
    let name := s.takeWhile fun c => c != '#' && c != '$' && !isBlank c
    if name.isEmpty then none
    else if (s.drop name.length).head? = some '#' then some (name.length + 2)
    else none
  | _ => none

/-- Printable ASCII but the dollar. -/
def isNameChar (c : Char) : Bool := '!' ≤ c && c ≤ '~' && c != '$'

/-- The rules of a mode, in order. -/
def rules : Mode → List Rule
  | .root =>
    [⟨comment, .comment, .stay⟩,
     ⟨schemeKeyword, .keyword, .enter .math⟩,
     ⟨textKeyword, .declaration, .enter .text⟩,
     ⟨run isBlank, .blank, .stay⟩,
     ⟨one (· != '\n'), .error, .stay⟩]
  | .math =>
    [⟨literal "$:", .punctuation, .change .template⟩,
     ⟨run isNameChar, .name, .stay⟩,
     ⟨run isBlank, .blank, .stay⟩,
     ⟨one (· != '\n'), .error, .stay⟩]
  | .template =>
    [⟨literal "$.", .punctuation, .leave⟩,
     ⟨placeholder, .variableName, .stay⟩,
     ⟨run fun c => c != '$' && c != '#', .template, .stay⟩,
     ⟨one fun c => c == '$' || c == '#', .template, .stay⟩]
  | .text =>
    [⟨literal "$.", .punctuation, .leave⟩,
     ⟨run (· != '$'), .text, .stay⟩,
     ⟨one (· == '$'), .text, .stay⟩]

/-- The first rule of a list that matches, with the number of characters that
it takes. -/
def firstMatch (rs : List Rule) (s : List Char) : Option (Rule × Nat) :=
  rs.findSome? fun r => (r.taken? s).map (r, ·)

/-- The tokens of a text, read with a stack of modes. Should no rule match, a
line feed begins the stack anew, and any other character is an error; no text
comes to that, since the rules of every mode leave no character out. -/
def lexFrom (stack : List Mode) : List Char → List Token
  | [] => []
  | c :: rest =>
    match firstMatch (rules (stack.headD .root)) (c :: rest) with
    | some (rule, n) =>
      ⟨rule.kind, c :: rest.take (n - 1)⟩ :: lexFrom (rule.move.apply stack) (rest.drop (n - 1))
    | none =>
      if c = '\n' then ⟨.blank, [c]⟩ :: lexFrom [.root] rest
      else ⟨.error, [c]⟩ :: lexFrom stack rest
termination_by s => s.length
decreasing_by
  · simp only [List.length_drop, List.length_cons]
    omega
  · simp
  · simp

/-- The tokens of a text. -/
def lex (s : List Char) : List Token := lexFrom [.root] s

/-- The tokens with the position of each. -/
def positions (start : Nat) : List Token → List (Nat × Token)
  | [] => []
  | t :: ts => (start, t) :: positions (start + t.text.length) ts

/-- Line feeds removed at both ends. -/
def stripLines (s : List Char) : List Char :=
  ((s.dropWhile (· == '\n')).reverse.dropWhile (· == '\n')).reverse

/-- A text made ready for showing: without a byte order mark, with one kind of
line end, no empty lines around it and a line feed at its end. -/
def tidy (s : List Char) : List Char :=
  let s := if s.head? = some (Char.ofNat 0xFEFF) then s.tail else s
  stripLines (unifyLineEnds s) ++ ['\n']

/-- The tokens that are shown of a text. -/
def shownTokens (s : List Char) : List Token := lex (tidy s)

end Typeset.Highlight
