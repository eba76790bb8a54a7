import Typeset.Statement
import Typeset.Text.Search

/-!
# Directives of a definition file

A definition file is a list of directives. Schemes say how formulas of one
shape are typeset; texts set the strings that a page needs beside its
formulas; blanks and comments say nothing. Each form of directive can be
written down and read at the head of a text.
-/

namespace Typeset

/-- What a text directive sets. -/
inductive TextRole where
  /-- Reserved; says nothing. -/
  | typecodes
  /-- The command string. -/
  | command
  /-- The string that a displayed formula is put into. -/
  | display
  /-- The string that a formula inside a line is put into. -/
  | inlined
  /-- The markup that a page needs once. -/
  | header
deriving DecidableEq, Repr

/-- The letter of a role's keyword. -/
def TextRole.letter : TextRole → Char
  | typecodes => 'u'
  | command => 'c'
  | display => 'd'
  | inlined => 't'
  | header => 'h'

/-- The role that a letter stands for. -/
def TextRole.ofLetter? (c : Char) : Option TextRole :=
  [typecodes, command, display, inlined, header].find? fun r => r.letter == c

/-- What a directive says. -/
inductive Content where
  /-- A run of blanks or a comment. -/
  | blank
  /-- A scheme: whether it is for a single symbol, its typecode, the symbols
  of its pattern, and its template. -/
  | scheme (isIdentifier : Bool) (typecode : Symbol) (symbols : List Symbol) (template : String)
  /-- A text. -/
  | text (role : TextRole) (text : String)
deriving DecidableEq, Repr

/-- A directive with the line that it starts on. -/
structure Directive where
  /-- What the directive says. -/
  content : Content
  /-- The line of its first character. -/
  line : Nat
deriving DecidableEq, Repr

/-- The name of a directive's kind, as it is noted. -/
def Content.kindName : Content → String
  | .blank => "COMMENT"
  | .scheme .. => "SCHEME"
  | .text .typecodes _ => "TYPECODES"
  | .text .command _ => "COMMAND"
  | .text .display _ => "DISPLAY"
  | .text .inlined _ => "INLINE"
  | .text .header _ => "HEADER"

/-- Why a text cannot be read as directives. -/
inductive LeftoverCause where
  /-- A comment is not closed. -/
  | openComment
  /-- A scheme does not have its form. -/
  | malformedScheme
  /-- A text directive is not closed. -/
  | openText
  /-- No directive begins here. -/
  | noDirective
deriving DecidableEq, Repr

/-- The rest of a definition file that cannot be read. -/
structure Leftover where
  /-- Why it cannot be read. -/
  cause : LeftoverCause
  /-- How it begins. -/
  excerpt : String
deriving DecidableEq, Repr

/-- Whether a text begins with the keyword of a scheme. -/
def isSchemeStart : List Char → Bool
  | '$' :: 's' :: _ => true
  | '$' :: 'i' :: _ => true
  | _ => false

/-- Whether a text begins with the keyword of a text directive. -/
def isTextStart : List Char → Bool
  | '$' :: c :: _ => (TextRole.ofLetter? c).isSome
  | _ => false

/-- Tells why a text cannot be read, showing at most forty characters of its
first line. -/
def Leftover.of (s : List Char) : Leftover :=
  { cause :=
      if "$(".toList.isPrefixOf s then .openComment
      else if isSchemeStart s then .malformedScheme
      else if isTextStart s then .openText
      else .noDirective
    excerpt := String.ofList ((s.take 40).takeWhile (· != '\n')) }

/-- What is said about a leftover. -/
def Leftover.message (l : Leftover) : String :=
  (match l.cause with
    | .openComment => "unterminated comment near '"
    | .malformedScheme => "malformed scheme near '"
    | .openText => "missing '$.' near '"
    | .noDirective => "unexpected text '") ++ l.excerpt ++ "'"

/-- A definition file that cannot be read to its end. -/
structure LayoutError where
  /-- The rest that cannot be read. -/
  leftover : Leftover
  /-- The line that the rest starts on. -/
  line : Nat
deriving DecidableEq, Repr

/-- What is said about such a file. -/
def LayoutError.message (e : LayoutError) : String :=
  "Definition file could not be parsed completely: " ++ e.leftover.message ++ " (line " ++
    toString e.line ++ ")"

end Typeset
