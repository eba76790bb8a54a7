/-!
# Statements

A database is a list of labelled statements. The math of a statement is a
list of symbols; the first of them is its typecode and the rest its body. A
floating hypothesis has one symbol in its body, the variable that it gives a
typecode to.
-/

namespace Typeset

/-- A word of math. -/
abbrev Symbol := String

/-- The name of a statement. -/
abbrev Label := String

/-- The symbol that says what kind of expression follows it. -/
abbrev Typecode := String

/-- The kinds of statements. -/
inductive StatementKind where
  /-- Gives a variable its typecode. -/
  | floating
  /-- A hypothesis of the assertions in its block. -/
  | essential
  /-- An assertion without proof. -/
  | axiomatic
  /-- An assertion with a proof. -/
  | provable
deriving DecidableEq, Repr

/-- The keyword of a kind. -/
def StatementKind.keyword : StatementKind → String
  | .floating => "$f"
  | .essential => "$e"
  | .axiomatic => "$a"
  | .provable => "$p"

/-- The kind that a keyword names. -/
def StatementKind.ofKeyword? (s : String) : Option StatementKind :=
  [floating, essential, axiomatic, provable].find? fun k => k.keyword == s

@[simp] theorem StatementKind.ofKeyword?_keyword (k : StatementKind) :
    ofKeyword? k.keyword = some k := by
  cases k <;> decide

/-- Whether statements of a kind assert something under hypotheses. -/
def StatementKind.isAssertion : StatementKind → Bool
  | .axiomatic | .provable => true
  | .floating | .essential => false

/-- A labelled statement. -/
structure Statement where
  /-- The statement's name. -/
  label : Label
  /-- What the statement does. -/
  kind : StatementKind
  /-- The typecode and, after it, the body. -/
  math : List Symbol
deriving DecidableEq, Repr

namespace Statement

/-- What a statement can lack. -/
inductive Lack where
  /-- The math is empty. -/
  | typecode
  /-- A floating hypothesis has an empty body. -/
  | variableSymbol
deriving DecidableEq, Repr

/-- The typecode, unless the math is empty. -/
def typecode? (s : Statement) : Option Typecode := s.math.head?

/-- The typecode, or what the statement lacks. -/
def typecode (s : Statement) : Except Lack Typecode :=
  match s.typecode? with
  | some tc => .ok tc
  | none => .error .typecode

/-- What stands after the typecode. -/
def body (s : Statement) : List Symbol := s.math.tail

/-- The variable of a floating hypothesis. -/
def variableOf? (s : Statement) : Option Symbol :=
  if s.kind = .floating then s.body.head? else none

/-- The variable of a floating hypothesis, none for other kinds, or what the
statement lacks. -/
def declaredVariable (s : Statement) : Except Lack (Option Symbol) :=
  if s.kind = .floating ∧ s.variableOf? = none then .error .variableSymbol else .ok s.variableOf?

end Statement

end Typeset
