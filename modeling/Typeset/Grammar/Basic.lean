import Typeset.Formula
import Typeset.Table

/-!
# Grammars

A grammar knows the typecode of every variable and, for every typecode, the
rules that build its expressions, in the order in which they were declared. A
rule is the body of a syntax axiom: where it names a variable, any expression
of the variable's typecode may stand; every other symbol stands for itself.
-/

namespace Typeset

/-- A variable with its typecode and the hypothesis that gives it. -/
structure Floating where
  /-- The label of the hypothesis. -/
  label : Label
  /-- The typecode of the variable. -/
  typecode : Typecode
  /-- The variable. -/
  symbol : Symbol
deriving DecidableEq, Repr

/-- A rule that builds an expression. -/
structure Rule where
  /-- The label of the syntax axiom. -/
  label : Label
  /-- The symbols that the expression is written with. -/
  body : List Symbol
deriving DecidableEq, Repr

/-- The variables and rules of a database. -/
structure Grammar where
  /-- The hypothesis of every variable. -/
  floatings : Table Symbol Floating := .empty
  /-- The rules of every typecode, in the order of declaration. -/
  rules : Table Typecode (List Rule) := .empty
deriving DecidableEq, Repr

namespace Grammar

/-- The rules of a typecode. -/
def rulesOf (g : Grammar) (tc : Typecode) : List Rule := (g.rules.get? tc).getD []

/-- Gives a variable its typecode. -/
def addVariable (g : Grammar) (v : Floating) : Grammar :=
  { g with floatings := g.floatings.set v.symbol v }

/-- Adds a rule behind those of its typecode. -/
def addRule (g : Grammar) (tc : Typecode) (r : Rule) : Grammar :=
  { g with rules := g.rules.set tc (g.rulesOf tc ++ [r]) }

/-- A new rule stands behind the rules of its typecode; other typecodes keep
theirs. -/
theorem rulesOf_addRule (g : Grammar) (tc tc' : Typecode) (r : Rule) :
    (g.addRule tc r).rulesOf tc' = if tc' = tc then g.rulesOf tc ++ [r] else g.rulesOf tc' := by
  unfold addRule rulesOf
  rw [Table.get?_set]
  split
  · rfl
  · rfl

@[simp] theorem floatings_addRule (g : Grammar) (tc : Typecode) (r : Rule) :
    (g.addRule tc r).floatings = g.floatings := rfl

@[simp] theorem rulesOf_addVariable (g : Grammar) (v : Floating) (tc : Typecode) :
    (g.addVariable v).rulesOf tc = g.rulesOf tc := rfl

/-- A variable just given a typecode has the new hypothesis; others keep
theirs. -/
theorem get?_floatings_addVariable (g : Grammar) (v : Floating) (s : Symbol) :
    (g.addVariable v).floatings.get? s = if s = v.symbol then some v else g.floatings.get? s :=
  Table.get?_set _ _ _ _

/-- The typecode of a variable, none if the symbol is a constant. -/
def variableTypecode? (g : Grammar) (s : Symbol) : Option Typecode :=
  (g.floatings.get? s).map (·.typecode)

/-- Whether a rule begins with a variable of the rule's own typecode and goes
on after it. Such a rule is applied to expressions that were found already. -/
def isGrowing (g : Grammar) (tc : Typecode) (r : Rule) : Bool :=
  match r.body with
  | s :: _ :: _ => g.variableTypecode? s == some tc
  | _ => false

end Grammar

end Typeset
