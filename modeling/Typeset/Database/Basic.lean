import Typeset.Formula.Match
import Typeset.Formula.Measured
import Typeset.Grammar.Parse
import Typeset.Journal

/-!
# Databases

A database holds what a source declared: its symbols, its statements, the
hypothesis of each variable, the grammar that its syntax axioms make, the
essential hypotheses that each assertion rests on, and the markup of single
symbols. It answers the questions that typesetting asks: how to read symbols
as a formula, how a formula is spelled, and which formulas a statement is made
of.
-/

namespace Typeset

/-- What a source declared. -/
structure Database where
  /-- The typecode of provable statements. -/
  provable : Typecode
  /-- The typecode that provable statements are read as. -/
  logic : Typecode
  /-- The constants. -/
  constants : List Symbol := []
  /-- The variables. -/
  variableSymbols : List Symbol := []
  /-- All statements, in the order in which their labels first came. -/
  statements : Table Label Statement := .empty
  /-- The floating hypotheses. A label that was once that of a floating
  hypothesis stays here even when it is declared again as something else. -/
  floatings : Table Label Floating := .empty
  /-- The variables and rules of the syntax. -/
  grammar : Grammar := {}
  /-- The typecodes of the grammar in the order in which they first came,
  without the provable one. -/
  typecodes : List Typecode := []
  /-- The labels of the essential hypotheses in scope of each assertion. -/
  hypotheses : Table Label (List Label) := .empty
  /-- The markup of single symbols. -/
  symbolMarkup : Table Symbol String := .empty
deriving DecidableEq, Repr

/-- Symbols that no listed typecode can be read from. -/
structure Unreadable where
  /-- The symbols. -/
  symbols : List Symbol
  /-- The typecodes that were tried. -/
  typecodes : List Typecode
deriving DecidableEq, Repr

/-- What is said about symbols that cannot be read. -/
def Unreadable.message (e : Unreadable) : String :=
  "Could not parse formula '" ++ " ".intercalate e.symbols ++ "' as " ++
    " or ".intercalate e.typecodes

/-- Why a formula cannot be spelled. -/
inductive SpellError where
  /-- No statement has the label of a node. -/
  | unknownLabel (label : Label)
  /-- A node has fewer parts than its statement has variables. -/
  | missingPart
deriving DecidableEq, Repr

namespace Database

/-- Whether a symbol was declared. -/
def isSymbol (db : Database) (s : Symbol) : Bool :=
  db.constants.contains s || db.variableSymbols.contains s

/-- Whether a label names a variable in patterns. -/
def isVariable (db : Database) (l : Label) : Bool := db.floatings.contains l

/-- What the variables of a pattern stand for in a formula. -/
def match? (db : Database) (pattern f : Formula) : Option Bindings :=
  Formula.match? db.isVariable pattern f

/-- A formula read under a typecode; if it is to be asserted and the typecode
is the logic one, it is tagged as provable. -/
def framed (db : Database) (asserted : Bool) (tc : Typecode) (f : Formula) : Formula :=
  if asserted && tc == db.logic then f.retag db.provable else f

/-- Reads symbols as a formula: the typecodes are tried in order, and under
the first that covers all symbols the first reading is taken. -/
def readAs (db : Database) (symbols : List Symbol) (typecodes : List Typecode)
    (asserted : Bool) : Except Unreadable Formula :=
  match typecodes.findSome? fun tc => (db.grammar.read? tc symbols).map (db.framed asserted tc) with
  | some f => .ok f
  | none => .error ⟨symbols, typecodes⟩

/-- Puts the spellings of parts in the places of the variables of a body. -/
def weave (g : Grammar) : List Symbol → List (Except SpellError (List Symbol)) →
    Except SpellError (List Symbol)
  | [], _ => .ok []
  | s :: body, parts =>
    if (g.floatings.get? s).isSome then
      match parts with
      | [] => .error .missingPart
      | part :: parts => do
        let first ← part
        let others ← weave g body parts
        return first ++ others
    else do
      let others ← weave g body parts
      return s :: others

/-- A constant of a body stands for itself. -/
theorem weave_constant {g : Grammar} {s : Symbol} {body symbols : List Symbol}
    {parts : List (Except SpellError (List Symbol))} (hs : g.floatings.get? s = none)
    (h : weave g body parts = .ok symbols) : weave g (s :: body) parts = .ok (s :: symbols) := by
  simp [weave.eq_def g (s :: body), hs, h, Bind.bind, Except.bind, Pure.pure, Except.pure]

/-- A variable of a body takes the spelling of the first part. -/
theorem weave_variable {g : Grammar} {s : Symbol} {v : Floating} {body front symbols : List Symbol}
    {parts : List (Except SpellError (List Symbol))} (hs : g.floatings.get? s = some v)
    (h : weave g body parts = .ok symbols) :
    weave g (s :: body) (.ok front :: parts) = .ok (front ++ symbols) := by
  simp [weave.eq_def g (s :: body), hs, h, Bind.bind, Except.bind, Pure.pure, Except.pure]

mutual

/-- The symbols that spell a formula, without its typecode. -/
def spell (db : Database) : Formula → Except SpellError (List Symbol)
  | .node l _ cs =>
    match db.floatings.get? l with
    | some v => .ok [v.symbol]
    | none =>
      match db.statements.get? l with
      | some s => weave db.grammar s.body (spellAll db cs)
      | none => .error (.unknownLabel l)

/-- The spellings of several formulas. -/
def spellAll (db : Database) : List Formula → List (Except SpellError (List Symbol))
  | [] => []
  | c :: cs => spell db c :: spellAll db cs

end

/-- Notes that a statement cannot be read. -/
def noteUnreadable (s : Statement) (e : Unreadable) : Logged Statement.Lack Unit :=
  .detail 2 (s.label ++ ": " ++ e.message)

/-- The formula of a statement: a provable one is read under the logic
typecode and tagged as provable, any other one under its own typecode. None if
it cannot be read, which is noted. -/
def formulaOf (db : Database) (s : Statement) : Logged Statement.Lack (Option Formula) := do
  let tc ← Logged.ofExcept s.typecode
  let reading :=
    if tc == db.provable then db.readAs s.body [db.logic] true else db.readAs s.body [tc] false
  match reading with
  | .ok f => return some f
  | .error e =>
    noteUnreadable s e
    return none

/-- The distinct sub-formulas of a statement, parts before the whole, tagged
with the typecodes of the grammar. Empty if the statement cannot be read,
which is noted. -/
def syntaxSteps (db : Database) (s : Statement) : Logged Statement.Lack (List Formula) := do
  let tc ← Logged.ofExcept s.typecode
  match db.readAs s.body [if tc == db.provable then db.logic else tc] false with
  | .ok f => return Formula.distinct f.subformulas
  | .error e =>
    noteUnreadable s e
    return []

/-- The essential hypotheses in scope of the assertion with a label, in the
order of declaration. -/
def hypothesesOf (db : Database) (l : Label) : List Statement :=
  ((db.hypotheses.get? l).getD []).filterMap db.statements.get?

/-- The variable that a stored floating hypothesis gives a typecode to. -/
def variableName? (db : Database) (l : Label) : Option Symbol :=
  (db.statements.get? l).bind (·.variableOf?)

/-- The labels of all assertions, in order. -/
def assertionLabels (db : Database) : List Label :=
  (db.statements.values.filter fun s => s.kind.isAssertion).map (·.label)

end Database

end Typeset
