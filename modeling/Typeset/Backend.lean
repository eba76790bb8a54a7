import Typeset.Definition.Render
import Typeset.Text.Search

/-!
# Backends

A backend turns formulas and statements into markup. The plain one shows the
symbols as they are, the symbolic one puts the markup of each symbol in its
place, and the typeset one follows the schemes of a definition. A statement is
given itself or by its label.
-/

namespace Typeset

/-- A way to turn formulas into markup. -/
inductive Backend where
  /-- The symbols as plain text. -/
  | plain
  /-- The markup of each symbol. -/
  | symbolic
  /-- The schemes of a definition. -/
  | typeset (d : Definition)

/-- A statement, or its label. -/
inductive Target where
  /-- The statement with a label. -/
  | named (label : Label)
  /-- A statement itself. -/
  | given (s : Statement)

/-- Finds the statement that is meant. -/
def Target.resolve (db : Database) : Target → Except RenderError Statement
  | given s => .ok s
  | named l =>
    match db.statements.get? l with
    | some s => .ok s
    | none => .error (.unknownStatement l)

namespace Backend

/-- The key of a backend. -/
def key : Backend → String
  | plain => "ascii"
  | symbolic => "uni"
  | typeset _ => "sts"

/-- The backends there are, given the definition if there is one. -/
def available (d : Option Definition) : List Backend :=
  [plain, symbolic] ++ (d.map typeset).toList

/-- The backend with a key. -/
def find? (d : Option Definition) (key : String) : Option Backend :=
  (available d).find? fun b => b.key == key

/-- The markup that a page with this backend needs once. -/
def header : Backend → String
  | typeset d => d.header
  | _ => ""

/-- The markup of a symbol. -/
def symbolMarkup (db : Database) (s : Symbol) : Except RenderError String :=
  match db.symbolMarkup.get? s with
  | some markup => .ok markup
  | none => .error (.noMarkup s)

/-- The markup of symbols one by one, with blanks between. -/
def symbolsMarkup (db : Database) (symbols : List Symbol) : Except RenderError String :=
  (symbols.mapM (symbolMarkup db)).map (" ".intercalate ·)

/-- The symbols of a formula. -/
def symbolsOf (db : Database) (f : Formula) : Except RenderError (List Symbol) :=
  (db.spell f).mapError .misspelled

/-- The markup of a formula; an asserted one is shown as provable. -/
def renderFormula (b : Backend) (db : Database) (settings : Settings) (f : Formula)
    (asserted : Bool) : Except RenderError String :=
  match b with
  | plain => do
    let symbols ← symbolsOf db f
    let tc := if asserted then db.provable else f.typecode
    return "<pre>" ++ Text.escape tc ++ " " ++ Text.escape (" ".intercalate symbols) ++ "</pre>"
  | symbolic => do
    let symbols ← symbolsOf db f
    let markup ← symbolsMarkup db symbols
    return "<span class=\"uni\"><span color=\"gray\">&#8866;</span> " ++ markup ++ "</span>"
  | typeset d => d.renderFormula settings f asserted

/-- The markup of a statement: of its formula, or of its symbols where a
backend goes by symbols. -/
def renderStatement (b : Backend) (db : Database) (settings : Settings) (t : Target)
    (asserted : Bool) : Logged RenderError String := do
  let s ← Logged.ofExcept (t.resolve db)
  match b with
  | symbolic =>
    let markup ← Logged.ofExcept (symbolsMarkup db s.math)
    return "<span class=\"uni\">" ++ markup ++ "</span>"
  | _ =>
    match ← (db.formulaOf s).mapError .lacking with
    | some f => .ofExcept (b.renderFormula db settings f asserted)
    | none => .fail (.unknownStatement s.label)

end Backend

end Typeset
