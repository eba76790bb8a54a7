import Typeset.Backend

/-!
# Pages

A page has a row for each statement: the statement, the essential hypotheses
it rests on, and, for an axiom, the steps of its syntax tree. What cannot be
rendered is shown as an error in its place and spoils nothing else.
-/

namespace Typeset

/-- An expression of a page. -/
structure Shown where
  /-- The statement, or the syntax axiom of a step. -/
  label : Label
  /-- The markup of the expression, or of what is wrong with it. -/
  markup : String
  /-- Whether the expression was rendered. -/
  ok : Bool := true
deriving DecidableEq, Repr

/-- A row of a page. -/
structure Row where
  /-- The statement. -/
  label : Label
  /-- The statement's expression. -/
  assertion : Shown
  /-- The essential hypotheses it rests on, in the order of declaration. -/
  hypotheses : List Shown := []
  /-- The steps of an axiom's syntax tree, parts before the whole. -/
  steps : List Shown := []
deriving DecidableEq, Repr

/-- Whether every expression of a row was rendered. -/
def Row.ok (r : Row) : Bool := (r.assertion :: (r.hypotheses ++ r.steps)).all (·.ok)

/-- Shows the result of a render. An error is noted and shown in its place,
unless the formula or the statement itself is faulty. -/
def Shown.ofRender (label : Label) (render : Logged RenderError String) :
    Logged RenderError Shown := do
  match ← render.attempt with
  | .ok markup => return ⟨label, markup, true⟩
  | .error e =>
    match e.message? with
    | some message =>
      .detail 2 (label ++ ": " ++ message)
      return ⟨label, "<span class=\"error\">" ++ Text.escape message ++ "</span>", false⟩
    | none => .fail e

/-- Renders the row of a statement. A provable statement and its hypotheses
are shown as provable; steps are shown under their own typecodes. -/
def Row.render (b : Backend) (db : Database) (settings : Settings) (label : Label) :
    Logged RenderError Row := do
  match db.statements.get? label with
  | none =>
    let assertion ← Shown.ofRender label (b.renderStatement db settings (.named label) false)
    return { label, assertion }
  | some s =>
    let asserted := s.typecode? == some db.provable
    let assertion ← Shown.ofRender label (b.renderStatement db settings (.given s) asserted)
    let hypotheses ← (db.hypothesesOf s.label).mapM fun h =>
      Shown.ofRender h.label (b.renderStatement db settings (.given h) asserted)
    let steps ←
      if s.kind = .axiomatic then do
        let formulas ← (db.syntaxSteps s).mapError .lacking
        formulas.mapM fun f =>
          Shown.ofRender f.label (.ofExcept (b.renderFormula db settings f false))
      else pure []
    return { label, assertion, hypotheses, steps }

/-- The markup of an expression below the assertion of a row. -/
def Shown.toHtml (cssClass : String) (s : Shown) : String :=
  "<div class=\"" ++ cssClass ++ "\"><span class=\"label\">" ++ Text.escape s.label ++
    "</span> " ++ s.markup ++ "</div>"

/-- The markup of a row. -/
def Row.toHtml (r : Row) : String :=
  "<tr><td class=\"label\">" ++ Text.escape r.label ++ "</td><td><div class=\"assertion\">" ++
    r.assertion.markup ++ "</div>" ++ String.join (r.hypotheses.map (Shown.toHtml "hypothesis")) ++
    String.join (r.steps.map (Shown.toHtml "step")) ++ "</td></tr>"

/-- The markup of a page: its title, the header of its backend, its rows, and
the highlighted definition file. -/
def pageHtml (title header : String) (rows : List Row) (source : String) : String :=
  "<!DOCTYPE html>\n<html>\n<head>\n<meta charset=\"utf-8\">\n<title>" ++ Text.escape title ++
    "</title>\n" ++ header ++ "\n</head>\n<body>\n<table class=\"statements\">\n" ++
    "\n".intercalate (rows.map Row.toHtml) ++ "\n</table>\n<h2>Typesetting definition</h2>\n" ++
    source ++ "\n</body>\n</html>\n"

end Typeset
