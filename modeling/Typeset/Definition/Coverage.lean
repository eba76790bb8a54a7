import Typeset.Definition.Render

/-!
# What a definition covers

The check of a definition renders, for every syntax axiom of the database,
the expression that the axiom itself builds, under the axiom's typecode. An
axiom that cannot be rendered is a gap; one that several schemes of its
typecode fit is noted too, since only the first of them is ever used.
-/

namespace Typeset

/-- Why a syntax axiom is a gap. -/
inductive GapCause where
  /-- Its own body cannot be read. -/
  | unreadable (e : Unreadable)
  /-- Its expression cannot be rendered. -/
  | unrendered (e : RenderError)
deriving DecidableEq

/-- What is said about a gap. -/
def GapCause.message : GapCause → String
  | unreadable e => e.message
  | unrendered e => e.message?.getD ""

/-- A syntax axiom that cannot be rendered. -/
structure Gap where
  /-- The axiom. -/
  label : Label
  /-- Its typecode. -/
  typecode : Typecode
  /-- Why it cannot be rendered. -/
  cause : GapCause
deriving DecidableEq

/-- A syntax axiom that several schemes fit. -/
structure Shadow where
  /-- The axiom. -/
  label : Label
  /-- Its typecode. -/
  typecode : Typecode
  /-- The lines of the schemes, in order. -/
  lines : List Int
deriving DecidableEq

/-- A syntax axiom with its own expression. -/
structure SyntaxAxiom where
  /-- The axiom. -/
  label : Label
  /-- Its typecode. -/
  typecode : Typecode
  /-- The expression that it builds from its variables. -/
  formula : Except Unreadable Formula

/-- The syntax axioms, in the order of the statements. -/
def Database.syntaxAxioms (db : Database) : List SyntaxAxiom :=
  db.statements.values.filterMap fun s =>
    match s.kind, s.math with
    | .axiomatic, tc :: body =>
      if tc = db.provable then none else some ⟨s.label, tc, db.readAs body [tc] false⟩
    | _, _ => none

namespace Definition

/-- Whether a syntax axiom is a gap. -/
def gapAt (d : Definition) (settings : Settings) (a : SyntaxAxiom) :
    Except RenderError (Option Gap) :=
  match a.formula with
  | .error e => .ok (some ⟨a.label, a.typecode, .unreadable e⟩)
  | .ok f =>
    match d.format settings a.typecode f [] with
    | .ok _ => .ok none
    | .error e =>
      if e.message?.isSome then .ok (some ⟨a.label, a.typecode, .unrendered e⟩) else .error e

/-- The syntax axioms that cannot be rendered, in order. -/
def gaps (d : Definition) (settings : Settings) : Except RenderError (List Gap) :=
  (d.database.syntaxAxioms.mapM (d.gapAt settings)).map (·.filterMap id)

/-- The lines of the schemes that fit a syntax axiom. -/
def fittingLines (d : Definition) (tc : Typecode) (f : Formula) : List Int :=
  ((d.schemesOf tc).filter fun s => s.fits d.database f).map (·.line)

/-- The syntax axioms that several schemes of their typecode fit, in order. -/
def shadows (d : Definition) : List Shadow :=
  d.database.syntaxAxioms.filterMap fun a =>
    match a.formula with
    | .error _ => none
    | .ok f =>
      let lines := d.fittingLines a.typecode f
      if 1 < lines.length then some ⟨a.label, a.typecode, lines⟩ else none

/-- What is said about a gap. -/
def Gap.warning (g : Gap) : String := g.label ++ ": " ++ g.cause.message

/-- What is said about a shadow. -/
def Shadow.warning (s : Shadow) : String :=
  s.label ++ ": " ++ toString s.lines.length ++ " " ++ s.typecode ++ " schemes match (lines " ++
    ", ".intercalate (s.lines.map toString) ++ "), only the first is used"

/-- Warns of every gap and every shadow. -/
def check (d : Definition) (settings : Settings) : Logged RenderError Unit := do
  let gaps ← Logged.ofExcept (d.gaps settings)
  gaps.forM fun g => .warn (Gap.warning g)
  let shadows := d.shadows
  shadows.forM fun s => .warn (Shadow.warning s)
  .detail 1 ("Coverage check: " ++ toString gaps.length ++ " gaps, " ++
    toString shadows.length ++ " shadowed")

end Definition

end Typeset
