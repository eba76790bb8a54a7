import Typeset.Database.Read
import Typeset.Definition.Compile
import Typeset.Definition.Coverage
import Typeset.Highlight.Html
import Typeset.Run.FileTree
import Typeset.Run.Options
import Typeset.Run.State

/-!
# A run

A run goes through six stages: it finds its files, loads the database,
compiles the definition, renders the statements, writes the page and reports.
Each stage takes the state that the one before has left. A run may stop at any
stage: with an exit code, when it has said what is wrong, or with a fault, for
which no message is provided. What was noted, printed and written until then
stays.
-/

namespace Typeset

/-- A fault that stops a run without a message. -/
inductive Fault where
  /-- A file cannot be used. -/
  | file (e : FileError)
  /-- A formula or a statement is faulty. -/
  | render (e : RenderError)
  /-- An option has no text where one is needed. -/
  | noText
  /-- A stage was entered without the database. -/
  | noDatabase
  /-- A stage was entered without a backend to render with. -/
  | noBackend

/-- How a run stops before its end. -/
inductive Stop where
  /-- With an exit code. -/
  | exit (code : Nat)
  /-- With a fault. -/
  | fault (f : Fault)

/-- What a run acts upon. -/
structure World where
  /-- The files. -/
  files : FileTree
  /-- What was printed for the user. -/
  printed : String := ""
  /-- What was noted. -/
  notes : List Note := []

/-- A part of a run. -/
abbrev Run := ExceptT Stop (StateM World)

namespace Run

/-- Prints a line and stops with exit code one. -/
def refuse {α : Type} (line : String) : Run α := do
  modify fun w => { w with printed := w.printed ++ line ++ "\n" }
  throw (.exit 1)

/-- Notes a detail. -/
def detail (level : Int) (message : String) : Run Unit :=
  modify fun w => { w with notes := w.notes ++ [⟨.detail level, none, message⟩] }

/-- Keeps the notes of a computation and gives its outcome. -/
def keep {ε α : Type} (x : Logged ε α) : Run (Except ε α) := do
  modify fun w => { w with notes := w.notes ++ x.notes }
  return x.outcome

/-- Stops with a fault if there is an error. -/
def orFault {ε α : Type} (fault : ε → Fault) : Except ε α → Run α
  | .ok a => return a
  | .error e => throw (.fault (fault e))

/-- Asks something about the files. -/
def ask {α : Type} (question : FileTree → Except FileError α) : Run α := do
  orFault .file (question (← get).files)

/-- Changes the files. -/
def changeFiles (change : FileTree → Except FileError FileTree) : Run Unit := do
  let files ← ask change
  modify fun w => { w with files }

/-- The text of an option. -/
def textOf (v : OptionValue) : Run String :=
  match v.text? with
  | some s => return s
  | none => throw (.fault .noText)

end Run

open Run

/-- The title of the program, shown to those who want details. -/
def title : String :=
  "\n       _\n" ++
  "   ___| |_ ___  ___ _ __   __ _(_)_ __   ___\n" ++
  "  / __| __/ __|/ _ \\ '_ \\ / _` | | '_ \\ / _ \\\n" ++
  "  \\__ \\ |_\\__ \\  __/ | | | (_| | | | | |  __/\n" ++
  "  |___/\\__|___/\\___|_| |_|\\__, |_|_| |_|\\___|\n" ++
  "                          |___/\n" ++
  "  Structured typesetting for formal formulas\n"

/-- Finds the files of a run and makes the directory of the page. -/
def envCheck (settings : Settings) (s : RunState) : Run RunState := do
  detail 2 title
  detail 2 "Checking environment..."
  let databaseFile := s.inputdir.join (.ofString (← textOf s.database))
  let s := { s with databaseFile }
  if !(← ask (·.isThere databaseFile)) then
    refuse ("Error: Database not found: " ++ databaseFile.toString)
  detail 2 ("Database: " ++ databaseFile.toString)
  let s ←
    if s.renderer = .text "sts" then do
      match settings.definitionPath databaseFile.toString s.format.toText with
      | .error e => refuse ("Error: " ++ e.message)
      | .ok definitionFile =>
        if !(← ask (·.isThere definitionFile)) then
          refuse ("Error: Typesetting definition not found: " ++ definitionFile.toString)
        detail 2 ("Definition: " ++ definitionFile.toString)
        pure { s with definitionFile }
    else pure s
  changeFiles (·.ensureDirectories s.outputdir)
  return { s with envOK := true }

/-- Loads the database. -/
def databaseLoad (settings : Settings) (s : RunState) : Run RunState := do
  detail 1 "Loading database..."
  let source ← ask (·.readText s.databaseFile)
  let load := Database.load settings.provableTypecode settings.logicTypecode source
  match ← keep (load.within s.databaseFile.name) with
  | .ok db => return { s with db := some db }
  | .error e => refuse ("Database error: " ++ e.message)

/-- Why a definition file cannot be loaded. -/
inductive LoadError where
  /-- It cannot be read to its end. -/
  | layout (e : LayoutError)
  /-- A scheme cannot be compiled. -/
  | scheme (e : SchemeError)
  /-- The check came upon a faulty formula; every other error is a gap to it. -/
  | check (e : RenderError)

/-- Loads a definition from its text, and checks it if that is asked for. -/
def loadDefinition (db : Database) (settings : Settings) (check : Bool) (source : List Char) :
    Logged LoadError Definition := do
  .detail 2 ("Read " ++ toString source.length ++ " characters")
  let directives ← (parseDefinition false source).mapError .layout
  let compiled ← (Definition.compile db settings settings.strictMode directives).mapError .scheme
  if check then (compiled.definition.check settings).mapError .check
  return compiled.definition

/-- Compiles the definition, for the backend that needs one. -/
def definitionStage (settings : Settings) (s : RunState) : Run RunState := do
  if s.renderer ≠ .text "sts" then return s
  detail 1 "Compiling typesetting definition..."
  let source ← ask (·.readText s.definitionFile)
  match s.db with
  | none => throw (.fault .noDatabase)
  | some db =>
    match ← keep ((loadDefinition db settings s.checkSts source).within s.definitionFile.name) with
    | .ok d => return { s with definition := some d }
    | .error (.layout e) => refuse ("Definition error: " ++ e.message)
    | .error (.scheme e) => refuse ("Definition error: " ++ e.message)
    | .error (.check e) => throw (.fault (.render e))

/-- The database and the backend of a run. -/
def tools (s : RunState) : Run (Database × Backend) := do
  match s.db, Backend.find? s.definition (← textOf s.renderer) with
  | some db, some b => return (db, b)
  | none, _ => throw (.fault .noDatabase)
  | _, none => throw (.fault .noBackend)

/-- Renders the row of a statement that was asked for. -/
def requestedRow (b : Backend) (db : Database) (settings : Settings) (label : OptionValue) :
    Logged Fault Row :=
  match label.text? with
  | some l => (Row.render b db settings l).mapError .render
  | none => .fail .noText

/-- Renders the statements that were asked for. -/
def statementsRender (settings : Settings) (s : RunState) : Run RunState := do
  let (db, backend) ← tools s
  let labels := if s.label.isEmpty then db.assertionLabels.map .text else s.label
  detail 1 ("Rendering " ++ toString labels.length ++ " statements with " ++ s.renderer.toText)
  let rows ← keep (labels.mapM (requestedRow backend db settings))
  return { s with renderedStatements := some (← orFault id rows) }

/-- Writes the page. -/
def pageWrite (s : RunState) : Run RunState := do
  let (_, backend) ← tools s
  let rows := s.renderedStatements.getD []
  let source ←
    if s.definition.isSome then do
      let text ← ask (·.readText s.definitionFile)
      pure (Highlight.toHtml text)
    else pure ""
  let page := pageHtml s.databaseFile.name backend.header rows source
  let outputFile := s.outputdir.join (.ofString (← textOf s.outputFile))
  changeFiles (·.writeText outputFile page)
  detail 2 ("Wrote " ++ outputFile.toString)
  return { s with pageResult := some ⟨outputFile, rows.length, rows.countP (!·.ok)⟩ }

/-- Reports what was made. -/
def resultsReport (s : RunState) : Run RunState := do
  match s.pageResult with
  | none => refuse "Error: Rendering failed"
  | some result =>
    detail 1 "\n✓ Rendering complete!"
    detail 1 ("  Output: " ++ result.outputFile.toString)
    detail 1 ("  Statements: " ++ toString result.statementCount)
    detail 1 ("  Errors: " ++ toString result.errorCount)
    return s

/-- The stages of a run. -/
inductive Stage where
  /-- Finds the files. -/
  | envCheck
  /-- Loads the database. -/
  | databaseLoad
  /-- Compiles the definition. -/
  | definitionStage
  /-- Renders the statements. -/
  | statementsRender
  /-- Writes the page. -/
  | pageWrite
  /-- Reports. -/
  | resultsReport
deriving DecidableEq, Repr

/-- What a stage does. -/
def Stage.run (settings : Settings) : Stage → RunState → Run RunState
  | envCheck => Typeset.envCheck settings
  | databaseLoad => Typeset.databaseLoad settings
  | definitionStage => Typeset.definitionStage settings
  | statementsRender => Typeset.statementsRender settings
  | pageWrite => Typeset.pageWrite
  | resultsReport => Typeset.resultsReport

/-- The stages in order. -/
def Stage.all : List Stage :=
  [envCheck, databaseLoad, definitionStage, statementsRender, pageWrite, resultsReport]

/-- What remains of a run. -/
structure Finished where
  /-- The stages that came to their end, with the states they left. -/
  stages : List (Stage × RunState)
  /-- How the run stopped, if it did before its end. -/
  stop : Option Stop
  /-- The world as the run left it. -/
  world : World

/-- Goes through stages, until one stops. -/
def runStages (settings : Settings) : List Stage → RunState → World → Finished
  | [], _, w => ⟨[], none, w⟩
  | stage :: more, s, w =>
    match (stage.run settings s).run w with
    | (.error stop, w) => ⟨[], some stop, w⟩
    | (.ok s, w) =>
      let rest := runStages settings more s w
      { rest with stages := (stage, s) :: rest.stages }

/-- Makes the directory of the page and makes sure that there is an input
directory. -/
def prepareDirectories (inputdir outputdir : Path) : Run Unit := do
  if ← ask (·.isThere outputdir) then
    if !(← ask (·.isDirectory outputdir)) then refuse ("Not a directory: " ++ outputdir.toString)
  else changeFiles (·.makeDirectories outputdir)
  if !(← ask (·.isDirectory inputdir)) then refuse ("Not a directory: " ++ inputdir.toString)

/-- A run with the options of a command line; `prepared` says whether the
directories are looked after first. -/
def runWith (settings : Settings) (o : Options) (prepared : Bool) (inputdir outputdir : Path)
    (w : World) : Finished :=
  let state := RunState.ofOptions o inputdir outputdir
  let preparation := if prepared then prepareDirectories inputdir outputdir else pure ()
  match preparation.run w with
  | (.error stop, w) => ⟨[], some stop, w⟩
  | (.ok _, w) => runStages settings Stage.all state w

/-- The exit code of a run, none if a fault stopped it. -/
def Finished.exitCode (f : Finished) : Option Nat :=
  match f.stop with
  | none => some 0
  | some (.exit code) => some code
  | some (.fault _) => none

end Typeset
