import Typeset.Page
import Typeset.Path
import Typeset.Run.Options

/-!
# The state of a run

A run carries its options and, stage by stage, what was found and made.
-/

namespace Typeset

/-- What a run has made of its page. -/
structure PageResult where
  /-- The file that the page was written to. -/
  outputFile : Path
  /-- How many statements it shows. -/
  statementCount : Nat
  /-- How many of them have an error. -/
  errorCount : Nat
deriving DecidableEq, Repr

/-- What a run knows. -/
structure RunState where
  /-- The directory of the database and the definition file. -/
  inputdir : Path
  /-- The directory of the page. -/
  outputdir : Path
  /-- How much is noted. -/
  verbosity : Int := 1
  /-- The database file, relative to its directory. -/
  database : OptionValue := .text ""
  /-- The format, which selects the definition file. -/
  format : OptionValue := .text "mathml"
  /-- The key of the backend. -/
  renderer : OptionValue := .text "sts"
  /-- The statements to render, all assertions if there are none. -/
  label : List OptionValue := []
  /-- Whether the definition is checked. -/
  checkSts : Bool := false
  /-- The name of the page. -/
  outputFile : OptionValue := .text "index.html"
  /-- Whether the files were found. -/
  envOK : Bool := false
  /-- The path of the database file. -/
  databaseFile : Path := ⟨"/", []⟩
  /-- The path of the definition file. -/
  definitionFile : Path := ⟨"/", []⟩
  /-- The database. -/
  db : Option Database := none
  /-- The definition. -/
  definition : Option Definition := none
  /-- The rows of the page. -/
  renderedStatements : Option (List Row) := none
  /-- What was made of the page. -/
  pageResult : Option PageResult := none

/-- The state that a run starts in. -/
def RunState.ofOptions (o : Options) (inputdir outputdir : Path) : RunState :=
  { inputdir, outputdir
    verbosity := o.verbosity
    database := o.database
    format := o.format
    renderer := o.renderer
    label := o.labels
    checkSts := o.checkSts
    outputFile := o.outputFile }

end Typeset
