/-!
# Records of a run's fields

A record has a value for every field of a run's state. It is made from the
usual values and from choices: a field that is chosen has the chosen value
just as it was given, and every other field keeps its usual one. The two
directories are not a matter of choice. A record may be copied, and the copy
set anew field by field; the list of labels is the one value that both have
in common.
-/

namespace Typeset

/-- The fields of a run's state. -/
inductive Field where
  /-- The directory of the database and the definition file. -/
  | inputdir
  /-- The directory of the page. -/
  | outputdir
  /-- How much is noted. -/
  | verbosity
  /-- The database file, relative to its directory. -/
  | database
  /-- The format. -/
  | format
  /-- The key of the backend. -/
  | renderer
  /-- The statements to render. -/
  | label
  /-- Whether the definition is checked. -/
  | checkSts
  /-- The name of the page. -/
  | outputFile
  /-- Whether the files were found. -/
  | envOK
  /-- The path of the database file. -/
  | databaseFile
  /-- The path of the definition file. -/
  | definitionFile
  /-- The database. -/
  | db
  /-- The definition. -/
  | definition
  /-- The rows of the page. -/
  | renderedStatements
  /-- What was made of the page. -/
  | pageResult
deriving DecidableEq, Repr

namespace Field

/-- All fields. -/
def all : List Field :=
  [inputdir, outputdir, verbosity, database, format, renderer, label, checkSts, outputFile, envOK,
    databaseFile, definitionFile, db, definition, renderedStatements, pageResult]

/-- The name of a field. -/
def name : Field → String
  | inputdir => "inputdir"
  | outputdir => "outputdir"
  | verbosity => "verbosity"
  | database => "database"
  | format => "format"
  | renderer => "renderer"
  | label => "label"
  | checkSts => "checkSts"
  | outputFile => "outputFile"
  | envOK => "envOK"
  | databaseFile => "databaseFile"
  | definitionFile => "definitionFile"
  | db => "db"
  | definition => "definition"
  | renderedStatements => "renderedStatements"
  | pageResult => "pageResult"

/-- No field is missing from the list of all. -/
theorem mem_all (f : Field) : f ∈ all := by cases f <;> decide

/-- The field with a name. -/
def ofName? (s : String) : Option Field := all.find? fun f => f.name == s

/-- A field is found by its name. -/
@[simp] theorem ofName?_name (f : Field) : ofName? f.name = some f := by cases f <;> decide

/-- Whether a field holds a directory of the run. -/
def isDirectory : Field → Bool
  | inputdir | outputdir => true
  | _ => false

end Field

/-- A value for every field. -/
abbrev Record (ν : Type) := Field → ν

namespace Record

variable {ν : Type}

/-- Sets a field. -/
def set (r : Record ν) (f : Field) (v : ν) : Record ν := fun g => if g = f then v else r g

/-- Sets fields one after the other. -/
def assign (r : Record ν) (values : List (Field × ν)) : Record ν :=
  values.foldl (fun r v => r.set v.1 v.2) r

/-- The usual values, but for the fields that were chosen. -/
def create (usual : Record ν) (choices : List (Field × ν)) : Record ν :=
  usual.assign (choices.filter fun c => !c.1.isDirectory)

end Record

/-- A record and a copy of it. Both have one list of labels, which may grow,
until the copy is given a list of its own. -/
structure CopiedRecord (ν : Type) where
  /-- The record. -/
  source : Record ν
  /-- The copy. -/
  copy : Record ν
  /-- Whether both still have one list of labels. -/
  sharesLabels : Bool := true

namespace CopiedRecord

variable {ν : Type}

/-- Copies a record. -/
def of (r : Record ν) : CopiedRecord ν := ⟨r, r, true⟩

/-- Sets fields of the copy. -/
def assign (p : CopiedRecord ν) (values : List (Field × ν)) : CopiedRecord ν :=
  { p with
    copy := p.copy.assign values
    sharesLabels := p.sharesLabels && values.all fun v => v.1 != .label }

/-- Lets the copy's list of labels grow to a longer one. -/
def growLabels (p : CopiedRecord ν) (longer : ν) : CopiedRecord ν :=
  { p with
    copy := p.copy.set .label longer
    source := if p.sharesLabels then p.source.set .label longer else p.source }

end CopiedRecord

end Typeset
