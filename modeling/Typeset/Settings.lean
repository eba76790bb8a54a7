import Typeset.Path
import Typeset.Table

/-!
# Settings

What a run takes for granted about its database and its definition file: the
typecodes with a part to play, the marks that templates use, and what stands
in for strings that a definition file leaves out. Each setting may be given by
an environment variable.
-/

namespace Typeset

/-- The conventions of a run. -/
structure Settings where
  /-- The typecode of provable statements. -/
  provableTypecode : String := "|-"
  /-- The typecode that provable statements are read as. -/
  logicTypecode : String := "wff"
  /-- The mark in a display string that the rendered formula replaces. -/
  displayPlaceholder : String := "###"
  /-- What stands on both sides of a variable in a template. -/
  variableDelimiter : String := "#"
  /-- The display string of a definition file that has none. -/
  defaultDisplay : String := "###"
  /-- The page header of a definition file that has none. -/
  defaultHeader : String :=
    "<script src=\"https://polyfill.io/v3/polyfill.min.js?features=es6\"></script>\n" ++
    "<script id=\"MathJax-script\" async " ++
    "src=\"https://cdn.jsdelivr.net/npm/mathjax@3/es5/tex-mml-chtml.js\"></script>"
  /-- The extension of definition files. -/
  definitionExtension : String := "mmts"
  /-- Whether a scheme that fails to compile stops the load. -/
  strictMode : Bool := false
deriving DecidableEq, Repr

namespace Settings

/-- Reads a switch, in any case of its letters. -/
def readSwitch (s : String) : Option Bool :=
  let word := s.toLower
  if ["1", "true", "t", "yes", "y", "on"].contains word then some true
  else if ["0", "false", "f", "no", "n", "off"].contains word then some false
  else none

/-- What can be wrong with an environment. -/
inductive EnvironmentError where
  /-- The value of the strict mode is no switch. -/
  | notASwitch (value : String)
deriving DecidableEq, Repr

/-- The settings that environment variables give. A variable is the name of a
setting after `STS_`, in any case of its letters; other variables say nothing. -/
def ofEnvironment (entries : List (String × String)) : Except EnvironmentError Settings :=
  let given := Table.ofList (entries.map fun v => (v.1.toLower, v.2))
  let text := fun (name default : String) => (given.get? ("sts_" ++ name)).getD default
  let standard : Settings := {}
  let settings : Settings :=
    { provableTypecode := text "provable_typecode" standard.provableTypecode
      logicTypecode := text "logic_typecode" standard.logicTypecode
      displayPlaceholder := text "display_placeholder" standard.displayPlaceholder
      variableDelimiter := text "variable_delimiter" standard.variableDelimiter
      defaultDisplay := text "default_display" standard.defaultDisplay
      defaultHeader := text "default_header" standard.defaultHeader
      definitionExtension := text "definition_extension" standard.definitionExtension }
  match given.get? "sts_strict_mode" with
  | none => .ok settings
  | some value =>
    match readSwitch value with
    | some strict => .ok { settings with strictMode := strict }
    | none => .error (.notASwitch value)

/-- The placeholder of a variable in a template. -/
def placeholder (s : Settings) (variableName : String) : String :=
  s.variableDelimiter ++ variableName ++ s.variableDelimiter

/-- A path that names no database file. -/
structure NameError where
  /-- The text of the path. -/
  path : String
deriving DecidableEq, Repr

/-- What is said about a path that names no database file. -/
def NameError.message (e : NameError) : String :=
  "Could not parse database file name: " ++ e.path

/-- Splits a text behind its last slash. -/
def splitName (s : List Char) : List Char × List Char :=
  let name := (s.reverse.takeWhile (· != '/')).reverse
  (s.take (s.length - name.length), name)

/-- The name of a database without its extension. One line feed at the very
end is no part of it. -/
def stem? (name : List Char) : Option (List Char) :=
  let name := if name.getLast? = some '\n' then name.dropLast else name
  let stem := name.take (name.length - 3)
  if stem ++ ".mm".toList = name ∧ stem ≠ [] then some stem else none

/-- Whether a directory may stand before a database name: none at all, or one
of at least one character and no line feed before its last slash. -/
def isDirectory (directory : List Char) : Bool :=
  directory.isEmpty || (2 ≤ directory.length && !directory.contains '\n')

/-- The path of the definition file that belongs to a database and a format:
it stands beside the database, under the database's name, the format and the
extension of definition files. -/
def definitionPath (s : Settings) (database format : String) : Except NameError Path :=
  let (directory, name) := splitName database.toList
  match stem? name with
  | some stem =>
    if isDirectory directory then
      .ok (.ofString (String.ofList (directory ++ stem) ++ "-" ++ format ++ "." ++
        s.definitionExtension))
    else .error ⟨database⟩
  | none => .error ⟨database⟩

end Settings

end Typeset
