import Typeset.Run.Pipeline

/-!
# The program

Takes the command line, looks at the files that a run may need, lets the run
take its course on what was seen, and does in the world what the run did: it
makes the directory of the page, writes the page, and prints what was noted
and said.
-/

namespace Typeset.Program

/-- What is shown to those who ask how the program is used. -/
def usage : String :=
  "usage: typeset [--database FILE] [--format NAME] [--renderer ascii|uni|sts]\n" ++
  "               [--label LABEL]... [--checkSts] [--outputFile FILE] [-v]...\n" ++
  "               inputdir outputdir\n"

/-- The variables of the environment that hold settings. -/
def settingNames : List String :=
  ["STS_PROVABLE_TYPECODE", "STS_LOGIC_TYPECODE", "STS_DISPLAY_PLACEHOLDER",
    "STS_VARIABLE_DELIMITER", "STS_DEFAULT_DISPLAY", "STS_DEFAULT_HEADER",
    "STS_DEFINITION_EXTENSION", "STS_STRICT_MODE"]

/-- The settings that the environment gives. -/
def environment : IO (Except Settings.EnvironmentError Settings) := do
  let given ← settingNames.filterMapM fun name => do
    return (← IO.getEnv name).map (name, ·)
  return Settings.ofEnvironment given

/-- Looks at what stands at the end of a path. -/
def look (files : FileTree) (p : Path) : IO FileTree := do
  try
    let bytes ← IO.FS.readBinFile p.toString
    return files.record p (.file bytes)
  catch
    | .noFileOrDirectory .. => return files
    | _ => return files.record p .directory

/-- Looks at all that a run may need. -/
def survey (settings : Settings) (o : Options) (inputdir outputdir : Path) : IO FileTree := do
  let database := inputdir.join (.ofString o.database.toText)
  let definition := (settings.definitionPath database.toString o.format.toText).toOption.toList
  (inputdir :: outputdir :: database :: definition).foldlM look {}

/-- Writes the page that a run has made, if it has. -/
def deliver (outputdir : Path) (f : Finished) : IO Unit := do
  if f.world.files.isDirectory outputdir matches .ok true then
    IO.FS.createDirAll outputdir.toString
  for (_, s) in f.stages.getLast? do
    for result in s.pageResult do
      match f.world.files.find result.outputFile with
      | .ok (.file bytes) => IO.FS.writeBinFile result.outputFile.toString bytes
      | _ => pure ()

/-- A note as it is printed. -/
def line (n : Note) : String :=
  let importance := match n.importance with
    | .warning => "WARNING"
    | .detail _ => "DEBUG"
  importance ++ " | " ++ n.sourceName ++ " | " ++ n.message

/-- Lets a run take its course; returns its exit code. -/
def execute (o : Options) (inputdir outputdir : Path) : IO UInt32 := do
  match ← environment with
  | .error _ =>
    IO.eprintln "STS_STRICT_MODE is no switch"
    return 1
  | .ok settings =>
    let files ← survey settings o inputdir outputdir
    let finished := runWith settings o true inputdir outputdir { files }
    deliver outputdir finished
    for n in finished.world.notes.filter (·.isKept (some o.verbosity)) do IO.eprintln (line n)
    IO.eprint finished.world.printed
    return (finished.exitCode.getD 1).toUInt32

end Typeset.Program

/-- Typesets the statements of a database. -/
def main (words : List String) : IO UInt32 := do
  match Typeset.Options.parse 2 words with
  | .run o [inputdir, outputdir] =>
    Typeset.Program.execute o (.ofString inputdir) (.ofString outputdir)
  | .message =>
    IO.println Typeset.Program.usage
    return 0
  | _ =>
    IO.eprint Typeset.Program.usage
    return 2
