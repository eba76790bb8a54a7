import Typeset.Path
import Typeset.Table
import Typeset.Text.Basic

/-!
# File trees

What a run sees of the files around it: the directories and files below its
working directory, and those that it makes elsewhere. A path is followed name
by name, and every name but the last has to be that of a directory, also one
that two dots leave again. Names and paths have a greatest length, and no name
holds a null character.
-/

namespace Typeset

/-- Where names are counted from. -/
inductive Origin where
  /-- So many levels above the working directory. -/
  | above (levels : Nat)
  /-- The root of all files. -/
  | root
deriving DecidableEq, Repr

/-- A place in a file tree. -/
structure Location where
  /-- Where the names begin. -/
  origin : Origin
  /-- The names from there on, none of them two dots. -/
  names : List String := []
deriving DecidableEq, Repr

/-- What stands at a place. -/
inductive FileEntry where
  /-- A directory. -/
  | directory
  /-- A file with its bytes. -/
  | file (bytes : ByteArray)

/-- What can be wrong with a path. -/
inductive FileError where
  /-- Nothing stands there. -/
  | notFound
  /-- A file stands where a directory has to. -/
  | notADirectory
  /-- A directory stands where a file has to. -/
  | isADirectory
  /-- Something stands there already. -/
  | alreadyThere
  /-- The bytes of the file encode no text. -/
  | notText
  /-- A name or the whole path is longer than any that there can be. -/
  | tooLong
  /-- A null character is in the path. -/
  | nullCharacter
deriving DecidableEq, Repr

/-- The directories and files of a run. Origins are always directories. -/
structure FileTree where
  /-- What stands at each place. -/
  entries : Table Location FileEntry := .empty

namespace FileTree

/-- The place that a path is followed from. -/
def start (p : Path) : Location := ⟨if p.root == "" then .above 0 else .root, []⟩

/-- The directory that a directory is in. The root is in itself. -/
def up (l : Location) : Location :=
  if l.names.isEmpty then
    match l.origin with
    | .above n => ⟨.above (n + 1), []⟩
    | .root => l
  else { l with names := l.names.dropLast }

/-- The place of a name in a directory. -/
def below (l : Location) (name : String) : Location := { l with names := l.names ++ [name] }

/-- The greatest number of bytes in a name. -/
def nameLimit : Nat := 255

/-- The greatest number of bytes in the text of a path. -/
def pathLimit : Nat := 4095

/-- Goes from a directory to a directory in it. -/
def enter (t : FileTree) (l : Location) (name : String) : Except FileError Location :=
  if name == ".." then .ok (up l)
  else if nameLimit < name.utf8ByteSize then .error .tooLong
  else
    match t.entries.get? (below l name) with
    | none => .error .notFound
    | some .directory => .ok (below l name)
    | some (.file _) => .error .notADirectory

/-- The directory that the last name of a path is looked for in. -/
def directoryOf (t : FileTree) (p : Path) : Except FileError Location :=
  p.names.dropLast.foldlM t.enter (start p)

/-- What the last name of a path means. -/
inductive Last where
  /-- A directory that is there in any case. -/
  | standing
  /-- A place, at which anything or nothing may stand. -/
  | at (l : Location)

/-- Whether a null character is in a path. -/
def holdsNull (p : Path) : Bool := p.names.any fun name => name.toList.contains '\x00'

/-- Follows a path up to its last name. -/
def follow (t : FileTree) (p : Path) : Except FileError Last := do
  if holdsNull p then throw .nullCharacter
  if pathLimit < p.toString.utf8ByteSize then throw .tooLong
  match p.names.getLast? with
  | none => return .standing
  | some name =>
    let dir ← t.directoryOf p
    if name == ".." then return .standing
    if nameLimit < name.utf8ByteSize then throw .tooLong
    return .at (below dir name)

/-- What stands at the end of a path. -/
def find (t : FileTree) (p : Path) : Except FileError FileEntry := do
  match ← t.follow p with
  | .standing => return .directory
  | .at l =>
    match t.entries.get? l with
    | some entry => return entry
    | none => throw .notFound

/-- What stands at the end of a path, none if it leads nowhere. Of a path that
is too long nothing can be said. -/
def find? (t : FileTree) (p : Path) : Except FileError (Option FileEntry) :=
  match t.find p with
  | .ok entry => .ok (some entry)
  | .error .tooLong => .error .tooLong
  | .error _ => .ok none

/-- Whether something stands at the end of a path. -/
def isThere (t : FileTree) (p : Path) : Except FileError Bool := (t.find? p).map (·.isSome)

/-- Whether a directory stands at the end of a path. -/
def isDirectory (t : FileTree) (p : Path) : Except FileError Bool :=
  (t.find? p).map fun
    | some .directory => true
    | _ => false

/-- The text of the file at the end of a path. -/
def readText (t : FileTree) (p : Path) : Except FileError (List Char) := do
  match ← t.find p with
  | .directory => throw .isADirectory
  | .file bytes =>
    match Text.decode? bytes with
    | some text => return text
    | none => throw .notText

/-- Makes one directory. -/
def makeDirectory (t : FileTree) (p : Path) : Except FileError FileTree := do
  match ← t.follow p with
  | .standing => throw .alreadyThere
  | .at l =>
    if t.entries.contains l then throw .alreadyThere
    return ⟨t.entries.set l .directory⟩

/-- Makes one directory, unless it is there already. -/
def ensureDirectory (t : FileTree) (p : Path) : Except FileError FileTree :=
  match t.makeDirectory p with
  | .ok t => .ok t
  | .error .notFound => .error .notFound
  | .error e => do
    if ← t.isDirectory p then return t
    throw e

/-- Makes the directory that consists of the first `n` names of a path, and
the directories it is in, unless they are there already. -/
def ensureFirst (p : Path) : Nat → FileTree → Except FileError FileTree
  | 0, t => t.ensureDirectory { p with names := [] }
  | n + 1, t =>
    let q := { p with names := p.names.take (n + 1) }
    match t.ensureDirectory q with
    | .error .notFound => do
      let t ← ensureFirst p n t
      t.ensureDirectory q
    | result => result

/-- Makes a directory and the directories it is in, unless they are there
already. -/
def ensureDirectories (t : FileTree) (p : Path) : Except FileError FileTree :=
  ensureFirst p p.names.length t

/-- Makes a directory, which must not be there yet, and the directories it is
in, unless they are there already. -/
def makeDirectories (t : FileTree) (p : Path) : Except FileError FileTree :=
  match t.makeDirectory p with
  | .error .notFound => do
    let t ← t.ensureDirectories p.parent
    t.makeDirectory p
  | result => result

/-- Writes a text to the file at the end of a path, whose directory has to be
there. -/
def writeText (t : FileTree) (p : Path) (text : String) : Except FileError FileTree := do
  match ← t.follow p with
  | .standing => throw .isADirectory
  | .at l =>
    match t.entries.get? l with
    | some .directory => throw .isADirectory
    | _ => return ⟨t.entries.set l (.file (Text.encode text))⟩

/-- The place that a path means when all its names but two dots are taken to
be those of directories. -/
def locate (p : Path) : Location :=
  p.names.foldl (fun l name => if name == ".." then up l else below l name) (start p)

/-- Records what stands at the end of a path, and that the names before are
those of directories. -/
def record (t : FileTree) (p : Path) (entry : FileEntry) : FileTree :=
  let l := locate p
  let made := (List.range (l.names.length - 1)).foldl
    (fun entries n => entries.set { l with names := l.names.take (n + 1) } .directory) t.entries
  if l.names.isEmpty then t else ⟨made.set l entry⟩

/-- The files below a directory of the working directory, with their paths
and their bytes, in the order in which they were made. -/
def filesBelow (t : FileTree) (directory : List String) : List (Path × ByteArray) :=
  t.entries.entries.filterMap fun (l, entry) =>
    match entry with
    | .directory => none
    | .file bytes =>
      if l.origin = .above 0 ∧ directory.isPrefixOf l.names ∧ directory.length < l.names.length then
        some (⟨"", l.names⟩, bytes)
      else none

end FileTree

end Typeset
