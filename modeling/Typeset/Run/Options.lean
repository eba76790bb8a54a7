import Typeset.Text.Basic

/-!
# Command line options

A command line is a list of words: options, and as many arguments besides as
the program wants. A word that begins with a dash names an option, in full or
by a beginning that no other option shares; a value stands in the next word or
behind an equals sign. Options without a value may be written together behind
one dash. Words that look like negative numbers or hold a blank are values
even behind a dash, and after a word of two dashes alone every word is one.
Two dashes as the value behind an equals sign stand for no text at all.
Everything else is refused.
-/

namespace Typeset

/-- The value of an option. -/
inductive OptionValue where
  /-- A text. -/
  | text (s : String)
  /-- No text: neither a path nor a label, though it can be shown. -/
  | nothing
deriving DecidableEq, Repr

namespace OptionValue

/-- The text of a value, if it has one. -/
def text? : OptionValue → Option String
  | text s => some s
  | nothing => none

/-- A value as it is shown within a text. -/
def toText : OptionValue → String
  | text s => s
  | nothing => "[]"

/-- The value that stands behind an equals sign. -/
def ofAttached (s : List Char) : OptionValue :=
  if s = ['-', '-'] then nothing else text (String.ofList s)

end OptionValue

/-- What a command line asks for. -/
structure Options where
  /-- The database file, relative to the input directory. -/
  database : OptionValue
  /-- The format, which selects the definition file. -/
  format : OptionValue := .text "mathml"
  /-- The key of the backend. -/
  renderer : OptionValue := .text "sts"
  /-- The statements to render, all assertions if there are none. -/
  labels : List OptionValue := []
  /-- Whether the definition is checked. -/
  checkSts : Bool := false
  /-- The name of the page. -/
  outputFile : OptionValue := .text "index.html"
  /-- How much is noted. -/
  verbosity : Nat := 1
deriving DecidableEq, Repr

namespace Options

/-- What an option sets. -/
inductive Key where
  /-- The database. -/
  | database
  /-- The format. -/
  | format
  /-- The backend. -/
  | renderer
  /-- One more statement. -/
  | label
  /-- The check. -/
  | checkSts
  /-- The page. -/
  | outputFile
  /-- One more level of notes. -/
  | verbosity
  /-- Shows how the program is used. -/
  | help
  /-- Shows which program it is. -/
  | version
deriving DecidableEq, Repr

/-- Whether an option takes a value. -/
def Key.takesValue : Key → Bool
  | checkSts | verbosity | help | version => false
  | _ => true

/-- The names of the options. -/
def names : List (String × Key) :=
  [("-h", .help), ("--help", .help), ("--database", .database), ("--format", .format),
    ("--renderer", .renderer), ("--label", .label), ("--checkSts", .checkSts),
    ("--outputFile", .outputFile), ("-v", .verbosity), ("--verbosity", .verbosity),
    ("-V", .version), ("--version", .version)]

/-- What comes with the name of an option in its own word. -/
inductive Attached where
  /-- Nothing. -/
  | nothing
  /-- A value behind an equals sign. -/
  | value (s : List Char)
  /-- More letters behind a dash and a letter, at least one. -/
  | letters (s : List Char)
deriving DecidableEq, Repr

/-- How a word of the command line is taken. -/
inductive Reading where
  /-- A value. -/
  | value
  /-- An option. -/
  | option (key : Key) (attached : Attached)
  /-- A beginning that several options share. -/
  | ambiguous
  /-- An option that there is not. -/
  | unknown
deriving DecidableEq, Repr

/-- Whether a word looks like a negative number: a dash, digits of any script,
and perhaps a point with digits behind it. One line feed at the very end does
not count. -/
def isNegativeNumber (s : List Char) : Bool :=
  match if s.getLast? = some '\n' then s.dropLast else s with
  | '-' :: rest =>
    let digits := rest.takeWhile Text.isDecimalDigit
    match rest.dropWhile Text.isDecimalDigit with
    | [] => !digits.isEmpty
    | '.' :: fraction => !fraction.isEmpty && fraction.all Text.isDecimalDigit
    | _ => false
  | _ => false

/-- Cuts a word at its first equals sign. -/
def cutAtEquals (s : List Char) : List Char × Attached :=
  match s.dropWhile (· != '=') with
  | _ :: value => (s.takeWhile (· != '='), .value value)
  | [] => (s, .nothing)

/-- The option with a name. -/
def keyOf? (name : List Char) : Option Key := names.lookup (String.ofList name)

/-- The options that letters stand for, none if one of them stands for none. -/
def keysOf? (letters : List Char) : Option (List Key) := letters.mapM fun c => keyOf? ['-', c]

/-- What an equals sign behind a name attaches. Behind a dash and a letter it
introduces more letters as well as a value. -/
def Attached.afterName (name value : List Char) : Attached :=
  if name.length = 2 ∧ value ≠ [] then .letters value else .value value

/-- The options that a word may mean: with two dashes those that it is a
beginning of, up to an equals sign; with one dash the one whose letter it
begins with. -/
def begun (s : List Char) : List (Key × Attached) :=
  match s with
  | '-' :: '-' :: _ =>
    let (beginning, attached) := cutAtEquals s
    names.filterMap fun (name, key) =>
      if beginning.isPrefixOf name.toList then some (key, attached) else none
  | '-' :: letter :: more =>
    names.filterMap fun (name, key) =>
      if name.toList = ['-', letter] then some (key, .letters more) else none
  | _ => []

/-- Takes a word of the command line. -/
def read (word : String) : Reading :=
  let s := word.toList
  if s.head? ≠ some '-' then .value
  else
    match keyOf? s with
    | some key => .option key .nothing
    | none =>
      if s.length = 1 then .value
      else
        let (name, attached) := cutAtEquals s
        match keyOf? name, attached with
        | some key, .value v => .option key (.afterName name v)
        | _, _ =>
          match begun s with
          | [(key, attached)] => .option key attached
          | _ :: _ :: _ => .ambiguous
          | [] => if isNegativeNumber s || s.contains ' ' then .value else .unknown

/-- How taking a command line ends. -/
inductive Outcome where
  /-- The command line asks for a run, with arguments besides the options. -/
  | run (o : Options) (arguments : List String)
  /-- The command line is refused. -/
  | refused
  /-- The command line asks for a message only. -/
  | message
deriving DecidableEq, Repr

/-- What was taken of a command line so far. -/
structure Taken where
  /-- The database, once it was given. -/
  database : Option OptionValue := none
  /-- The other options. -/
  options : Options := { database := .nothing }
  /-- The words that are no options. -/
  arguments : List String := []
  /-- Whether two dashes were taken, so that no option follows. -/
  closed : Bool := false
  /-- The option that waits for its value. -/
  waiting : Option Key := none
  /-- Whether a word had no place. -/
  misplaced : Bool := false
deriving DecidableEq, Repr

/-- Whether a value may choose the backend. A value without a text is not
looked at here. -/
def isRendererChoice (value : OptionValue) : Bool :=
  value.text?.all fun s => ["ascii", "uni", "sts"].contains s

/-- Sets an option to a value, which may be refused. -/
def Taken.setValue (t : Taken) (key : Key) (value : OptionValue) : Except Outcome Taken :=
  let o := t.options
  let t := { t with waiting := none }
  match key with
  | .database => .ok { t with database := some value }
  | .format => .ok { t with options := { o with format := value } }
  | .renderer =>
    if isRendererChoice value then
      .ok { t with options := { o with renderer := value } }
    else .error .refused
  | .label => .ok { t with options := { o with labels := o.labels ++ [value] } }
  | .outputFile => .ok { t with options := { o with outputFile := value } }
  | .checkSts | .verbosity | .help | .version => .error .refused

/-- Sets an option that takes no value, or ends with a message. -/
def Taken.setFlag (t : Taken) (key : Key) : Except Outcome Taken :=
  let o := t.options
  match key with
  | .checkSts => .ok { t with options := { o with checkSts := true } }
  | .verbosity => .ok { t with options := { o with verbosity := o.verbosity + 1 } }
  | _ => .error .message

/-- Takes an option with what is attached to it. -/
def Taken.setOption (t : Taken) (key : Key) (attached : Attached) : Except Outcome Taken :=
  if key.takesValue then
    match attached with
    | .value v | .letters v => t.setValue key (.ofAttached v)
    | .nothing => .ok { t with waiting := some key }
  else
    match attached with
    | .value _ => .error .refused
    | .letters more =>
      match keysOf? more with
      | some keys => (key :: keys).foldlM Taken.setFlag t
      | none => .error .refused
    | .nothing => t.setFlag key

/-- Takes the next word of a command line. -/
def Taken.step (t : Taken) (word : String) : Except Outcome Taken :=
  if t.closed then .ok { t with arguments := t.arguments ++ [word] }
  else if word = "--" then
    if t.waiting.isSome then .error .refused else .ok { t with closed := true }
  else
    match t.waiting, read word with
    | some key, .value => t.setValue key (.text word)
    | some _, _ => .error .refused
    | none, .value => .ok { t with arguments := t.arguments ++ [word] }
    | none, .unknown => .ok { t with misplaced := true }
    | none, .ambiguous => .error .refused
    | none, .option key attached => t.setOption key attached

/-- Takes the end of a command line: no option may wait for its value, no word
may be without a place, the database has to be given, and there have to be as
many arguments as are wanted. Where none is wanted, two dashes have no place. -/
def Taken.finish (wanted : Nat) (t : Taken) : Outcome :=
  match t.database with
  | some database =>
    if t.waiting.isSome || t.misplaced || t.arguments.length != wanted ||
        (t.closed && wanted == 0) then .refused
    else .run { t.options with database := database } t.arguments
  | none => .refused

/-- Takes a command line with the wanted number of arguments. One with an
ambiguous word is refused, whatever the words before it ask for. -/
def parse (wanted : Nat) (words : List String) : Outcome :=
  if (words.takeWhile (· != "--")).any fun w => read w == .ambiguous then .refused
  else
    match words.foldlM Taken.step {} with
    | .ok t => t.finish wanted
    | .error outcome => outcome

end Options

end Typeset
