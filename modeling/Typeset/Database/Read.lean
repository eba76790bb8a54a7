import Typeset.Database.Basic
import Typeset.Database.Markup
import Typeset.Text.Basic

/-!
# Reading a database

A source is read word by word. Outside of everything a word may open a
comment, a list of symbols or a statement, open or close a block, or be a
label, which the next statement takes as its own. Inside a list or a
statement every word but the closing one is a symbol. Blocks matter for
essential hypotheses alone: an assertion rests on those that were declared
before it in its own block or in one around it.

The reader is a fold of one step over the words, so that reading two texts
one after the other is reading the first and going on with the second.
-/

namespace Typeset

/-- What can be wrong with the source of a database. -/
inductive ReadCause where
  /-- A block ends that was never opened. -/
  | unbalancedBlock
  /-- A statement has no label before it. -/
  | unlabelled (keyword : String)
  /-- A word that begins like a keyword is none, or stands in a wrong place. -/
  | unsupported (word : String)
  /-- What a word opened is not closed. -/
  | unclosed (opener : String)
  /-- A statement has no math. -/
  | noTypecode (label : Label)
  /-- A floating hypothesis has not exactly one symbol after its typecode. -/
  | notOneVariable (label : Label)
  /-- A block is open at the end. -/
  | openBlock
deriving DecidableEq, Repr

/-- An error in the source of a database. -/
structure ReadError where
  /-- What is wrong. -/
  cause : ReadCause
  /-- The line of the word that is to blame. -/
  line : Nat
deriving DecidableEq, Repr

/-- The word that closes what another word opened. -/
def closerOf (opener : String) : String := if opener == "$(" then "$)" else "$."

/-- What is said about a cause. -/
def ReadCause.message : ReadCause → String
  | unbalancedBlock => "Unbalanced $\x7d"
  | unlabelled keyword => "Statement " ++ keyword ++ " without label"
  | unsupported word => "Unsupported keyword " ++ word
  | unclosed opener => "Missing " ++ closerOf opener ++ " after " ++ opener
  | noTypecode label => "Statement " ++ label ++ " has no typecode"
  | notOneVariable label => "Floating hypothesis " ++ label ++ " must name one variable"
  | openBlock => "Missing $\x7d at end of database"

/-- What is said about an error, with its line. -/
def ReadError.message (e : ReadError) : String :=
  e.cause.message ++ " (line " ++ toString e.line ++ ")"

namespace Database

/-- The lists of symbols a source may hold. -/
inductive SymbolList where
  /-- Declares constants. -/
  | ofConstants
  /-- Declares variables. -/
  | ofVariables
  /-- Asks that variables be kept apart; says nothing here. -/
  | ofDisjoint
deriving DecidableEq, Repr

/-- The word that opens a list. -/
def SymbolList.keyword : SymbolList → String
  | ofConstants => "$c"
  | ofVariables => "$v"
  | ofDisjoint => "$d"

/-- The list that a word opens. -/
def SymbolList.ofKeyword? (s : String) : Option SymbolList :=
  [ofConstants, ofVariables, ofDisjoint].find? fun k => k.keyword == s

/-- What the reader is inside of, with the line where that was opened. -/
inductive Place where
  /-- Outside of everything. -/
  | outside
  /-- Inside a comment, with its words so far, the last one first. -/
  | comment (opened : Nat) (read : List Text.Word)
  /-- Inside a list, with its symbols so far. -/
  | symbols (list : SymbolList) (opened : Nat) (read : List Symbol)
  /-- Inside a statement, with its words so far. -/
  | statement (kind : StatementKind) (label : Label) (opened : Nat) (read : List Symbol)
deriving DecidableEq, Repr

/-- The state of the reader between two words. -/
structure Reader where
  /-- What was declared so far. -/
  database : Database
  /-- The line that the last word stood on. -/
  line : Nat := 1
  /-- The label that waits for its statement. -/
  label : Option Label := none
  /-- The essential hypotheses of the open blocks, the innermost block first
  and the text outside of blocks last. -/
  blocks : List (List Label) := [[]]
  /-- What the reader is inside of. -/
  place : Place := .outside
deriving DecidableEq, Repr

/-- Adds a typecode to those of the grammar. -/
def addTypecode (db : Database) (tc : Typecode) : Database :=
  if tc == db.provable || db.typecodes.contains tc then db
  else { db with typecodes := db.typecodes ++ [tc] }

/-- Adds a statement, and what it declares to the grammar: a floating
hypothesis its variable, an axiom that is not provable a rule. -/
def addStatement (db : Database) (s : Statement) : Except ReadCause Database :=
  match s.math with
  | [] => .error (.noTypecode s.label)
  | tc :: body =>
    let stored := { db with statements := db.statements.set s.label s }
    match s.kind, body with
    | .floating, [v] =>
      let hypothesis : Floating := ⟨s.label, tc, v⟩
      .ok ({ stored with
        floatings := stored.floatings.set s.label hypothesis
        grammar := stored.grammar.addVariable hypothesis }.addTypecode tc)
    | .floating, _ => .error (.notOneVariable s.label)
    | .axiomatic, _ =>
      if tc == db.provable then .ok stored
      else .ok ({ stored with grammar := stored.grammar.addRule tc ⟨s.label, body⟩ }.addTypecode tc)
    | _, _ => .ok stored

/-- Adds the symbols of a list. -/
def addSymbols (db : Database) (list : SymbolList) (symbols : List Symbol) : Database :=
  match list with
  | .ofConstants => { db with constants := db.constants ++ symbols }
  | .ofVariables => { db with variableSymbols := db.variableSymbols ++ symbols }
  | .ofDisjoint => db

/-- Adds the markup that a comment defines. -/
def addMarkup (db : Database) (comment : List Char) : Database :=
  { db with
    symbolMarkup := (definitionsOfComment comment).foldl
      (fun t d => t.set d.symbol d.markup) db.symbolMarkup }

namespace Reader

/-- The essential hypotheses of all open blocks, the outermost block first. -/
def inScope (r : Reader) : List Label := r.blocks.reverse.flatten

/-- Declares an essential hypothesis in the innermost block. -/
def addHypothesis (l : Label) : List (List Label) → List (List Label)
  | [] => [[l]]
  | block :: outer => (block ++ [l]) :: outer

/-- Ends a statement: its math is what was read up to the proof. -/
def endStatement (r : Reader) (kind : StatementKind) (label : Label) (opened : Nat)
    (read : List Symbol) : Except ReadError Reader :=
  match r.database.addStatement ⟨label, kind, read.takeWhile (· != "$=")⟩ with
  | .error cause => .error ⟨cause, opened⟩
  | .ok db =>
    let r := { r with database := db, label := none, place := .outside }
    match kind with
    | .floating => .ok r
    | .essential => .ok { r with blocks := addHypothesis label r.blocks }
    | .axiomatic | .provable =>
      .ok { r with database := { db with hypotheses := db.hypotheses.set label r.inScope } }

/-- Takes a word that stands outside of everything. -/
def stepOutside (r : Reader) (word : String) : Except ReadError Reader :=
  if word == "$(" then .ok { r with place := .comment r.line [] }
  else if word == "$\x7b" then .ok { r with blocks := [] :: r.blocks }
  else if word == "$\x7d" then
    match r.blocks with
    | _ :: outer :: more => .ok { r with blocks := outer :: more }
    | _ => .error ⟨.unbalancedBlock, r.line⟩
  else
    match SymbolList.ofKeyword? word, StatementKind.ofKeyword? word with
    | some list, _ => .ok { r with place := .symbols list r.line [] }
    | none, some kind =>
      match r.label with
      | some label => .ok { r with place := .statement kind label r.line [] }
      | none => .error ⟨.unlabelled word, r.line⟩
    | none, none =>
      if word.toList.head? == some '$' then .error ⟨.unsupported word, r.line⟩
      else .ok { r with label := some word }

/-- Takes the next word of the source. -/
def step (r : Reader) (w : Text.Word) : Except ReadError Reader :=
  let r := { r with line := r.line + Text.lineFeeds w.gap }
  let word := String.ofList w.text
  match r.place with
  | .outside => r.stepOutside word
  | .comment opened read =>
    if word == "$)" then
      let text := read.reverse.flatMap fun w => w.gap ++ w.text
      .ok { r with database := r.database.addMarkup (text ++ w.gap), place := .outside }
    else .ok { r with place := .comment opened (w :: read) }
  | .symbols list opened read =>
    if word == "$." then
      .ok { r with database := r.database.addSymbols list read, place := .outside }
    else .ok { r with place := .symbols list opened (read ++ [word]) }
  | .statement kind label opened read =>
    if word == "$." then r.endStatement kind label opened read
    else .ok { r with place := .statement kind label opened (read ++ [word]) }

/-- Takes the end of the source, which stands on the given line: everything
has to be closed. -/
def finish (r : Reader) (line : Nat) : Except ReadError Database :=
  match r.place with
  | .comment opened _ => .error ⟨.unclosed "$(", opened⟩
  | .symbols list opened _ => .error ⟨.unclosed list.keyword, opened⟩
  | .statement kind _ opened _ => .error ⟨.unclosed kind.keyword, opened⟩
  | .outside => if r.blocks.length > 1 then .error ⟨.openBlock, line⟩ else .ok r.database

end Reader

/-- Reads the source of a database. -/
def read (provable logic : Typecode) (source : List Char) : Except ReadError Database := do
  let start : Reader := { database := { provable := provable, logic := logic } }
  let reader ← (Text.words source).foldlM Reader.step start
  reader.finish (Text.lineFeeds source + 1)

/-- Reads the source of a database and notes its size. -/
def load (provable logic : Typecode) (source : List Char) : Logged ReadError Database := do
  let db ← Logged.ofExcept (read provable logic source)
  .detail 2 ("Database: " ++ toString db.statements.size ++ " statements, " ++
    toString db.typecodes.length ++ " typecodes")
  return db

end Database

end Typeset
