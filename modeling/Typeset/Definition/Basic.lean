import Typeset.Database.Basic

/-!
# Typesetting schemes and definitions

A scheme says how formulas of one shape are typeset. An identifier scheme is
for one formula alone, a single symbol, and gives its template as it stands. A
pattern scheme is for every formula that its pattern matches, and its template
names the variables of the pattern by placeholders.

A definition holds the schemes of one definition file, those of each typecode
in their order, and knows for every variable that has an identifier scheme
under which typecode the formulas in its place are typeset. That typecode
always has schemes, since the identifier scheme is one of them.
-/

namespace Typeset

/-- A rule of typesetting. -/
structure Scheme where
  /-- Whether the scheme is for a single symbol. -/
  isIdentifier : Bool
  /-- The typecode whose schemes it is one of. -/
  typecode : Typecode
  /-- The formula that it is for, or the pattern of those formulas. -/
  pattern : Formula
  /-- The template, with no blanks around it. -/
  template : String
  /-- The line of the definition file that it stands on. -/
  line : Int := 0
deriving DecidableEq, Repr

/-- Why a scheme cannot be compiled. -/
inductive SchemeError where
  /-- A symbol was not declared. -/
  | unknownSymbol (symbol : Symbol)
  /-- The pattern cannot be read. -/
  | unreadable (symbols : Unreadable)
  /-- The pattern of an identifier scheme is not a single symbol. -/
  | notASymbol (typecode : Typecode) (pattern : Formula)
deriving DecidableEq, Repr

/-- What is said about a scheme that cannot be compiled. -/
def SchemeError.message : SchemeError → String
  | unknownSymbol s => "Unknown symbol " ++ s
  | unreadable e => e.message
  | notASymbol tc pattern =>
    "Identifier scheme for " ++ tc ++ " must name a single symbol, got " ++ pattern.toText

namespace Scheme

/-- The label of the symbol that an identifier scheme is for. -/
def identifierLabel (s : Scheme) : Except SchemeError Label :=
  if s.pattern.label = "" ∨ s.pattern.children.length ≠ 0 then
    .error (.notASymbol s.typecode s.pattern)
  else .ok s.pattern.label

/-- Whether the pattern of a scheme fits a formula; what becomes of the parts
is another matter. -/
def fits (db : Database) (s : Scheme) (f : Formula) : Bool :=
  if s.isIdentifier then s.pattern.same f else (db.match? s.pattern f).isSome

end Scheme

/-- The schemes of a definition file and the strings of its page. -/
structure Definition where
  /-- The database that the schemes are about. -/
  database : Database
  /-- The schemes of every typecode, in order. -/
  schemes : Table Typecode (List Scheme) := .empty
  /-- The typecode that stands in for each identifier. -/
  identifiers : Table Label Typecode := .empty
  /-- The markup that a page needs once. -/
  header : String
  /-- The string that a displayed formula is put into. -/
  display : String
  /-- The string that a formula inside a line is put into. -/
  inlined : String := ""
  /-- The command string. -/
  command : String := ""
deriving DecidableEq, Repr

namespace Definition

/-- Registers an identifier. -/
def addIdentifier (d : Definition) (l : Label) (tc : Typecode) : Definition :=
  { d with identifiers := d.identifiers.set l tc }

/-- Puts a scheme behind the others of its typecode. -/
def addToBucket (d : Definition) (s : Scheme) : Definition :=
  { d with schemes := d.schemes.set s.typecode ((d.schemes.get? s.typecode).getD [] ++ [s]) }

/-- Adds a scheme; an identifier scheme also registers its identifier. -/
def add (d : Definition) (s : Scheme) : Except SchemeError Definition :=
  if s.isIdentifier then
    (s.identifierLabel).map fun l => (d.addIdentifier l s.typecode).addToBucket s
  else .ok (d.addToBucket s)

/-- How many schemes there are. -/
def schemeCount (d : Definition) : Nat := d.schemes.values.flatten.length

/-- Adds schemes to a definition that has none, and notes how many there are. -/
def build (empty : Definition) (schemes : List Scheme) : Logged SchemeError Definition := do
  let d ← Logged.ofExcept (schemes.foldlM add empty)
  .detail 2 ("Indexed " ++ toString d.schemeCount ++ " schemes over " ++
    toString d.schemes.size ++ " typecodes")
  return d

/-- The schemes of a typecode. -/
def schemesOf (d : Definition) (tc : Typecode) : List Scheme := (d.schemes.get? tc).getD []

end Definition

end Typeset
