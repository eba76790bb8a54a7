import Typeset.Definition.Basic
import Typeset.Directive.Read
import Typeset.Settings

/-!
# Compiling a definition file

Every symbol of a scheme has to be declared. The first one names the scheme's
typecode; the others are read as the pattern, under that typecode alone if the
grammar has it, else under every typecode of the grammar. A scheme that fails
is left out with a warning, or stops the compilation if that is asked for.
Whether a scheme fails depends on that scheme alone. Of several text
directives with one role the last one counts.
-/

namespace Typeset

/-- A compiled definition with the scheme directives that were left out. -/
structure Compiled where
  /-- The definition. -/
  definition : Definition
  /-- The directives that were left out, in order. -/
  skipped : List Directive
deriving DecidableEq, Repr

/-- A scheme directive: the parts of a scheme before its pattern is read. -/
structure SchemeSource where
  /-- Whether the scheme is for a single symbol. -/
  isIdentifier : Bool
  /-- The typecode. -/
  typecode : Symbol
  /-- The symbols of the pattern. -/
  symbols : List Symbol
  /-- The template as it is written. -/
  template : String
  /-- The line of the directive. -/
  line : Nat

/-- The scheme that a directive is the source of, if it is one. -/
def Directive.schemeSource? (d : Directive) : Option SchemeSource :=
  match d.content with
  | .scheme isIdentifier tc symbols template => some ⟨isIdentifier, tc, symbols, template, d.line⟩
  | _ => none

namespace SchemeSource

/-- The first symbol that was not declared. -/
def undeclared? (db : Database) (s : SchemeSource) : Option Symbol :=
  (s.typecode :: s.symbols).find? fun t => !db.isSymbol t

/-- The typecodes under which the pattern may be read. -/
def candidates (db : Database) (s : SchemeSource) : List Typecode :=
  if db.typecodes.contains s.typecode then [s.typecode] else db.typecodes

/-- Compiles a scheme. -/
def compile (db : Database) (s : SchemeSource) : Except SchemeError Scheme :=
  match s.undeclared? db with
  | some t => .error (.unknownSymbol t)
  | none =>
    match db.readAs s.symbols (s.candidates db) true with
    | .error e => .error (.unreadable e)
    | .ok pattern =>
      let scheme : Scheme :=
        { isIdentifier := s.isIdentifier
          typecode := s.typecode
          pattern := pattern
          template := String.ofList (Text.trim s.template.toList)
          line := s.line }
      if s.isIdentifier then scheme.identifierLabel.map fun _ => scheme else .ok scheme

end SchemeSource

/-- The text of the last directive with a role, without the blanks around it. -/
def lastText? (role : TextRole) (ds : List Directive) : Option String :=
  (ds.filterMap fun d =>
    match d.content with
    | .text r text => if r = role then some (String.ofList (Text.trim text.toList)) else none
    | _ => none).getLast?

namespace Definition

/-- The definition of a file before its schemes are added. -/
def withTexts (db : Database) (settings : Settings) (ds : List Directive) : Definition :=
  { database := db
    header := (lastText? .header ds).getD settings.defaultHeader
    display := (lastText? .display ds).getD settings.defaultDisplay
    inlined := (lastText? .inlined ds).getD ""
    command := (lastText? .command ds).getD "" }

/-- Compiles the schemes of a list of directives, and returns them with the
directives left out. -/
def compileSchemes (db : Database) (strict : Bool) :
    List Directive → Logged SchemeError (List Scheme × List Directive)
  | [] => return ([], [])
  | d :: ds =>
    match d.schemeSource? with
    | none => compileSchemes db strict ds
    | some source =>
      match source.compile db with
      | .ok scheme => do
        .detail 3 ("Scheme " ++ source.typecode ++ " " ++ " ".intercalate source.symbols)
        let (schemes, skipped) ← compileSchemes db strict ds
        return (scheme :: schemes, skipped)
      | .error e =>
        if strict then .fail e
        else do
          .warn ("Line " ++ toString d.line ++ ": " ++ e.message ++ "; scheme skipped")
          let (schemes, skipped) ← compileSchemes db strict ds
          return (schemes, d :: skipped)

/-- Compiles a list of directives. -/
def compile (db : Database) (settings : Settings) (strict : Bool) (ds : List Directive) :
    Logged SchemeError Compiled := do
  let (schemes, skipped) ← compileSchemes db strict ds
  .detail 1 ("Compiled " ++ toString schemes.length ++ " schemes, skipped " ++
    toString skipped.length)
  let d ← build (withTexts db settings ds) schemes
  return ⟨d, skipped⟩

end Definition

end Typeset
