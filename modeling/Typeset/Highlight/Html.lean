import Typeset.Highlight.Lexer
import Typeset.Text.Search

/-!
# A highlighted text as markup

Tokens become spans, each with the style of its kind. No span crosses the end
of a line: a token of several lines is closed at every line feed and opened
again after it. Tokens of one style that stand side by side share a span.
-/

namespace Typeset.Highlight

open Text

/-- The style of a kind; none for what is shown plainly. -/
def Kind.style? : Kind → Option String
  | comment => some "color: #3D7B7B; font-style: italic"
  | keyword | declaration => some "color: #008000; font-weight: bold"
  | variableName => some "color: #19177C"
  | template => some "color: #BA2121"
  | text => some "color: #008000"
  | error => some "border: 1px solid #F00"
  | blank | name | punctuation => none

/-- What opens the span of a kind; empty for what is shown plainly. -/
def Kind.opener (k : Kind) : String :=
  match k.style? with
  | some style => "<span style=\"" ++ style ++ "\">"
  | none => ""

/-- What closes a span that was opened so. -/
def closer (opener : String) : String := if opener == "" then "" else "</span>"

/-- Markup on its way to the page. -/
structure Page where
  /-- The lines that are complete. -/
  done : String := ""
  /-- The open line, if something was put into it. -/
  current : Option String := none
  /-- What opened the last span of the open line. -/
  opener : String := ""

namespace Page

/-- Completes the open line. -/
def emit (p : Page) (line : String) : Page :=
  { p with done := p.done ++ line, current := none }

/-- Adds a part of a token that a line feed follows. -/
def endLine (opener : String) (p : Page) (part : String) : Page :=
  match p.current with
  | some line =>
    if p.opener != opener && part != "" then
      p.emit (line ++ closer p.opener ++ opener ++ part ++ closer opener ++ "\n")
    else p.emit (line ++ part ++ closer p.opener ++ "\n")
  | none =>
    if part != "" then p.emit (opener ++ part ++ closer opener ++ "\n") else p.emit "\n"

/-- Adds the last part of a token. -/
def addPart (opener : String) (p : Page) (part : String) : Page :=
  if part == "" then p
  else
    match p.current with
    | some line =>
      if p.opener != opener then
        { p with current := some (line ++ closer p.opener ++ opener ++ part), opener := opener }
      else { p with current := some (line ++ part) }
    | none => { p with current := some (opener ++ part), opener := opener }

/-- Adds a token, cut into its parts at line feeds. -/
def addToken (p : Page) (t : Token) : Page :=
  let opener := t.kind.opener
  let parts := (pieces '\n' (escapeText t.text)).map String.ofList
  addPart opener (parts.dropLast.foldl (endLine opener) p) (parts.getLast?.getD "")

/-- The markup of all lines. -/
def finish (p : Page) : String :=
  match p.current with
  | some line => p.done ++ line ++ closer p.opener ++ "\n"
  | none => p.done

end Page

/-- The markup of tokens. -/
def tokensToHtml (ts : List Token) : String :=
  "<div class=\"highlight\" style=\"background: #f8f8f8\">" ++
    "<pre style=\"line-height: 125%;\"><span></span>" ++
    (ts.foldl Page.addToken {}).finish ++ "</pre></div>\n"

/-- A definition file as highlighted markup. -/
def toHtml (s : List Char) : String := tokensToHtml (shownTokens s)

end Typeset.Highlight
