import Typeset.Text.Search

/-!
# Paths

A path is a root and the names below it. Repeated slashes and single dots say
nothing and are not kept; two dots are kept, since what they mean depends on
the file tree. Exactly two slashes at the front are a root of their own, and
more of them are one slash.
-/

namespace Typeset

/-- A path in normal form. -/
structure Path where
  /-- No slash for a relative path, else one or two of them. -/
  root : String := ""
  /-- The names below the root, in order. -/
  names : List String := []
deriving DecidableEq, Repr

namespace Path

/-- The names of a path: what stands between slashes, without empty names and
single dots. -/
def namesOf (s : String) : List String :=
  ((Text.pieces '/' s.toList).map String.ofList).filter fun n => n != "" && n != "."

/-- The root that a text of slashes at the front stands for. -/
def rootOf (s : String) : String :=
  match (s.toList.takeWhile (· == '/')).length with
  | 0 => ""
  | 2 => "//"
  | _ => "/"

/-- The path that a text names. -/
def ofString (s : String) : Path := ⟨rootOf s, namesOf s⟩

/-- The text of a path; the path of nothing is a dot. -/
def toString (p : Path) : String :=
  let below := "/".intercalate p.names
  if p.root == "" && p.names.isEmpty then "." else p.root ++ below

/-- The path reached from `p` by the path `q`; one with a root starts anew. -/
def join (p q : Path) : Path := if q.root == "" then ⟨p.root, p.names ++ q.names⟩ else q

/-- The last name, empty for a root or the path of nothing. -/
def name (p : Path) : String := p.names.getLast?.getD ""

/-- The path without its last name. -/
def parent (p : Path) : Path := { p with names := p.names.dropLast }

end Path

end Typeset
