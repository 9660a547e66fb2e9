/-!
# Paths

A path is a list of names, behind one slash or two when it does not start in the working directory.
Empty names and `.` are left out, so that `a//b/./c` is `a/b/c`.

* `Path.ofString`, `Path.text`: reading and writing; a path without names is `.`;
* `Path.parent`: the path without its last name.
-/

namespace Micro8086

/-- A path of names. -/
structure Path where
  /-- The slashes in front. -/
  anchor : String := ""
  names : List String := []
  deriving DecidableEq, Inhabited

namespace Path

/-- The slashes that a text starts with count when there are one or two of them, and as one when there
are more. -/
def anchorOf : List Char → String
  | '/' :: '/' :: '/' :: _ => "/"
  | '/' :: '/' :: _ => "//"
  | '/' :: _ => "/"
  | _ => ""

/-- The path that a text names. -/
def ofString (s : String) : Path :=
  { anchor := anchorOf s.toList
    names := ((s.toList.splitOn '/').map String.ofList).filter fun n => n ≠ "" && n ≠ "." }

/-- The text of a path. -/
def text (p : Path) : String :=
  if p.anchor = "" && p.names.isEmpty then "." else p.anchor ++ String.intercalate "/" p.names

/-- Some name holds a NUL. -/
def holdsNul (p : Path) : Bool := p.names.any fun n => n.toList.contains '\x00'

/-- The path without its last name. -/
def parent (p : Path) : Path := { p with names := p.names.dropLast }

end Path

end Micro8086
