/-
  BlockAsm: paths.

  A path is the list of names from the root to a file or directory.  A written
  path is absolute or relative to a working directory; it is cleaned by reading
  its dots by name only, without looking at any file.
-/
import BlockAsm.Text.Basic

namespace BlockAsm

/-- The names from the root to a file or directory. -/
abbrev Path := List Text

/-- The byte between the names of a path. -/
abbrev Byte.slash : UInt8 := 0x2F

namespace Path

/-- The name of a directory in itself. -/
def here : Text := utf8 "."

/-- The name of the directory around a directory. -/
def up : Text := utf8 ".."

/-- Follow one name: empty names and `.` stay, and `..` goes up, from the root to the root. -/
def follow (p : Path) (name : Text) : Path :=
  if name = [] ∨ name = here then p else if name = up then p.dropLast else p ++ [name]

/-- Whether a written path starts at the root. -/
def isAbsolute (t : Text) : Bool := t.head? == some Byte.slash

/-- Where a written path starts. -/
def start (directory : Path) (t : Text) : Path := if isAbsolute t then [] else directory

/-- The path that a text spells, seen from a working directory. -/
def clean (directory : Path) (t : Text) : Path :=
  (t.split Byte.slash).foldl follow (start directory t)

/-- The path written from the root. -/
def text (p : Path) : Text :=
  if p = [] then [Byte.slash] else p.flatMap fun name => Byte.slash :: name

/-- The directory around a path. -/
def parent (p : Path) : Path := p.dropLast

end Path

end BlockAsm
