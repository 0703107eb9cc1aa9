/-
  BlockAsm: writing output.

  Output only grows.  Its last line may be unfinished: fragments add to it, and
  a whole line or a finished block starts on a line of its own.
-/
import BlockAsm.Layout

namespace BlockAsm.Output

/-- The output with its last line finished. -/
def closeLine (out : Text) : Text :=
  if out = [] ∨ out.endsIn Byte.newline then out else out ++ [Byte.newline]

/-- Write one whole line. -/
def line (out l : Text) : Text := closeLine out ++ l ++ [Byte.newline]

/-- Add a fragment to the last line: a terminator ends the line, and otherwise a
    space follows the fragment. -/
def fragment (out t : Text) : Text :=
  if t.isTerminated then out ++ t.dropTerminator ++ [Byte.newline] else out ++ t ++ [Byte.space]

/-- Append the text of a finished block, indented and with its last line finished. -/
def splice (indentation out inner : Text) : Text :=
  if inner = [] then out
  else
    out ++ Layout.indent indentation inner ++
      (if inner.endsIn Byte.newline then [] else [Byte.newline])

end BlockAsm.Output
