/-
  BlockAsm: the layout of output text.

  * `tidy`: delete the braces, then drop from the end of every line its
    spacing, one terminator, and the spacing before that;
  * `indent`: put an indentation in front of every line that is not empty.
-/
import BlockAsm.Text.Basic

namespace BlockAsm.Layout

/-- The lines of a text, without their line ends. -/
def lines (t : Text) : List Text := t.split Byte.newline

/-- The text of the given lines. -/
def unlines (ls : List Text) : Text := Text.join [Byte.newline] ls

/-- The text without its braces. -/
def dropBraces (t : Text) : Text := t.filter fun b => !Byte.isBrace b

/-- The line without its trailing spacing, one terminator and the spacing before that. -/
def tidyLine (l : Text) : Text := l.trimRight.dropTerminator.trimRight

/-- The text with its braces deleted and every line tidied. -/
def tidy (t : Text) : Text := unlines ((lines (dropBraces t)).map tidyLine)

/-- The line behind the indentation, or an empty line as it is. -/
def indentLine (indentation l : Text) : Text := if l = [] then [] else indentation ++ l

/-- The text with the indentation in front of every line that is not empty. -/
def indent (indentation t : Text) : Text := unlines ((lines t).map (indentLine indentation))

end BlockAsm.Layout
