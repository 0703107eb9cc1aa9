/-
  BlockAsm: quoted texts.

  A text is quoted between two marks.  Inside, printable characters stand for
  themselves, the mark and the backslash are written with a backslash, and all
  else as an escape sequence: a letter for the usual control characters, `\x`
  and two digits for the other ASCII ones and for stray bytes, `\u` and four or
  `\U` and eight digits for the rest.
-/
import BlockAsm.Text.Printable

namespace BlockAsm

namespace Quoted

/-- A piece of the inside of a quoted text. -/
inductive Piece where
  /-- a character that stands for itself -/
  | plain (t : Text)
  /-- an escape sequence -/
  | escape (t : Text)
  deriving DecidableEq, Repr

/-- The text of a piece. -/
def Piece.text : Piece → Text
  | plain t | escape t => t

/-- The hexadecimal digit of a number below sixteen. -/
def hexDigit (n : Nat) : UInt8 := UInt8.ofNat (if n < 10 then 0x30 + n else 0x61 + (n - 10))

/-- The last `width` hexadecimal digits of `n`. -/
def hex : Nat → Nat → Text
  | 0, _ => []
  | width + 1, n => hex width (n / 16) ++ [hexDigit (n % 16)]

/-- The letter of the escape sequence of a control character that has one. -/
def letter? (c : Char) : Option Text :=
  match c.toNat with
  | 0x07 => some (utf8 "a")
  | 0x08 => some (utf8 "b")
  | 0x09 => some (utf8 "t")
  | 0x0A => some (utf8 "n")
  | 0x0B => some (utf8 "v")
  | 0x0C => some (utf8 "f")
  | 0x0D => some (utf8 "r")
  | _ => none

/-- The escape sequence of a character that is not printable. -/
def escapeSequence (c : Char) : Text :=
  match letter? c with
  | some letter => utf8 "\\" ++ letter
  | none =>
    if c.toNat < 0x80 then utf8 "\\x" ++ hex 2 c.toNat
    else if c.toNat < 0x10000 then utf8 "\\u" ++ hex 4 c.toNat
    else utf8 "\\U" ++ hex 8 c.toNat

/-- How a unit is written between two marks `mark`. -/
def piece (mark : Char) : Rune → Piece
  | .stray b => .escape (utf8 "\\x" ++ hex 2 b.toNat)
  | .scalar c =>
    if c = mark ∨ c = '\\' then .escape (utf8 "\\" ++ String.utf8EncodeChar c)
    else if isPrintable c then .plain (String.utf8EncodeChar c)
    else .escape (escapeSequence c)

end Quoted

namespace Text

/-- The pieces between the marks of a text in double quotes. -/
def quotedPieces (t : Text) : List Quoted.Piece := t.runes.map (Quoted.piece '"')

/-- The text in double quotes. -/
def quoted (t : Text) : Text :=
  [Byte.doubleQuote] ++ t.quotedPieces.flatMap Quoted.Piece.text ++ [Byte.doubleQuote]

end Text

/-- A character in single quotes. -/
def quotedChar (c : Char) : Text :=
  [Byte.singleQuote] ++ (Quoted.piece (Char.ofNat 0x27) (.scalar c)).text ++ [Byte.singleQuote]

end BlockAsm
