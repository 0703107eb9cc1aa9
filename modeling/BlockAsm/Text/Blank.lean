/-
  BlockAsm: blanks.

  A blank is a character with the Unicode property `White_Space`.  A stray byte
  is never blank, whatever its value.
-/
import BlockAsm.Text.Rune

namespace BlockAsm

/-- The characters with the property `White_Space`. -/
def isBlank (c : Char) : Bool :=
  let n := c.toNat
  (0x09 ≤ n && n ≤ 0x0D) || n == 0x20 || n == 0x85 || n == 0xA0 || n == 0x1680 ||
    (0x2000 ≤ n && n ≤ 0x200A) || n == 0x2028 || n == 0x2029 || n == 0x202F || n == 0x205F ||
    n == 0x3000

/-- Whether a unit is a blank character. -/
def Rune.isBlank : Rune → Bool
  | scalar c => BlockAsm.isBlank c
  | stray _ => false

/-- The text without the blanks at either end. -/
def Text.trim (t : Text) : Text :=
  let inner := (t.runes.dropWhile Rune.isBlank).reverse.dropWhile Rune.isBlank
  inner.reverse.flatMap Rune.bytes

end BlockAsm
