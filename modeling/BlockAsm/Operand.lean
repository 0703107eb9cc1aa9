/-
  BlockAsm: operands.

  `&name` is the memory operand `[name]`, a number is written in base ten, and
  any other operand stands as it is.
-/
import BlockAsm.Literal

namespace BlockAsm.Operand

/-- The target form of an operand; it fails only on a base mark with bad digits. -/
def lower (t : Text) : Except Literal.Fault Text :=
  match t.dropFront? [Byte.ampersand] with
  | some name => .ok (utf8 "[" ++ name ++ utf8 "]")
  | none => if Literal.isNumeric t then Literal.normalize t else .ok t

end BlockAsm.Operand
