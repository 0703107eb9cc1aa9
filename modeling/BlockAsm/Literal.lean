/-
  BlockAsm: number literals.

  A literal with a base mark (`0b`, `0o`, `0x`) is an unsigned 64-bit pattern,
  read as a signed word; any other literal is a signed decimal numeral.
  A text is shaped like a number if it has a base mark, whatever follows, or is
  a decimal numeral in range.
-/
import BlockAsm.Numeral
import BlockAsm.Text.Quoted

namespace BlockAsm

/-- The bases that have a mark. -/
inductive Radix where
  | binary
  | octal
  | hexadecimal
  deriving DecidableEq, Repr

namespace Radix

/-- The base of a radix. -/
def base : Radix → Nat
  | binary => 2
  | octal => 8
  | hexadecimal => 16

/-- The mark that announces a radix. -/
def mark : Radix → Text
  | binary => utf8 "0b"
  | octal => utf8 "0o"
  | hexadecimal => utf8 "0x"

/-- The radix that a text is marked with, and the text behind the mark. -/
def cut? (t : Text) : Option (Radix × Text) :=
  [binary, octal, hexadecimal].findSome? fun r => (t.dropFront? r.mark).map (r, ·)

end Radix

namespace Literal

/-- Why a text is not a literal. -/
inductive Fault where
  /-- the text behind a base mark is no numeral of that base below `2 ^ 64` -/
  | badDigits (t : Text) (radix : Radix)
  /-- the text has no base mark and is no signed 64-bit decimal numeral -/
  | notDecimal (t : Text)
  deriving DecidableEq, Repr

/-- The words for a fault. -/
def Fault.message : Fault → Text
  | badDigits t radix =>
    utf8 "invalid literal: " ++ t.quoted ++ utf8 " is not a base-" ++ Numeral.ofNat radix.base ++
      utf8 " number"
  | notDecimal t => utf8 "invalid literal: " ++ t.quoted

/-- The value of a literal. -/
def value (t : Text) : Except Fault Int64 :=
  match Radix.cut? t with
  | some (radix, digits) =>
    match Numeral.readUnsigned radix.base digits with
    | .ok n => .ok (Int64.ofNat n)
    | .error _ => .error (.badDigits t radix)
  | none =>
    match Numeral.readSigned t with
    | .ok v => .ok (Int64.ofInt v)
    | .error _ => .error (.notDecimal t)

/-- Whether a text is shaped like a number. -/
def isNumeric (t : Text) : Bool :=
  (Radix.cut? t).isSome || (Numeral.readSigned t).isOk

/-- The literal in base ten. -/
def normalize (t : Text) : Except Fault Text :=
  (value t).map fun v => Numeral.ofInt v.toInt

end Literal

end BlockAsm
