/-
  BlockAsm: numerals.

  Digits are read from the left into a number below `2 ^ 64`; the first byte
  that is no digit of the base, or that carries the number over the bound,
  decides the fault.  Numbers are written in base ten without leading zeros.
-/
import BlockAsm.Text.Basic

namespace BlockAsm.Numeral

/-- Why a numeral has no value. -/
inductive Fault where
  /-- a byte is not a digit, or there is none -/
  | malformed
  /-- the number does not fit into 64 bits -/
  | outOfRange
  deriving DecidableEq, Repr

/-- The value of a digit; letters of either case follow the ten decimal digits. -/
def digitValue? (b : UInt8) : Option Nat :=
  if 0x30 ≤ b ∧ b ≤ 0x39 then some (b.toNat - 0x30)
  else if 0x61 ≤ b ∧ b ≤ 0x7A then some (b.toNat - 0x61 + 10)
  else if 0x41 ≤ b ∧ b ≤ 0x5A then some (b.toNat - 0x41 + 10)
  else none

/-- The value of a digit of the given base. -/
def digit? (base : Nat) (b : UInt8) : Option Nat := (digitValue? b).filter (· < base)

/-- Read digits behind a numeral of value `n`. -/
def readFrom (base n : Nat) : Text → Except Fault Nat
  | [] => .ok n
  | b :: rest =>
    match digit? base b with
    | none => .error .malformed
    | some d =>
      if n * base + d < UInt64.size then readFrom base (n * base + d) rest
      else .error .outOfRange

/-- Read a numeral of at least one digit and no sign. -/
def readUnsigned (base : Nat) (t : Text) : Except Fault Nat :=
  if t = [] then .error .malformed else readFrom base 0 t

/-- A sign, if there is one, as whether it is a minus; and what stands behind it. -/
def cutSign : Text → Bool × Text
  | 0x2B :: rest => (false, rest)
  | 0x2D :: rest => (true, rest)
  | t => (false, t)

/-- The signed 64-bit number of the given sign and magnitude: up to `2 ^ 63` below zero,
    and less than that above. -/
def withSign (minus : Bool) (n : Nat) : Except Fault Int :=
  if minus then if n ≤ 0x8000000000000000 then .ok (-n) else .error .outOfRange
  else if n < 0x8000000000000000 then .ok n else .error .outOfRange

/-- Read a decimal numeral with an optional sign. -/
def readSigned (t : Text) : Except Fault Int :=
  let (minus, digits) := cutSign t
  readUnsigned 10 digits >>= withSign minus

/-- A natural number in base ten. -/
def ofNat (n : Nat) : Text := (Nat.toDigits 10 n).map fun c => UInt8.ofNat c.toNat

/-- An integer in base ten. -/
def ofInt : Int → Text
  | .ofNat n => ofNat n
  | .negSucc n => utf8 "-" ++ ofNat (n + 1)

end BlockAsm.Numeral
