/-
  BlockAsm: the values of flags.

  A whole number may have a sign, a base mark of either case or a leading zero
  for octal, and single underscores between digits and behind a base mark.
  A truth value is one of six words for yes and six for no.
-/
import BlockAsm.Numeral
import BlockAsm.Text.Quoted

namespace BlockAsm.Value

/-- Why a value cannot be read. -/
inductive Fault where
  | number (t : Text) (cause : Numeral.Fault)
  | truth (t : Text)
  deriving DecidableEq, Repr

/-- The words for a numeral that has no value. -/
def causeMessage : Numeral.Fault → Text
  | .malformed => utf8 "invalid syntax"
  | .outOfRange => utf8 "value out of range"

/-- The words for a value that cannot be read. -/
def Fault.message : Fault → Text
  | number t cause =>
    utf8 "strconv.ParseInt: parsing " ++ t.quoted ++ utf8 ": " ++ causeMessage cause
  | truth t => utf8 "strconv.ParseBool: parsing " ++ t.quoted ++ utf8 ": invalid syntax"

/-- The base that a base letter announces. -/
def baseOfLetter? (b : UInt8) : Option Nat :=
  if b = 0x62 ∨ b = 0x42 then some 2
  else if b = 0x6F ∨ b = 0x4F then some 8
  else if b = 0x78 ∨ b = 0x58 then some 16
  else none

/-- The base of a numeral and its digits. -/
def cutBase : Text → Nat × Text
  | 0x30 :: letter :: digit :: rest =>
    match baseOfLetter? letter with
    | some base => (base, digit :: rest)
    | none => (8, letter :: digit :: rest)
  | 0x30 :: rest => (8, rest)
  | t => (10, t)

/-- The byte that may stand between digits. -/
abbrev underscore : UInt8 := 0x5F

/-- What the byte before was, as far as an underscore asks. -/
inductive Before where
  | nothing
  | digit
  | underscore
  deriving DecidableEq, Repr

/-- Whether every underscore stands behind a digit and before one. -/
def underscoresFit (before : Before) : Text → Bool
  | [] => before ≠ .underscore
  | b :: rest =>
    if b = underscore then before = .digit && underscoresFit .underscore rest
    else underscoresFit .digit rest

/-- Whether the underscores of a numeral of digits stand well; a base mark counts as a digit. -/
def underscoresFitIn (t : Text) : Bool :=
  match t with
  | 0x30 :: letter :: rest =>
    if (baseOfLetter? letter).isSome then underscoresFit .digit rest
    else underscoresFit .nothing t
  | _ => underscoresFit .nothing t

/-- Read a numeral without a sign. -/
def readUnsigned (t : Text) : Except Numeral.Fault Nat :=
  if t = [] then .error .malformed
  else do
    let (base, digits) := cutBase t
    let n ← Numeral.readFrom base 0 (digits.filter (· ≠ underscore))
    if underscoresFitIn t then .ok n else .error .malformed

/-- Read a whole number of 64 bits. -/
def readNumber (t : Text) : Except Fault Int :=
  let (minus, digits) := Numeral.cutSign t
  (readUnsigned digits >>= Numeral.withSign minus).mapError (.number t)

/-- The words for yes. -/
def trueWords : List Text :=
  [utf8 "1", utf8 "t", utf8 "T", utf8 "TRUE", utf8 "true", utf8 "True"]

/-- The words for no. -/
def falseWords : List Text :=
  [utf8 "0", utf8 "f", utf8 "F", utf8 "FALSE", utf8 "false", utf8 "False"]

/-- Read a truth value. -/
def readTruth (t : Text) : Except Fault Bool :=
  if t ∈ trueWords then .ok true
  else if t ∈ falseWords then .ok false
  else .error (.truth t)

end BlockAsm.Value
