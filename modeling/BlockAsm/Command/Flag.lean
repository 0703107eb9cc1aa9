/-
  BlockAsm: flags.

  Flags and operands may stand in any order.  `--name=value` and `--name value`
  set a flag by its name; a switch needs no value and takes one only behind an
  equals sign.  `-abc` sets flags by their letters, and the first that needs a
  value takes the rest of the cluster or else the next argument.  `--` ends the
  flags, and `-` alone is an operand.
-/
import BlockAsm.Command.Value

namespace BlockAsm

/-- Why the arguments of the program are refused. -/
inductive UsageError where
  /-- a flag without a name -/
  | badSyntax (arg : Text)
  | unknownFlag (name : Text)
  | unknownLetter (letter : UInt8) (cluster : Text)
  /-- the flag needs a value, and no argument follows -/
  | missingValue (arg : Text)
  /-- the letter needs a value, and no argument follows -/
  | missingLetterValue (letter : UInt8) (cluster : Text)
  | badValue (value flag : Text) (cause : Value.Fault)
  /-- one operand is due -/
  | operandCount (received : Nat)
  | unknownCommand (name : Text) (suggestions : List Text)
  deriving DecidableEq, Repr

/-- The equals sign between a flag and its value. -/
abbrev Byte.equals : UInt8 := 0x3D

/-- The dash in front of a flag. -/
abbrev Byte.dash : UInt8 := 0x2D

/-- A flag that changes settings of type `σ`. -/
structure Flag (σ : Type) where
  name : Text
  letter? : Option UInt8 := none
  /-- whether the flag stands for itself, as if its value were `true` -/
  isSwitch : Bool
  set : Text → σ → Except Value.Fault σ

namespace Flag

variable {σ : Type}

/-- A switch that changes settings according to a truth value. -/
def switch (name : Text) (set : Bool → σ → σ) : Flag σ where
  name := name
  isSwitch := true
  set value s := (Value.readTruth value).map fun b => set b s

/-- The flag as messages name it. -/
def title (f : Flag σ) : Text :=
  match f.letter? with
  | some c => utf8 "-" ++ [c] ++ utf8 ", --" ++ f.name
  | none => utf8 "--" ++ f.name

/-- Set the flag to a value. -/
def assign (f : Flag σ) (value : Text) (s : σ) : Except UsageError σ :=
  (f.set value s).mapError (.badValue value f.title)

/-- The value of a switch that is given none. -/
def switchValue : Text := utf8 "true"

/-- What one argument did: it changed the settings, or it needs the next
    argument as a value and is in error without one. -/
inductive Step (σ : Type) where
  | done (s : σ)
  | needs (f : Flag σ) (s : σ) (missing : UsageError)

/-- A flag given by its name, behind two dashes. -/
def stepName (flags : List (Flag σ)) (s : σ) (arg name : Text) : Except UsageError (Step σ) :=
  if name = [] ∨ name.head? = some Byte.dash ∨ name.head? = some Byte.equals then
    .error (.badSyntax arg)
  else
    let (name, value?) := match name.cutFirst? Byte.equals with
      | some (name, value) => (name, some value)
      | none => (name, none)
    match flags.find? (·.name = name), value? with
    | none, _ => .error (.unknownFlag name)
    | some f, some value => (f.assign value s).map .done
    | some f, none =>
      if f.isSwitch then (f.assign switchValue s).map .done else .ok (.needs f s (.missingValue arg))

/-- The front of a cluster that is passed over. -/
def passedOver : Text := utf8 "test."

/-- Flags given by their letters, behind one dash. -/
def stepLetters (flags : List (Flag σ)) (s : σ) : Text → Except UsageError (Step σ)
  | [] => .ok (.done s)
  | c :: rest =>
    if passedOver.isPrefixOf (c :: rest) then .ok (.done s)
    else match flags.find? (·.letter? = some c) with
      | none => .error (.unknownLetter c (c :: rest))
      | some f =>
        match rest with
        | b :: value =>
          if b = Byte.equals ∧ value ≠ [] then (f.assign value s).map .done
          else if f.isSwitch then do
            let s ← f.assign switchValue s
            stepLetters flags s rest
          else (f.assign rest s).map .done
        | [] =>
          if f.isSwitch then (f.assign switchValue s).map .done
          else .ok (.needs f s (.missingLetterValue c [c]))

/-- The effect of one argument, if it is a flag. -/
def step? (flags : List (Flag σ)) (s : σ) : Text → Option (Except UsageError (Step σ))
  | 0x2D :: 0x2D :: name => some (stepName flags s (utf8 "--" ++ name) name)
  | 0x2D :: c :: rest => some (stepLetters flags s (c :: rest))
  | _ => none

/-- The argument that ends the flags. -/
def terminator : Text := utf8 "--"

/-- Read the arguments: the settings, and the operands in order. -/
def parse (flags : List (Flag σ)) (s : σ) : List Text → Except UsageError (σ × List Text)
  | [] => .ok (s, [])
  | arg :: rest =>
    if arg = terminator then .ok (s, rest)
    else match step? flags s arg with
      | none => (parse flags s rest).map fun (s, operands) => (s, arg :: operands)
      | some (.error e) => .error e
      | some (.ok (.done s)) => parse flags s rest
      | some (.ok (.needs f s missing)) =>
        match rest with
        | [] => .error missing
        | value :: rest => f.assign value s >>= fun s => parse flags s rest

end Flag

end BlockAsm
