/-
  BlockAsm: executing statements.

  A statement changes the macro table or adds to the output.  A failing
  statement keeps what it has written up to there: the header of a section, or
  the arguments that a call had already pushed.  The text of the block of a
  statement is given, so that executing one statement is not recursive.
-/
import BlockAsm.Macros
import BlockAsm.Operand
import BlockAsm.Statement.Basic
import BlockAsm.Statement.Form
import BlockAsm.Text.LowerCase
import BlockAsm.Lowering.Output

namespace BlockAsm

/-- How a source is lowered. -/
structure Options where
  /-- whether a block sees the macros defined around it -/
  inherit : Bool := false
  /-- whether stray braces and open blocks are refused -/
  strict : Bool := false
  /-- what stands in front of every line of a block, once for each level -/
  indentation : Text := []
  deriving DecidableEq, Repr

/-- The macros defined and the text written so far. -/
structure State where
  macros : Macros
  out : Text
  deriving DecidableEq

namespace State

/-- The state in which a source starts. -/
def initial : State := ⟨.empty, []⟩

/-- The state in which the block of a statement starts. -/
def child (s : State) (opts : Options) : State :=
  ⟨if opts.inherit then s.macros else .empty, []⟩

/-- Write one whole line. -/
def line (s : State) (l : Text) : State := { s with out := Output.line s.out l }

/-- Add a fragment to the last line. -/
def fragment (s : State) (t : Text) : State := { s with out := Output.fragment s.out t }

/-- Append the text of a finished block. -/
def splice (s : State) (opts : Options) (inner : Text) : State :=
  { s with out := Output.splice opts.indentation s.out inner }

/-- Push the operands in the given order, up to the first that is no operand. -/
def pushAll (s : State) : List Text → State × Option Literal.Fault
  | [] => (s, none)
  | arg :: rest =>
    match Operand.lower (s.macros.resolveOperand arg) with
    | .ok op => pushAll (s.line (utf8 "push " ++ op)) rest
    | .error f => (s, some f)

end State

namespace Statement

/-- The state after a statement, and the error if it failed. -/
abbrev Effect := State × Option Error

/-- A statement that did its work. -/
def done (s : State) : Effect := (s, none)

/-- A statement that failed, and the state it had reached. -/
def fail (s : State) (e : Error) : Effect := (s, some e)

/-- Continue with the text of a block: if the block is open, braces must not be
    strict, and a failure in the block is one of its scope. -/
def withBlock (opts : Options) (s : State) (directive : Token) (scope : Scope) (b : Block)
    (inner : Except Error Text) (next : Text → State) : Effect :=
  if opts.strict ∧ ¬ b.closed then fail s (.ofFault (.unclosedBlock directive))
  else match inner with
    | .error e => fail s (e.within scope)
    | .ok text => done (next text)

/-- Execute a statement, given the outcome of its block. -/
def execute (opts : Options) (inner : Except Error Text) (s : State) : Statement → Effect
  | define name value => done { s with macros := s.macros.define name value }
  | undefine name => done { s with macros := s.macros.undefine name }
  | global name => done (s.line (utf8 "global " ++ name))
  | sectionBlock kind b =>
    let s := s.line (utf8 "section ." ++ kind.toLower)
    withBlock opts s Form.sectionWord (.sectionOf kind) b inner fun text => s.splice opts text
  | sectionHeader kind f =>
    fail (s.line (utf8 "section ." ++ kind.toLower)) ⟨[.directive Form.sectionWord], f⟩
  | label name b =>
    withBlock opts s Form.labelWord (.labelOf name) b inner fun text =>
      if b.first? = some Form.equWord then
        s.line (name ++ utf8 " " ++ text.dropEnd Byte.newline)
      else (s.line (name ++ utf8 ":")).splice opts text
  | prologue => done ((s.line (utf8 "push rbp")).line (utf8 "mov rbp, rsp"))
  | epilogue => done ((s.line (utf8 "mov rsp, rbp")).line (utf8 "pop rbp"))
  | ret => done (s.line (utf8 "ret"))
  | comment => done s
  | string text => done (s.fragment text)
  | move dest src =>
    match Operand.lower (s.macros.resolveOperand src) with
    | .ok op => done (s.line (utf8 "mov " ++ s.macros.resolve dest ++ utf8 ", " ++ op))
    | .error f => fail s ⟨[.moveTo dest], .badLiteral f⟩
  | call name args =>
    match s.pushAll args.reverse with
    | (s, none) => done (s.line (utf8 "call " ++ s.macros.resolve name))
    | (s, some f) => fail s ⟨[.callOf name], .badLiteral f⟩
  | destination core => done { s with out := s.out ++ core ++ utf8 ", " }
  | brace core => if opts.strict then fail s (.ofFault (.strayBrace core)) else done s
  | word core terminated =>
    match Operand.lower core with
    | .ok op => done (s.fragment (if terminated then op ++ [Byte.semicolon] else op))
    | .error f => fail s (.ofFault (.badLiteral f))

end Statement

end BlockAsm
