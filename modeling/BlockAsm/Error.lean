/-
  BlockAsm: errors.

  A fault is the cause of a failure.  An error is a fault with the trail of
  scopes it happened in, outermost first; its message puts every scope in front
  of the fault, with a colon behind each.
-/
import BlockAsm.Literal
import BlockAsm.Token

namespace BlockAsm

/-- What an error is about, as callers tell errors apart. -/
inductive Fault.Category where
  /-- braces are missing or astray -/
  | structural
  /-- the input ends too early -/
  | endOfInput
  /-- a literal has bad digits -/
  | literal
  /-- a statement does not have the shape that its first token announced -/
  | malformed
  deriving DecidableEq, Repr

/-- The cause of a failure. -/
inductive Fault where
  /-- a block was due, and this token or the end of the input stands there -/
  | noBlock (found : Option Token)
  /-- a brace that belongs to no block -/
  | strayBrace (brace : Text)
  /-- the input ends before an operand of the directive -/
  | missingOperand (directive : Token)
  /-- the input ends before the block of the directive does -/
  | unclosedBlock (directive : Token)
  /-- the input ends in a comment -/
  | unterminatedComment
  /-- the input ends in a string -/
  | unterminatedString (text : Text)
  /-- the input ends in the arguments of a call -/
  | unterminatedCall (text : Text)
  /-- an operand with a base mark has bad digits -/
  | badLiteral (cause : Literal.Fault)
  /-- a statement does not have the shape that its first token announced -/
  | malformed (text : Text)
  deriving DecidableEq, Repr

namespace Fault

/-- The category of a fault. -/
def category : Fault → Category
  | noBlock _ | strayBrace _ => .structural
  | missingOperand _ | unclosedBlock _ | unterminatedComment | unterminatedString _
  | unterminatedCall _ => .endOfInput
  | badLiteral _ => .literal
  | malformed _ => .malformed

/-- The words for a fault. -/
def message : Fault → Text
  | noBlock found =>
    utf8 "structural error: expected '\x7b' to start a block, got " ++
      match found with
      | none => utf8 "end of input"
      | some tok => tok.quoted
  | strayBrace brace => utf8 "structural error: stray " ++ brace.quoted
  | missingOperand directive =>
    utf8 "unexpected end of input: " ++ directive ++ utf8 " is missing an operand"
  | unclosedBlock directive =>
    utf8 "unexpected end of input: " ++ directive ++ utf8 " block is never closed"
  | unterminatedComment => utf8 "unexpected end of input: unterminated comment"
  | unterminatedString text =>
    utf8 "unexpected end of input: unterminated string literal " ++ text
  | unterminatedCall text => utf8 "unexpected end of input: unterminated call " ++ text
  | badLiteral cause => cause.message
  | malformed text => utf8 "malformed statement " ++ text

end Fault

/-- Where a failure happened. -/
inductive Scope where
  /-- the block of a directive was due -/
  | directive (word : Token)
  /-- in the block of a section -/
  | sectionOf (kind : Token)
  /-- in the block of a label -/
  | labelOf (name : Token)
  /-- in the source of a move -/
  | moveTo (dest : Token)
  /-- in an argument of a call -/
  | callOf (name : Text)
  deriving DecidableEq, Repr

/-- The words for a scope. -/
def Scope.message : Scope → Text
  | directive word => word
  | sectionOf kind => utf8 "section " ++ kind
  | labelOf name => utf8 "label " ++ name
  | moveTo dest => utf8 "move " ++ dest
  | callOf name => utf8 "call " ++ name

/-- A fault with the scopes around it, outermost first. -/
structure Error where
  trail : List Scope
  fault : Fault
  deriving DecidableEq, Repr

namespace Error

/-- A fault outside of any scope. -/
def ofFault (fault : Fault) : Error := ⟨[], fault⟩

/-- The error in one more scope around the others. -/
def within (scope : Scope) (e : Error) : Error := ⟨scope :: e.trail, e.fault⟩

/-- The category of an error is that of its fault, whatever the scopes. -/
def category (e : Error) : Fault.Category := e.fault.category

/-- The complete message of an error. -/
def message (e : Error) : Text :=
  e.trail.foldr (fun scope rest => scope.message ++ utf8 ": " ++ rest) e.fault.message

end Error

end BlockAsm
