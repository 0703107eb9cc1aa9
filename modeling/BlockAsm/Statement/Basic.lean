/-
  BlockAsm: statements.

  A statement is what its tokens say, with the terminators cut off and the
  leading word of a generic statement already resolved.  What a statement does
  is left to its execution.
-/
import BlockAsm.Block

namespace BlockAsm

/-- A statement, with its operands and its block. -/
inductive Statement where
  /-- give `name` the value -/
  | define (name value : Text)
  /-- take the value of `name` away -/
  | undefine (name : Text)
  /-- export a symbol -/
  | global (name : Text)
  /-- open a section with its block -/
  | sectionBlock (kind : Token) (body : Block)
  /-- open a section whose block cannot be read, for the given reason -/
  | sectionHeader (kind : Token) (fault : Fault)
  /-- name a block -/
  | label (name : Token) (body : Block)
  /-- set up a stack frame -/
  | prologue
  /-- take a stack frame down -/
  | epilogue
  /-- return from a call -/
  | ret
  /-- a comment, whose tokens are gone -/
  | comment
  /-- a string with its quotes -/
  | string (text : Text)
  /-- move `src` to `dest` -/
  | move (dest : Token) (src : Text)
  /-- call `name` with arguments -/
  | call (name : Text) (args : List Text)
  /-- a destination, whose arrow is gone -/
  | destination (core : Text)
  /-- a brace that belongs to no block -/
  | brace (core : Text)
  /-- a word of the target, and whether it ends its line -/
  | word (core : Text) (terminated : Bool)
  deriving DecidableEq, Repr

namespace Statement

/-- The tokens of the block of a statement, none if it has no block. -/
def body : Statement → List Token
  | sectionBlock _ b | label _ b => b.tokens
  | _ => []

end Statement

end BlockAsm
