/-
  BlockAsm: cursors.

  A cursor stands somewhere in the tokens of a source and hands them out one by
  one or block by block.  Looking ahead is by a signed 64-bit offset that is
  added to the position before the sum is compared with the number of tokens;
  a sum that overflows is out of range.
-/
import BlockAsm.Block

namespace BlockAsm

/-- A position in a list of tokens. -/
structure Cursor where
  /-- all tokens, handed out or not -/
  source : List Token
  /-- the tokens still to come -/
  rest : List Token
  suffix : rest <:+ source

namespace Cursor

/-- The cursor in front of the tokens of a source. -/
def ofSource (source : Text) : Cursor := ⟨source.tokens, source.tokens, List.suffix_refl _⟩

/-- The number of tokens handed out. -/
def position (c : Cursor) : Nat := c.source.length - c.rest.length

/-- The number of tokens still to come. -/
def remaining (c : Cursor) : Nat := c.rest.length

/-- Whether every token was handed out. -/
def isDone (c : Cursor) : Bool := c.rest.isEmpty

/-- The cursor at a later position. -/
def moveTo (c : Cursor) (rest : List Token) (h : rest <:+ c.rest) : Cursor :=
  ⟨c.source, rest, h.trans c.suffix⟩

/-- Hand out the next token. -/
def next (c : Cursor) : Option Token × Cursor :=
  match h : c.rest with
  | [] => (none, c)
  | tok :: rest => (some tok, c.moveTo rest (h ▸ List.suffix_cons tok rest))

/-- Hand out the next block; a token that opens none is handed out all the same. -/
def block (c : Cursor) : Except Fault Block × Cursor :=
  ((Block.read c.rest).1, c.moveTo (Block.read c.rest).2 (Block.suffix_read c.rest))

/-- A position before the first token, where no token can be. -/
structure OutOfRange where
  index : Int
  deriving DecidableEq, Repr

/-- The words for a position out of range. -/
def OutOfRange.message (e : OutOfRange) : Text :=
  utf8 "runtime error: index out of range [" ++ Numeral.ofInt e.index ++ utf8 "]"

/-- The token `offset` places ahead, if there is one: the place is the 64-bit sum
    of the position and the offset, and a negative sum is out of range. -/
def peek (c : Cursor) (offset : Int64) : Except OutOfRange (Option Token) :=
  let index := (c.position + offset.toInt).bmod UInt64.size
  if offset < 0 ∨ c.source.length ≤ index then .ok none
  else if index < 0 then .error ⟨index⟩
  else .ok c.source[index.toNat]?

end Cursor

end BlockAsm
