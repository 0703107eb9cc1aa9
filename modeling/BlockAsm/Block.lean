/-
  BlockAsm: blocks.

  A block is what stands between an opening brace and the brace that closes it.
  A block that the input ends in stays open and runs to the end.
-/
import BlockAsm.Error

namespace BlockAsm

/-- The tokens of a block without its braces, and whether its closing brace was found. -/
structure Block where
  tokens : List Token
  closed : Bool
  deriving DecidableEq, Repr

namespace Block

/-- The block with one more token in front. -/
def cons (tok : Token) (b : Block) : Block := ⟨tok :: b.tokens, b.closed⟩

/-- The block that stands at the front of the tokens, `depth` braces deep in it,
    and the tokens behind its closing brace. -/
def scan (depth : Nat) : List Token → Block × List Token
  | [] => (⟨[], false⟩, [])
  | tok :: rest =>
    if tok = Token.rbrace then
      match depth with
      | 0 => (⟨[], true⟩, rest)
      | depth + 1 =>
        let (b, behind) := scan depth rest
        (b.cons tok, behind)
    else
      let (b, behind) := scan (if tok = Token.lbrace then depth + 1 else depth) rest
      (b.cons tok, behind)

/-- Read a block.  A token that opens none is consumed all the same. -/
def read : List Token → Except Fault Block × List Token
  | [] => (.error (.noBlock none), [])
  | tok :: rest =>
    if tok = Token.lbrace then
      let (b, behind) := scan 0 rest
      (.ok b, behind)
    else (.error (.noBlock (some tok)), rest)

/-- The block as a text that has its tokens. -/
def text (b : Block) : Text := Token.unwords b.tokens

/-- The first token of the block. -/
def first? (b : Block) : Option Token := b.tokens.head?

theorem length_scan (depth : Nat) (toks : List Token) :
    (scan depth toks).1.tokens.length + (scan depth toks).2.length ≤ toks.length := by
  induction toks generalizing depth with
  | nil => simp [scan]
  | cons tok rest ih =>
    unfold scan
    split
    · cases depth with
      | zero => simp
      | succ depth => have := ih depth; simp [cons]; omega
    · have := ih (if tok = Token.lbrace then depth + 1 else depth); simp [cons]; omega

theorem length_of_read {toks : List Token} {b : Block} (h : (read toks).1 = .ok b) :
    b.tokens.length ≤ toks.length := by
  cases toks with
  | nil => cases h
  | cons tok rest =>
    simp only [read] at h
    split at h
    · cases h
      have := length_scan 0 rest
      simp only [List.length_cons]
      omega
    · cases h

theorem suffix_scan (depth : Nat) (toks : List Token) : (scan depth toks).2 <:+ toks := by
  induction toks generalizing depth with
  | nil => simp [scan]
  | cons tok rest ih =>
    unfold scan
    split
    · cases depth with
      | zero => exact List.suffix_cons tok rest
      | succ depth => exact (ih depth).trans (List.suffix_cons tok rest)
    · exact (ih _).trans (List.suffix_cons tok rest)

theorem suffix_read (toks : List Token) : (read toks).2 <:+ toks := by
  cases toks with
  | nil => exact List.suffix_refl _
  | cons tok rest =>
    simp only [read]
    split
    · exact (suffix_scan 0 rest).trans (List.suffix_cons tok rest)
    · exact List.suffix_cons tok rest

end Block

end BlockAsm
