/-
  BlockAsm: the points of a run.

  A run passes the points in front of its statements, and the point behind the last one.  For
  the block of a statement there is a run of its own, which passes points inside the block.
  `Visits` says what points a run passes, inside of blocks or not, which tokens stand on either
  side of each, and in which state the run is that passes it.
-/
import BlockAsm.Proofs.Nesting

namespace BlockAsm.Lowering

open Statement (read Admits)

/-- A point among the tokens of a source. -/
structure Point where
  /-- the tokens in front of the point -/
  before : List Token
  /-- the tokens that the run at the point has still to take -/
  ahead : List Token
  /-- the tokens behind these, which belong to the runs around it -/
  behind : List Token
  /-- the state of the run at the point -/
  state : State

/-- A run over the tokens, from the given state, passes a point, or one of the runs over the
    blocks of its statements does. -/
inductive Visits (opts : Options) : List Token → State → Point → Prop
  | here (toks : List Token) (s : State) : Visits opts toks s ⟨[], toks, [], s⟩
  /-- behind a statement -/
  | next {tok : Token} {taken left : List Token} {s s' : State} {stmt : Statement} {p : Point}
      (hr : read s.macros tok (taken ++ left) = (.ok stmt, left))
      (hx : stmt.execute opts (inner opts stmt s) s = (s', none)) (h : Visits opts left s' p) :
      Visits opts (tok :: (taken ++ left)) s { p with before := tok :: (taken ++ p.before) }
  /-- inside the block of a statement -/
  | block {tok name : Token} {left : List Token} {s : State} {stmt : Statement} {b : Block}
      {p : Point}
      (hr : read s.macros tok (name :: Token.lbrace :: (b.tokens ++ b.behind left)) =
        (.ok stmt, left))
      (hb : stmt.block? = some b) (ha : Admits opts b) (h : Visits opts b.tokens (s.child opts) p) :
      Visits opts (tok :: name :: Token.lbrace :: (b.tokens ++ b.behind left)) s
        { p with
          before := tok :: name :: Token.lbrace :: p.before
          behind := p.behind ++ b.behind left }

variable {opts : Options} {toks : List Token} {s : State} {p : Point}

/-- The tokens on either side of a point are all the tokens. -/
theorem Visits.append_eq (h : Visits opts toks s p) : p.before ++ (p.ahead ++ p.behind) = toks := by
  induction h with
  | here toks s => exact List.append_nil toks
  | next _ _ _ ih => simp only [List.cons_append, List.append_assoc, ih]
  | block _ _ _ _ ih => simp only [List.cons_append, ← List.append_assoc, ← ih]

/-- A run that is in front of a statement with a block hands the block to a run of its own. -/
def HandsOver (opts : Options) (toks : List Token) (s₀ s : State) (b : Block) : Prop :=
  ∃ p tok rest stmt left, Visits opts toks s₀ p ∧ p.state = s ∧ p.ahead = tok :: rest ∧
    read s.macros tok rest = (.ok stmt, left) ∧ stmt.block? = some b ∧ Admits opts b

end BlockAsm.Lowering
