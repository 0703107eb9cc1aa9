/-
  BlockAsm: lowering a source.

  A run executes statement after statement until the tokens are used up or a
  statement fails; the block of a statement is lowered by a run of its own over
  the tokens of the block.  Every statement takes at least one token, and a
  block has fewer tokens than the source it stands in.

  * `Lowering.run`: from some tokens and a state to the end;
  * `lower`: a whole source;
  * `lowerAll`: a source and then each result again.
-/
import BlockAsm.Lowering.Execution
import BlockAsm.Statement.Reader

namespace BlockAsm

namespace Lowering

/-- Where a run ended: the tokens left, the state, and the error if it failed. -/
structure Ending where
  rest : List Token
  state : State
  error? : Option Error

/-- The result of a run: its tidied text, or its error. -/
def Ending.result (e : Ending) : Except Error Text :=
  match e.error? with
  | some err => .error err
  | none => .ok (Layout.tidy e.state.out)

/-- Execute the statements of the tokens, from the given state. -/
def run (opts : Options) (toks : List Token) (s : State) : Ending :=
  match toks with
  | [] => ⟨[], s, none⟩
  | tok :: rest =>
    match _h : Statement.read s.macros tok rest with
    | (.error e, left) => ⟨left, s, some e⟩
    | (.ok stmt, left) =>
      match stmt.execute opts (run opts stmt.body (s.child opts)).result s with
      | (s', some e) => ⟨left, s', some e⟩
      | (s', none) => run opts left s'
termination_by toks.length
decreasing_by
  · have : stmt.body.length ≤ rest.length := Statement.length_body_le (by rw [_h])
    simp only [List.length_cons]
    omega
  · have : left.length ≤ rest.length := by
      have h := (Statement.suffix_read s.macros tok rest).length_le
      rwa [_h] at h
    simp only [List.length_cons]
    omega

end Lowering

/-- The target text of a source. -/
def lower (opts : Options) (source : Text) : Except Error Text :=
  (Lowering.run opts source.tokens .initial).result

/-- The target text of the source and then of each result again, with the options
    of each pass; the first failure is the last result. -/
def lowerAll : List Options → Text → List (Except Error Text)
  | [], _ => []
  | opts :: passes, source =>
    match lower opts source with
    | .ok text => .ok text :: lowerAll passes text
    | .error e => [.error e]

end BlockAsm
