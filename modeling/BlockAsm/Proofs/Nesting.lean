/-
  BlockAsm: statements with blocks.

  * `exists_of_read_block`: which tokens a statement with a block is made of;
  * `infix_body_of_read`: where its block stands;
  * `run_replaceBlock`: a block may be exchanged for another one with the same outcome.
-/
import BlockAsm.Proofs.Blocks
import BlockAsm.Proofs.Forms
import BlockAsm.Proofs.Run

namespace BlockAsm

namespace Statement

/-- The block of a statement. -/
def block? : Statement → Option Block
  | sectionBlock _ b | label _ b => some b
  | _ => none

theorem body_of_block? {stmt : Statement} {b : Block} (h : stmt.block? = some b) :
    stmt.body = b.tokens := by
  cases stmt with
  | sectionBlock kind b' => cases h; rfl
  | label name b' => cases h; rfl
  | _ => cases h

theorem body_of_block?_none {stmt : Statement} (h : stmt.block? = none) : stmt.body = [] := by
  cases stmt with
  | sectionBlock | label => cases h
  | _ => rfl

/-! ## Reading -/

theorem read_sectionWord (m : Macros) (rest : List Token) :
    read m Form.sectionWord rest = readSection Form.sectionWord rest := by
  have hf : Form.ofToken Form.sectionWord = .sectionBlock := by decide
  simp only [read, hf]

theorem read_labelWord (m : Macros) (rest : List Token) :
    read m Form.labelWord rest = readLabel Form.labelWord rest := by
  have hf : Form.ofToken Form.labelWord = .label := by decide
  simp only [read, hf]

theorem exists_of_readSection {directive : Token} {rest left : List Token} {stmt : Statement}
    {b : Block} (h : readSection directive rest = (.ok stmt, left)) (hb : stmt.block? = some b) :
    ∃ kind behind, rest = kind :: behind ∧ Block.read behind = (.ok b, left) ∧
      stmt = .sectionBlock kind b := by
  cases rest with
  | nil => cases h
  | cons kind behind =>
    rcases hr : Block.read behind with ⟨f | b', left'⟩
    · rw [readSection_error hr] at h; cases h; cases hb
    · rw [readSection_ok hr] at h; cases h; cases hb
      exact ⟨kind, behind, rfl, hr, rfl⟩

theorem exists_of_readLabel {directive : Token} {rest left : List Token} {stmt : Statement}
    {b : Block} (h : readLabel directive rest = (.ok stmt, left)) (hb : stmt.block? = some b) :
    ∃ name behind, rest = name :: behind ∧ Block.read behind = (.ok b, left) ∧
      stmt = .label name b := by
  cases rest with
  | nil => cases h
  | cons name behind =>
    rcases hr : Block.read behind with ⟨f | b', left'⟩
    · rw [readLabel_error hr] at h; cases h
    · rw [readLabel_ok hr] at h; cases h; cases hb
      exact ⟨name, behind, rfl, hr, rfl⟩

/-- A statement with a block is a section or a label: its directive, its name, and the block. -/
theorem exists_of_read_block {m : Macros} {tok : Token} {rest left : List Token} {stmt : Statement}
    {b : Block} (h : read m tok rest = (.ok stmt, left)) (hb : stmt.block? = some b) :
    ∃ name behind, rest = name :: behind ∧ Block.read behind = (.ok b, left) ∧
      (tok = Form.sectionWord ∧ stmt = .sectionBlock name b ∨
        tok = Form.labelWord ∧ stmt = .label name b) := by
  have hform := form_of_read h
  cases stmt with
  | sectionBlock kind b' =>
    obtain rfl := Form.eq_sectionWord_of_ofToken (hform.resolve_right fun hm => nomatch hm.1).symm
    rw [read_sectionWord] at h
    obtain ⟨name, behind, hrest, hr, hs⟩ := exists_of_readSection h hb
    exact ⟨name, behind, hrest, hr, Or.inl ⟨rfl, hs⟩⟩
  | label name b' =>
    obtain rfl := Form.eq_labelWord_of_ofToken (hform.resolve_right fun hm => nomatch hm.1).symm
    rw [read_labelWord] at h
    obtain ⟨name, behind, hrest, hr, hs⟩ := exists_of_readLabel h hb
    exact ⟨name, behind, hrest, hr, Or.inr ⟨rfl, hs⟩⟩
  | _ => cases hb

theorem suffix_of_read {m : Macros} {tok : Token} {rest left : List Token} {stmt : Statement}
    (h : read m tok rest = (.ok stmt, left)) : left <:+ rest := by
  have hs := suffix_read m tok rest
  rwa [h] at hs

/-- The block of a statement is a stretch of the tokens behind its directive. -/
theorem infix_body_of_read {m : Macros} {tok : Token} {rest left : List Token} {stmt : Statement}
    (h : read m tok rest = (.ok stmt, left)) : stmt.body <:+: rest := by
  cases hb : stmt.block? with
  | none => rw [body_of_block?_none hb]; exact List.nil_infix
  | some b =>
    obtain ⟨name, behind, rfl, hread, -⟩ := exists_of_read_block h hb
    obtain ⟨rfl, -, -⟩ := Block.read_eq_ok_iff.1 hread
    rw [body_of_block? hb]
    exact ⟨[name, Token.lbrace], b.behind left, by simp⟩

/-- What holds of all tokens holds of those that a statement leaves, and of those in its block. -/
theorem forall_mem_of_read {P : Token → Prop} {m : Macros} {tok : Token} {rest left : List Token}
    {stmt : Statement} (h : read m tok rest = (.ok stmt, left)) (hp : ∀ t ∈ tok :: rest, P t) :
    (∀ t ∈ left, P t) ∧ ∀ t ∈ stmt.body, P t :=
  ⟨fun t ht => hp t (List.mem_cons_of_mem _ ((suffix_of_read h).subset ht)),
    fun t ht => hp t (List.mem_cons_of_mem _ ((infix_body_of_read h).subset ht))⟩

/-! ## Executing -/

/-- A statement whose block failed fails. -/
theorem exists_of_execute_block {opts : Options} {r : Except Error Text} {s s' : State}
    {stmt : Statement} {b : Block} (h : stmt.execute opts r s = (s', none))
    (hb : stmt.block? = some b) : ∃ text, r = .ok text := by
  have hw : ∀ {s : State} {directive scope next},
      withBlock opts s directive scope b r next = (s', none) → ∃ text, r = .ok text := by
    intro s directive scope next h
    unfold withBlock fail at h
    split at h
    · cases h
    · cases r with
      | error e => cases h
      | ok text => exact ⟨text, rfl⟩
  cases stmt with
  | sectionBlock kind b' => cases hb; exact hw h
  | label name b' => cases hb; exact hw h
  | _ => cases hb

/-! ## Exchanging the block -/

/-- The statement with another block. -/
def replaceBlock (b : Block) : Statement → Statement
  | sectionBlock kind _ => sectionBlock kind b
  | label name _ => label name b
  | stmt => stmt

theorem body_replaceBlock {stmt : Statement} {b : Block} (h : stmt.block? = some b) (b' : Block) :
    (stmt.replaceBlock b').body = b'.tokens := by
  cases stmt with
  | sectionBlock | label => rfl
  | _ => cases h

section
variable {m : Macros} {tok name : Token} {left : List Token} {stmt : Statement} {b b' : Block}

theorem read_replaceBlock
    (h : read m tok (name :: Token.lbrace :: (b.tokens ++ b.behind left)) = (.ok stmt, left))
    (hb : stmt.block? = some b) (hf : b'.IsFormed) (hc : b'.closed = b.closed) :
    read m tok (name :: Token.lbrace :: (b'.tokens ++ b'.behind left)) =
      (.ok (stmt.replaceBlock b'), left) := by
  obtain ⟨name', behind, hrest, hr, hcases⟩ := exists_of_read_block h hb
  obtain ⟨rfl, rfl⟩ := List.cons.inj hrest
  have hr' : Block.read (Token.lbrace :: (b'.tokens ++ b'.behind left)) = (.ok b', left) :=
    Block.read_eq_ok_iff.2 ⟨rfl, hf, hc ▸ (Block.read_eq_ok_iff.1 hr).2.2⟩
  rcases hcases with ⟨rfl, rfl⟩ | ⟨rfl, rfl⟩
  · rw [read_sectionWord, readSection_ok hr']; rfl
  · rw [read_labelWord, readLabel_ok hr']; rfl

/-- Of its block a statement sees the outcome, whether it is let pass, and, if it is a label,
    whether it starts as that of a constant. -/
theorem execute_replaceBlock {opts : Options} (r : Except Error Text) (s : State)
    (hb : stmt.block? = some b) (ha : Admits opts b' ↔ Admits opts b)
    (hequ : ∀ name, stmt = .label name b →
      (b'.first? = some Form.equWord ↔ b.first? = some Form.equWord)) :
    (stmt.replaceBlock b').execute opts r s = stmt.execute opts r s := by
  have hopen : (opts.strict = true ∧ ¬ b'.closed = true) ↔
      (opts.strict = true ∧ ¬ b.closed = true) := by
    rw [← Classical.not_imp, ← Classical.not_imp]
    exact not_congr ha
  cases stmt with
  | sectionBlock kind b₀ =>
    cases hb
    simp only [replaceBlock, execute, withBlock, hopen]
  | label name b₀ =>
    cases hb
    simp only [replaceBlock, execute, withBlock, hopen, hequ name rfl]
  | _ => cases hb

end

end Statement

namespace Lowering

open Statement (read)

/-- **A block may be exchanged for another one with the same outcome.** -/
theorem run_replaceBlock {opts : Options} {tok name : Token} {left : List Token} {s : State}
    {stmt : Statement} {b b' : Block}
    (h : read s.macros tok (name :: Token.lbrace :: (b.tokens ++ b.behind left)) = (.ok stmt, left))
    (hb : stmt.block? = some b) (hf : b'.IsFormed) (hc : b'.closed = b.closed)
    (hequ : ∀ name, stmt = .label name b →
      (b'.first? = some Form.equWord ↔ b.first? = some Form.equWord))
    (hres : (run opts b'.tokens (s.child opts)).result =
      (run opts b.tokens (s.child opts)).result) :
    run opts (tok :: name :: Token.lbrace :: (b'.tokens ++ b'.behind left)) s =
      run opts (tok :: name :: Token.lbrace :: (b.tokens ++ b.behind left)) s := by
  have h' := Statement.read_replaceBlock h hb hf hc
  have hinner : inner opts (stmt.replaceBlock b') s = inner opts stmt s := by
    rw [inner, inner, Statement.body_replaceBlock hb, Statement.body_of_block? hb, hres]
  have ha : Statement.Admits opts b' ↔ Statement.Admits opts b := by
    rw [Statement.Admits, Statement.Admits, hc]
  have hx := Statement.execute_replaceBlock (inner opts stmt s) s hb ha hequ
  rcases he : stmt.execute opts (inner opts stmt s) s with ⟨s', _ | e⟩
  · rw [run_cons_done h he, run_cons_done h' (by rw [hinner, hx, he])]
  · rw [run_cons_fail h he, run_cons_fail h' (by rw [hinner, hx, he])]

end Lowering

end BlockAsm
