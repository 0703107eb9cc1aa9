/-
  BlockAsm: runs, step by step.

  * `withBlock_ok`, `withBlock_error`, `withBlock_refused`: what becomes of a statement with
    a block, whatever its state (`withBlock_map`);
  * `macros_execute`: what becomes of the macros;
  * `run_cons_error`, `run_cons_fail`, `run_cons_done`: the three ways a run takes its
    next statement;
  * `reading_induction`: what holds of no tokens, and of a first token when it holds of
    the block of its statement and of the tokens left, holds of all tokens.
-/
import BlockAsm.Lowering.Run

namespace BlockAsm

open Statement (read)

/-! ## Statements with a block -/

namespace Statement

section
variable {opts : Options} {b : Block} (s : State) (directive : Token) (scope : Scope)
  (next : Text → State)

/-- Whether the options let a block pass that may be open. -/
def Admits (opts : Options) (b : Block) : Prop := opts.strict = true → b.closed = true

theorem withBlock_ok (h : Admits opts b) (text : Text) :
    withBlock opts s directive scope b (.ok text) next = done (next text) := by
  rw [withBlock.eq_def, if_neg fun ⟨h1, h2⟩ => h2 (h h1)]

theorem withBlock_error (h : Admits opts b) (e : Error) :
    withBlock opts s directive scope b (.error e) next = fail s (e.within scope) := by
  rw [withBlock.eq_def, if_neg fun ⟨h1, h2⟩ => h2 (h h1)]

theorem withBlock_refused (h : ¬ Admits opts b) (r : Except Error Text) :
    withBlock opts s directive scope b r next = fail s (.ofFault (.unclosedBlock directive)) := by
  rw [Admits, Classical.not_imp] at h
  rw [withBlock.eq_def, if_pos h]

/-- The effect with its state changed. -/
def Effect.map (f : State → State) (x : Effect) : Effect := (f x.1, x.2)

/-- A statement with a block does not look at the state. -/
theorem withBlock_map (f : State → State) (opts : Options) (b : Block) (r : Except Error Text) :
    withBlock opts (f s) directive scope b r (fun text => f (next text)) =
      Effect.map f (withBlock opts s directive scope b r next) := by
  by_cases hb : Admits opts b
  · rcases r with e | text
    · rw [withBlock_error _ _ _ _ hb, withBlock_error _ _ _ _ hb]; rfl
    · rw [withBlock_ok _ _ _ _ hb, withBlock_ok _ _ _ _ hb]; rfl
  · rw [withBlock_refused _ _ _ _ hb, withBlock_refused _ _ _ _ hb]; rfl

end

/-! ## Macros of statements -/

/-- What a statement makes of the macros. -/
def redefine (m : Macros) : Statement → Macros
  | define name value => m.define name value
  | undefine name => m.undefine name
  | _ => m

theorem macros_withBlock (opts : Options) {s : State} (directive : Token) (scope : Scope)
    (b : Block) (r : Except Error Text) {next : Text → State} (h : ∀ text, (next text).macros = s.macros) :
    (withBlock opts s directive scope b r next).1.macros = s.macros := by
  by_cases hb : Admits opts b
  · rcases r with e | text
    · rw [withBlock_error _ _ _ _ hb]; rfl
    · rw [withBlock_ok _ _ _ _ hb]; exact h text
  · rw [withBlock_refused _ _ _ _ hb]; rfl

theorem macros_pushAll (args : List Text) : ∀ s : State, (s.pushAll args).1.macros = s.macros := by
  induction args with
  | nil => intro s; rfl
  | cons arg args ih =>
    intro s
    rw [State.pushAll]
    split
    · exact ih _
    · rfl

/-- Whether it fails or not, a statement leaves these macros. -/
theorem macros_execute (opts : Options) (r : Except Error Text) (s : State) (stmt : Statement) :
    (stmt.execute opts r s).1.macros = stmt.redefine s.macros := by
  cases stmt with
  | sectionBlock kind b => exact macros_withBlock opts _ _ b r fun _ => rfl
  | label name b =>
    refine macros_withBlock opts _ _ b r fun text => ?_
    split <;> rfl
  | move dest src =>
    rw [execute]
    split <;> rfl
  | call name args =>
    have hp := macros_pushAll args.reverse s
    rw [execute]
    split
    · rename_i s' he; rw [he] at hp; exact hp
    · rename_i s' f he; rw [he] at hp; exact hp
  | brace core =>
    rw [execute]
    split <;> rfl
  | word core terminated =>
    rw [execute]
    split <;> rfl
  | _ => rfl

end Statement

/-! ## Runs -/

namespace Lowering

/-- The run over a whole source. -/
def ofSource (opts : Options) (source : Text) : Ending := run opts source.tokens .initial

theorem lower_eq_result (opts : Options) (source : Text) :
    lower opts source = (ofSource opts source).result := rfl

/-- The outcome of the block of a statement. -/
def inner (opts : Options) (stmt : Statement) (s : State) : Except Error Text :=
  (run opts stmt.body (s.child opts)).result

@[simp]
theorem run_nil (opts : Options) (s : State) : run opts [] s = ⟨[], s, none⟩ := by rw [run]

section
variable {opts : Options} {tok : Token} {rest left : List Token} {s s' : State}
  {stmt : Statement} {e : Error}

theorem run_cons_error (h : read s.macros tok rest = (.error e, left)) :
    run opts (tok :: rest) s = ⟨left, s, some e⟩ := by
  rw [run]; split
  · rename_i e' left' h'
    rw [h] at h'; cases h'; rfl
  · rename_i h'; rw [h] at h'; cases h'

theorem run_cons_fail (h : read s.macros tok rest = (.ok stmt, left))
    (he : stmt.execute opts (inner opts stmt s) s = (s', some e)) :
    run opts (tok :: rest) s = ⟨left, s', some e⟩ := by
  rw [run]; split
  · rename_i h'; rw [h] at h'; cases h'
  · rename_i stmt' left' h'
    rw [h] at h'; cases h'
    rw [show (run opts stmt.body (s.child opts)).result = inner opts stmt s from rfl, he]

theorem run_cons_done (h : read s.macros tok rest = (.ok stmt, left))
    (he : stmt.execute opts (inner opts stmt s) s = (s', none)) :
    run opts (tok :: rest) s = run opts left s' := by
  rw [run]; split
  · rename_i h'; rw [h] at h'; cases h'
  · rename_i stmt' left' h'
    rw [h] at h'; cases h'
    rw [show (run opts stmt.body (s.child opts)).result = inner opts stmt s from rfl, he]

/-- A run over a first token fails in reading it, fails in executing its statement, or goes on. -/
theorem run_cons_cases (opts : Options) (tok : Token) (rest : List Token) (s : State) :
    (∃ e left, read s.macros tok rest = (.error e, left)) ∨
    ∃ stmt left, read s.macros tok rest = (.ok stmt, left) ∧
      ((∃ s' e, stmt.execute opts (inner opts stmt s) s = (s', some e)) ∨
        ∃ s', stmt.execute opts (inner opts stmt s) s = (s', none)) := by
  rcases h : read s.macros tok rest with ⟨e | stmt, left⟩
  · exact Or.inl ⟨e, left, rfl⟩
  · rcases he : stmt.execute opts (inner opts stmt s) s with ⟨s', _ | e⟩
    · exact Or.inr ⟨stmt, left, rfl, Or.inr ⟨s', he⟩⟩
    · exact Or.inr ⟨stmt, left, rfl, Or.inl ⟨s', e, he⟩⟩

end

theorem reading_induction {P : List Token → Prop} (nil : P [])
    (cons : ∀ tok rest, (∀ m stmt left, read m tok rest = (.ok stmt, left) →
      P stmt.body ∧ P left) → P (tok :: rest)) : ∀ toks, P toks := by
  have h : ∀ n (toks : List Token), toks.length ≤ n → P toks := by
    intro n
    induction n with
    | zero =>
      intro toks hn
      rw [List.length_eq_zero_iff.1 (Nat.le_zero.1 hn)]; exact nil
    | succ n ih =>
      rintro (_ | ⟨tok, rest⟩) hn
      · exact nil
      · rw [List.length_cons] at hn
        refine cons tok rest fun m stmt left hr => ⟨ih _ ?_, ih _ ?_⟩
        · have : stmt.body.length ≤ rest.length := Statement.length_body_le (by rw [hr])
          omega
        · have hl := (Statement.suffix_read m tok rest).length_le
          rw [hr] at hl
          exact Nat.le_trans hl (by omega)
  exact fun toks => h toks.length toks (Nat.le_refl _)

/-! ## Results -/

theorem Ending.result_eq_ok {e : Ending} {text : Text} :
    e.result = .ok text ↔ e.error? = none ∧ text = Layout.tidy e.state.out := by
  unfold Ending.result
  split
  · rename_i err h; simp [h]
  · rename_i h
    rw [Except.ok.injEq]
    exact ⟨fun ht => ⟨h, ht.symm⟩, fun ht => ht.2.symm⟩

theorem Ending.result_eq_error {e : Ending} {err : Error} :
    e.result = .error err ↔ e.error? = some err := by
  unfold Ending.result
  split
  · rename_i err' h; simp [h]
  · rename_i h; simp [h]

end Lowering

end BlockAsm
