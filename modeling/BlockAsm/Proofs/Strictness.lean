/-
  BlockAsm: strict braces are a conservative restriction.

  A strict run and a lenient one read the same statements.  They part only where the
  strict one refuses a stray brace or an open block, at any depth (`AtBrace`); up to
  there they are in the same state.
-/
import BlockAsm.Proofs.Run

namespace BlockAsm

namespace Options

/-- The options with strict braces. -/
def toStrict (opts : Options) : Options := { opts with strict := true }

/-- The options with lenient braces. -/
def toLenient (opts : Options) : Options := { opts with strict := false }

end Options

/-- An error about a brace or about the end of the input. -/
def Error.AtBrace (e : Error) : Prop := e.category = .structural ∨ e.category = .endOfInput

theorem Error.AtBrace.within {e : Error} (h : e.AtBrace) (scope : Scope) :
    (e.within scope).AtBrace := h

namespace Statement

/-- The second outcome is that of the first, or the first one failed at a brace. -/
structure Restricts (strict lenient : Except Error Text) : Prop where
  ok : ∀ text, strict = .ok text → lenient = .ok text
  error : ∀ e text, strict = .error e → lenient = .ok text → e.AtBrace

/-- The second effect is that of the first, or the first one failed at a brace. -/
structure EffectRestricts (strict lenient : Effect) : Prop where
  done : strict.2 = none → lenient = strict
  fail : ∀ e, strict.2 = some e → lenient.2 = none → e.AtBrace

theorem EffectRestricts.refl (x : Effect) : EffectRestricts x x where
  done _ := rfl
  fail e h h' := by rw [h] at h'; cases h'

theorem restricts_withBlock {r r' : Except Error Text} (h : Restricts r r') (opts : Options)
    (s : State) (directive : Token) (scope : Scope) (b : Block) (next : Text → State) :
    EffectRestricts (withBlock opts.toStrict s directive scope b r next)
      (withBlock opts.toLenient s directive scope b r' next) := by
  have hl : Admits opts.toLenient b := fun hs => by cases hs
  by_cases hb : Admits opts.toStrict b
  · rcases r with e | text
    · rw [withBlock_error _ _ _ _ hb]
      refine ⟨fun hn => (Option.some_ne_none _ hn).elim, fun e' he' hn => ?_⟩
      rcases r' with e'' | text
      · rw [withBlock_error _ _ _ _ hl] at hn; cases hn
      · cases he'
        exact (h.error e text rfl rfl).within scope
    · rw [h.ok text rfl, withBlock_ok _ _ _ _ hb, withBlock_ok _ _ _ _ hl]
      exact EffectRestricts.refl _
  · -- an open block, which only strict braces refuse
    rw [withBlock_refused _ _ _ _ hb]
    refine ⟨fun hn => (Option.some_ne_none _ hn).elim, fun e he _ => ?_⟩
    cases he
    exact Or.inr rfl

/-- Executing a statement strictly restricts executing it leniently. -/
theorem restricts_execute {r r' : Except Error Text} (h : Restricts r r') (opts : Options)
    (s : State) (stmt : Statement) :
    EffectRestricts (stmt.execute opts.toStrict r s) (stmt.execute opts.toLenient r' s) := by
  cases stmt with
  | sectionBlock kind b => exact restricts_withBlock h opts _ _ _ b _
  | label name b => exact restricts_withBlock h opts s _ _ b _
  | brace core =>
    refine ⟨fun hn => (Option.some_ne_none _ hn).elim, fun e he _ => ?_⟩
    cases he
    exact Or.inl rfl
  | _ => exact EffectRestricts.refl _

end Statement

namespace Lowering

open Statement (Restricts EffectRestricts)

/-- The second ending is the first, or the first run failed at a brace. -/
structure EndingRestricts (strict lenient : Ending) : Prop where
  done : strict.error? = none → lenient = strict
  fail : ∀ e, strict.error? = some e → lenient.error? = none → e.AtBrace

theorem EndingRestricts.result {x y : Ending} (h : EndingRestricts x y) :
    Restricts x.result y.result where
  ok text ht := by rw [h.done (Ending.result_eq_ok.1 ht).1, ht]
  error e _ he ht := h.fail e (Ending.result_eq_error.1 he) (Ending.result_eq_ok.1 ht).1

/-- A strict run restricts the lenient run over the same tokens. -/
theorem restricts_run (opts : Options) (toks : List Token) :
    ∀ s, EndingRestricts (run opts.toStrict toks s) (run opts.toLenient toks s) := by
  induction toks using reading_induction with
  | nil => intro s; rw [run_nil, run_nil]; exact ⟨fun _ => rfl, fun e he => by cases he⟩
  | cons tok rest ih =>
    intro s
    rcases run_cons_cases opts.toStrict tok rest s with
      ⟨e, left, hr⟩ | ⟨stmt, left, hr, hx⟩
    · rw [run_cons_error hr, run_cons_error hr]
      exact ⟨fun _ => rfl, fun e' _ hn => by cases hn⟩
    obtain ⟨hbody, hleft⟩ := ih _ _ _ hr
    have hi : Restricts (inner opts.toStrict stmt s) (inner opts.toLenient stmt s) :=
      (hbody (s.child opts)).result
    have he := Statement.restricts_execute hi opts s stmt
    rcases hx with ⟨s', e, hx⟩ | ⟨s', hx⟩
    · rw [run_cons_fail hr hx]
      refine ⟨fun hn => (Option.some_ne_none _ hn).elim, fun e' he' hn => ?_⟩
      cases he'
      rw [hx] at he
      -- the lenient run cannot have failed here, or it would have failed as a whole
      rcases hy : stmt.execute opts.toLenient (inner opts.toLenient stmt s) s with ⟨s'', _ | e''⟩
      · exact he.fail e rfl (by rw [hy])
      · rw [run_cons_fail hr hy] at hn; cases hn
    · have hy := he.done (by rw [hx])
      rw [hx] at hy
      rw [run_cons_done hr hx, run_cons_done hr hy]
      exact hleft s'

/-- **Strict braces are a conservative restriction.**  What a strict run produces, the lenient
    run produces too, with the same macros; and where only the strict run fails, it fails at a
    brace or at the end of the input. -/
theorem strict_restricts_lenient (opts : Options) (source : Text) :
    (∀ text, lower opts.toStrict source = .ok text →
      lower opts.toLenient source = .ok text ∧
        (ofSource opts.toLenient source).state.macros =
          (ofSource opts.toStrict source).state.macros) ∧
    ∀ text e, lower opts.toLenient source = .ok text → lower opts.toStrict source = .error e →
      (e.category = .structural ∨ e.category = .endOfInput) ∧ e.category ≠ .literal := by
  have h : EndingRestricts (ofSource opts.toStrict source) (ofSource opts.toLenient source) :=
    restricts_run opts source.tokens .initial
  refine ⟨fun text ht => ⟨h.result.ok text ht, ?_⟩, fun text e ht he => ?_⟩
  · rw [h.done (Ending.result_eq_ok.1 ht).1]
  · have hb : e.AtBrace := h.result.error e text he ht
    refine ⟨hb, fun hl => ?_⟩
    rcases hb with hb | hb <;> rw [hl] at hb <;> cases hb

/-- A closed block passes with strict braces; an open one, two blocks deep, does not. -/
theorem strict_restricts_lenient_open_block :
    let opts : Options := ⟨true, false, utf8 " "⟩
    let closed := utf8 "$define N 0x10 $section data \x7b label n \x7b dq N; \x7d \x7d"
    let unclosed := utf8 "$define N 0x10 $section data \x7b label n \x7b dq N;"
    (lower opts.toLenient closed = .ok (utf8 "section .data\n n:\n  dq 16\n") ∧
      (ofSource opts.toLenient closed).state.macros =
        (ofSource opts.toStrict closed).state.macros) ∧
    ∃ e, lower opts.toLenient unclosed = .ok (utf8 "section .data\n n:\n  dq 16\n") ∧
      lower opts.toStrict unclosed = .error e ∧
      (e.category = .structural ∨ e.category = .endOfInput) ∧ e.category ≠ .literal := by
  intro opts closed unclosed
  have hc : lower opts.toStrict closed = .ok (utf8 "section .data\n n:\n  dq 16\n") :=
    Ending.result_eq_ok.2 (by decide +kernel)
  have hl : lower opts.toLenient unclosed = .ok (utf8 "section .data\n n:\n  dq 16\n") :=
    Ending.result_eq_ok.2 (by decide +kernel)
  have hs : lower opts.toStrict unclosed = .error (.ofFault (.unclosedBlock Form.sectionWord)) :=
    Ending.result_eq_error.2 (by decide +kernel)
  exact ⟨(strict_restricts_lenient opts closed).1 _ hc, _, hl, hs,
    (strict_restricts_lenient opts unclosed).2 _ _ hl hs⟩

end Lowering

end BlockAsm
