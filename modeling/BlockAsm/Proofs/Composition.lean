/-
  BlockAsm: one source behind another.

  A statement that was complete at the end of the input takes the same tokens when more
  follow (`read_append`), unless the first of these is an arrow, which makes the word
  before it a destination.  A source that strict braces accept has only such statements,
  at every depth.  So a run over two sources goes on, behind the first, as a run over the
  second from the state that the first one ends in (`run_append`).
-/
import BlockAsm.Proofs.Extent
import BlockAsm.Proofs.Strictness
import BlockAsm.Proofs.Tokens

namespace BlockAsm

namespace Statement

theorem isComplete_of_withBlock {opts : Options} {s s' : State} {directive : Token} {scope : Scope}
    {b : Block} {r : Except Error Text} {next : Text → State}
    (h : withBlock opts.toStrict s directive scope b r next = (s', none)) : b.closed = true := by
  by_cases hb : Admits opts.toStrict b
  · exact hb rfl
  · rw [withBlock_refused _ _ _ _ hb] at h; cases h

/-- What strict braces let pass is complete. -/
theorem isComplete_of_execute {opts : Options} {r : Except Error Text} {s s' : State}
    {stmt : Statement} (h : stmt.execute opts.toStrict r s = (s', none)) : stmt.IsComplete := by
  cases stmt with
  | sectionBlock kind b => exact isComplete_of_withBlock h
  | label name b => exact isComplete_of_withBlock h
  | sectionHeader kind f => cases h
  | _ => trivial

end Statement

/-! ## Running one source behind another -/

namespace Lowering

/-- What a strict step does, the step does with any options. -/
theorem execute_of_strict {opts : Options} {stmt : Statement} {s s' : State}
    (h : stmt.execute opts.toStrict (inner opts.toStrict stmt s) s = (s', none)) :
    stmt.execute opts (inner opts stmt s) s = (s', none) := by
  obtain ⟨inh, str, ind⟩ := opts
  cases str with
  | true => exact h
  | false =>
    have hr := (restricts_run ⟨inh, false, ind⟩ stmt.body (s.child ⟨inh, false, ind⟩)).result
    have he := (Statement.restricts_execute hr ⟨inh, false, ind⟩ s stmt).done (congrArg Prod.snd h)
    exact he.trans h

/-- Behind tokens that strict braces accept, a run goes on from the state they end in. -/
theorem run_append {opts : Options} {extra : List Token} (ha : extra.head? ≠ some Token.arrow)
    (toks : List Token) : ∀ s, (run opts.toStrict toks s).error? = none →
      run opts (toks ++ extra) s = run opts extra (run opts.toStrict toks s).state := by
  induction toks using reading_induction with
  | nil => intro s _; rw [run_nil]; rfl
  | cons tok rest ih =>
    intro s hs
    rcases run_cons_cases opts.toStrict tok rest s with
      ⟨e, left, hr⟩ | ⟨stmt, left, hr, ⟨s', e, hx⟩ | ⟨s', hx⟩⟩
    · rw [run_cons_error hr] at hs; cases hs
    · rw [run_cons_fail hr hx] at hs; cases hs
    · rw [run_cons_done hr hx] at hs ⊢
      have hr' := Statement.read_append hr (Statement.isComplete_of_execute hx) ha
      rw [List.cons_append, run_cons_done hr' (execute_of_strict hx)]
      exact (ih _ _ _ hr).2 s' hs

/-- **Sources compose.**  If strict braces accept the first source, a run over both, with a line
    end between them, ends as a run over the second one that starts with the macros and the text
    that the first one leaves. -/
theorem ofSource_append {opts : Options} {first second : Text}
    (hf : (ofSource opts.toStrict first).error? = none)
    (ha : second.tokens.head? ≠ some Token.arrow) :
    ofSource opts (first ++ Byte.newline :: second) =
      run opts second.tokens (ofSource opts.toStrict first).state := by
  rw [ofSource, tokens_append_blank (by decide) (by decide)]
  exact run_append ha first.tokens .initial hf

/-- The first source leaves a macro and an open line, which the second one goes on with. -/
theorem ofSource_append_open_line :
    let opts : Options := ⟨true, false, utf8 "  "⟩
    let first := utf8 "$define A 0x10 $section data \x7b label n \x7b dq A; \x7d \x7d mov rax,"
    let second := utf8 "A; $undef A $section bss \x7b"
    ((ofSource opts.toStrict first).error? = none ∧ second.tokens.head? ≠ some Token.arrow) ∧
      ofSource opts (first ++ Byte.newline :: second) =
        run opts second.tokens (ofSource opts.toStrict first).state ∧
      lower opts (first ++ Byte.newline :: second) =
        .ok (utf8 "section .data\n  n:\n    dq 16\nmov rax, 16\nsection .bss\n") := by
  intro opts first second
  have hf : (ofSource opts.toStrict first).error? = none := by decide +kernel
  have ha : second.tokens.head? ≠ some Token.arrow := by decide +kernel
  exact ⟨⟨hf, ha⟩, ofSource_append hf ha, by decide +kernel⟩

end Lowering

end BlockAsm
