/-
  BlockAsm: finished lines do not matter to what is written behind them.

  `execute_prepend`, `run_prepend`: a statement, and so a run, does behind finished lines what
  it does at the start of the output, and leaves those lines as they are.  So the text of a run
  behind them is their own, tidied, with the text of the run at its end (`run_behind_lines`).
-/
import BlockAsm.Proofs.Lines
import BlockAsm.Proofs.Run

namespace BlockAsm

namespace Output

theorem closeLine_append {a : Text} (h : Closed a) (b : Text) :
    closeLine (a ++ b) = a ++ closeLine b := by
  by_cases hb : b = []
  · subst hb
    rw [List.append_nil, closeLine_of_closed h, closeLine_of_closed (Or.inl rfl), List.append_nil]
  · have hn : a ++ b ≠ [] := fun hn => hb (List.append_eq_nil_iff.1 hn).2
    simp only [closeLine, Text.endsIn_append a hb, hb, hn, false_or]
    split
    · rfl
    · rw [List.append_assoc]

theorem line_append {a : Text} (h : Closed a) (b l : Text) : line (a ++ b) l = a ++ line b l := by
  simp only [line, closeLine_append h, List.append_assoc]

theorem fragment_append (a b t : Text) : fragment (a ++ b) t = a ++ fragment b t := by
  unfold fragment; split <;> simp only [List.append_assoc]

theorem splice_append (i a b t : Text) : splice i (a ++ b) t = a ++ splice i b t := by
  unfold splice; split <;> simp only [List.append_assoc]

end Output

namespace State

/-- The state with more text in front of its output. -/
def prepend (a : Text) (s : State) : State := { s with out := a ++ s.out }

section
variable {a : Text} (h : Output.Closed a) (s : State)
include h

theorem line_prepend (l : Text) : (s.prepend a).line l = (s.line l).prepend a := by
  simp only [line, prepend, Output.line_append h]

theorem pushAll_prepend (args : List Text) :
    (s.prepend a).pushAll args = ((s.pushAll args).1.prepend a, (s.pushAll args).2) := by
  induction args generalizing s with
  | nil => rfl
  | cons arg args ih =>
    have hm : (s.prepend a).macros = s.macros := rfl
    rw [pushAll, pushAll, hm]
    cases Operand.lower (s.macros.resolveOperand arg) with
    | ok op => simp only [line_prepend h, ih]
    | error f => rfl

end

end State

namespace Statement

/-- The effect with more text in front of the output. -/
def Effect.prepend (a : Text) (x : Effect) : Effect := (x.1.prepend a, x.2)

/-- **A statement does behind finished lines what it does without them.** -/
theorem execute_prepend {a : Text} (h : Output.Closed a) (opts : Options) (r : Except Error Text)
    (s : State) (stmt : Statement) :
    stmt.execute opts r (s.prepend a) = Effect.prepend a (stmt.execute opts r s) := by
  have hl := State.line_prepend h
  have hsp : ∀ (s : State) t, (s.prepend a).splice opts t = (s.splice opts t).prepend a := by
    intro s t; simp only [State.splice, State.prepend, Output.splice_append]
  cases stmt with
  | sectionBlock kind b =>
    simp only [execute, hl, hsp]
    exact withBlock_map _ _ _ _ (State.prepend a) opts b r
  | label name b =>
    have hnext : ∀ t : Text, (if b.first? = some Form.equWord then
          (s.prepend a).line (name ++ utf8 " " ++ t.dropEnd Byte.newline)
        else ((s.prepend a).line (name ++ utf8 ":")).splice opts t) =
        (if b.first? = some Form.equWord then
          s.line (name ++ utf8 " " ++ t.dropEnd Byte.newline)
        else (s.line (name ++ utf8 ":")).splice opts t).prepend a := by
      intro t
      split <;> simp only [hl, hsp]
    simp only [execute, hnext]
    exact withBlock_map s _ _ _ (State.prepend a) opts b r
  | global | sectionHeader | prologue | epilogue | ret => simp only [execute, hl]; rfl
  | string t => simp only [execute, State.fragment, State.prepend, Output.fragment_append]; rfl
  | word core terminated =>
    simp only [execute, State.fragment, State.prepend, Output.fragment_append]
    cases Operand.lower core <;> rfl
  | move dest src =>
    have hm : (s.prepend a).macros = s.macros := rfl
    simp only [execute, hl, hm]
    cases Operand.lower (s.macros.resolveOperand src) <;> rfl
  | call name args =>
    simp only [execute, State.pushAll_prepend h]
    rcases s.pushAll args.reverse with ⟨s', _ | f⟩
    · simp only [hl]; rfl
    · rfl
  | destination core => simp only [execute, State.prepend, List.append_assoc]; rfl
  | brace core => simp only [execute]; split <;> rfl
  | define | undefine | comment => rfl

end Statement

namespace Lowering

/-- The ending with more text in front of the output. -/
def Ending.prepend (a : Text) (e : Ending) : Ending := { e with state := e.state.prepend a }

/-- **A run does behind finished lines what it does without them.** -/
theorem run_prepend {a : Text} (h : Output.Closed a) (opts : Options) (toks : List Token) :
    ∀ s : State, run opts toks (s.prepend a) = (run opts toks s).prepend a := by
  induction toks using reading_induction with
  | nil => intro s; rw [run_nil, run_nil]; rfl
  | cons tok rest ih =>
    intro s
    -- the macros and the blocks of a run do not depend on its output
    have hx : ∀ stmt : Statement, stmt.execute opts (inner opts stmt (s.prepend a)) (s.prepend a) =
        Statement.Effect.prepend a (stmt.execute opts (inner opts stmt s) s) :=
      fun stmt => Statement.execute_prepend h opts (inner opts stmt s) s stmt
    rcases run_cons_cases opts tok rest s with
      ⟨e, left, hr⟩ | ⟨stmt, left, hr, ⟨s', e, hs⟩ | ⟨s', hs⟩⟩
    · rw [run_cons_error hr, @run_cons_error _ _ _ _ (s.prepend a) _ hr]; rfl
    · have hs' := hx stmt
      rw [hs] at hs'
      rw [run_cons_fail hr hs, @run_cons_fail _ _ _ _ (s.prepend a) _ _ _ hr hs']; rfl
    · have hs' := hx stmt
      rw [hs] at hs'
      rw [run_cons_done hr hs, @run_cons_done _ _ _ _ (s.prepend a) _ _ hr hs']
      exact (ih _ _ _ hr).2 s'

theorem Ending.result_prepend {a : Text} (h : Output.Closed a) (e : Ending) :
    (e.prepend a).result = e.result.map (Layout.tidy a ++ ·) := by
  obtain ⟨rest, ⟨m, out⟩, _ | err⟩ := e
  · exact congrArg Except.ok (Output.tidy_append_of_closed h out)
  · rfl

/-- **Earlier lines never influence what is written later.**  Behind finished lines a run takes the
    same tokens, leaves the same macros and fails with the same error, or not at all, as with no text
    before it.  Its output is those lines and then the output of that run, and its text is those
    lines, tidied, and then the text of that run. -/
theorem run_behind_lines {lines : Text} (h : lines = [] ∨ lines.endsIn Byte.newline)
    (opts : Options) (toks : List Token) (m : Macros) :
    let alone := run opts toks ⟨m, []⟩
    let behind := run opts toks ⟨m, lines⟩
    behind.error? = alone.error? ∧ behind.state.macros = alone.state.macros ∧
      behind.rest = alone.rest ∧ behind.state.out = lines ++ alone.state.out ∧
      behind.result = alone.result.map (Layout.tidy lines ++ ·) := by
  intro alone behind
  have hrun : behind = alone.prepend lines := by
    have := run_prepend h opts toks ⟨m, []⟩
    rwa [State.prepend, List.append_nil] at this
  rw [hrun]
  exact ⟨rfl, rfl, rfl, rfl, Ending.result_prepend h alone⟩

/-- Lines that tidying changes, in front of a word on an open line, a section and a call that fails
    behind its first push. -/
theorem run_behind_lines_nested :
    let lines := utf8 "a \x7b ;\n\n"
    let toks := (utf8 "b $section s \x7b label n \x7b dq 0x10; \x7d c").tokens
    let toks' := (utf8 "b f(0xZ, 1); c").tokens
    (lines = [] ∨ lines.endsIn Byte.newline) ∧
      (run {} toks ⟨.empty, lines⟩).result =
        .ok (utf8 "a\n\nb\nsection .s\nn:\ndq 16\nc\n") ∧
      (run {} toks' ⟨.empty, lines⟩).rest = [utf8 "c"] ∧
      (run {} toks' ⟨.empty, lines⟩).state.out = lines ++ utf8 "b \npush 1\n" := by
  intro lines toks toks'
  have h : lines = [] ∨ lines.endsIn Byte.newline := .inr (by decide)
  have ht : (run {} toks ⟨.empty, []⟩).result = .ok (utf8 "b\nsection .s\nn:\ndq 16\nc\n") :=
    Ending.result_eq_ok.2 (by decide +kernel)
  have hr : (run {} toks' ⟨.empty, []⟩).rest = [utf8 "c"] := by decide +kernel
  have ho : (run {} toks' ⟨.empty, []⟩).state.out = utf8 "b \npush 1\n" := by decide +kernel
  obtain ⟨-, -, -, -, hresult⟩ := run_behind_lines h {} toks .empty
  obtain ⟨-, -, hrest, hout, -⟩ := run_behind_lines h {} toks' .empty
  have htext : Layout.tidy lines ++ utf8 "b\nsection .s\nn:\ndq 16\nc\n" =
      utf8 "a\n\nb\nsection .s\nn:\ndq 16\nc\n" := by decide +kernel
  rw [ht] at hresult
  exact ⟨h, hresult.trans (congrArg Except.ok htext), hrest.trans hr,
    hout.trans (congrArg (lines ++ ·) ho)⟩

end Lowering

end BlockAsm
