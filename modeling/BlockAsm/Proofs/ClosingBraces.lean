/-
  BlockAsm: closing braces at the end of a source.

  With lenient braces, closing braces behind the last token change nothing
  (`run_append_rbraces`).  They close blocks that the source leaves open, at whatever depth, or
  they come to stand at the end of a block that is still open, or they are stray; and a stray
  closing brace is dropped, unless it is the name of a macro.
-/
import BlockAsm.Proofs.Extent

namespace BlockAsm

/-! ## Reading closing braces -/

namespace Token

/-- The token is a brace. -/
def IsBrace (tok : Token) : Prop := tok = lbrace ∨ tok = rbrace

instance (tok : Token) : Decidable tok.IsBrace :=
  inferInstanceAs (Decidable (tok = lbrace ∨ tok = rbrace))

/-- Some closing braces. -/
def rbraces (n : Nat) : List Token := List.replicate n rbrace

theorem rbraces_succ (n : Nat) : rbraces (n + 1) = rbrace :: rbraces n := rfl

/-- Closing braces start with nothing but a closing brace. -/
theorem head?_rbraces_ne {tok : Token} (h : tok ≠ rbrace) : ∀ n, (rbraces n).head? ≠ some tok
  | 0 => nofun
  | _ + 1 => fun he => h (Option.some.inj he).symm

end Token

namespace Block

/-- A block that goes on with closing braces takes some of them and leaves the others. -/
theorem exists_scan_rbraces : ∀ n depth : Nat, ∃ k j closed,
    scan depth (Token.rbraces n) = (⟨Token.rbraces k, closed⟩, Token.rbraces j)
  | 0, _ => ⟨0, 0, false, rfl⟩
  | n + 1, 0 => ⟨0, n, true, rfl⟩
  | n + 1, depth + 1 => by
    obtain ⟨k, j, closed, h⟩ := exists_scan_rbraces n depth
    refine ⟨k + 1, j, closed, ?_⟩
    rw [Token.rbraces_succ, scan_rbrace_succ, h]
    rfl

/-- Behind an open block, closing braces belong to the block until one of them closes it. -/
theorem exists_read_append_rbraces {toks left : List Token} {b : Block}
    (h : read toks = (.ok b, left)) (hopen : b.closed = false) (n : Nat) : ∃ k j closed,
      read (toks ++ Token.rbraces n) =
        (.ok ⟨b.tokens ++ Token.rbraces k, closed⟩, Token.rbraces j) := by
  obtain ⟨rfl, ⟨depth, hdepth, -⟩, -⟩ := read_eq_ok_iff.1 h
  obtain ⟨k, j, closed, hscan⟩ := exists_scan_rbraces n depth
  refine ⟨k, j, closed, ?_⟩
  have hbehind : b.behind left = [] := by simp [behind, hopen]
  rw [hbehind, List.append_nil, List.cons_append, read_lbrace, scan_of_depth? _ hdepth, hscan]

end Block

namespace Statement

theorem exists_read_append_rbraces {m : Macros} {tok : Token} {rest left : List Token}
    {stmt : Statement} {b : Block} (h : read m tok rest = (.ok stmt, left))
    (hb : stmt.block? = some b) (hopen : b.closed = false) (n : Nat) : ∃ k j closed,
      read m tok (rest ++ Token.rbraces n) =
        (.ok (stmt.replaceBlock ⟨b.tokens ++ Token.rbraces k, closed⟩), Token.rbraces j) := by
  obtain ⟨name, behind, rfl, hread, hcases⟩ := exists_of_read_block h hb
  obtain ⟨k, j, closed, hread'⟩ := Block.exists_read_append_rbraces hread hopen n
  refine ⟨k, j, closed, ?_⟩
  rw [List.cons_append]
  rcases hcases with ⟨rfl, rfl⟩ | ⟨rfl, rfl⟩
  · rw [read_sectionWord, readSection_ok hread']; rfl
  · rw [read_labelWord, readLabel_ok hread']; rfl

/-- A brace at the start of a statement is stray, if no macro makes something else of it and no arrow
    stands behind it. -/
theorem read_brace {m : Macros} {brace : Token} (hb : brace.IsBrace)
    (hm : Token.IsBrace (m.resolve brace)) {rest : List Token} (ha : rest.head? ≠ some Token.arrow) :
    read m brace rest = (.ok (.brace (m.resolve brace)), rest) := by
  have hf : Form.ofToken brace = .generic := by rcases hb with rfl | rfl <;> decide
  have hcore : m.resolveOperand brace.dropTerminator = m.resolve brace := by
    rcases hb with rfl | rfl <;> rfl
  have hmove : ¬ (m.resolveOperand brace.dropTerminator = Form.moveWord ∧ ¬ brace.isTerminated) := by
    rw [hcore]
    rintro ⟨he, -⟩
    rw [he] at hm
    exact absurd hm (by decide)
  have hstray : ofCore (m.resolve brace) brace.isTerminated = .brace (m.resolve brace) := if_pos hm
  simp only [read, hf]
  rw [readGeneric_word hmove ha, hcore, hstray]

theorem read_rbrace {m : Macros} (h : m.lookup? Token.rbrace = none) {rest : List Token}
    (ha : rest.head? ≠ some Token.arrow) :
    read m Token.rbrace rest = (.ok (.brace Token.rbrace), rest) := by
  have hm : m.resolve Token.rbrace = Token.rbrace := by rw [Macros.resolve, h, Option.getD_none]
  have hr := read_brace (.inr rfl) (.inr hm) ha
  rwa [hm] at hr

end Statement

/-! ## Macros that leave closing braces alone -/

/-- The tokens of a definition that gives a closing brace a value. -/
abbrev Token.DefinesRbrace (toks : List Token) : Prop :=
  [utf8 "$define", Token.rbrace] <:+: toks

namespace Macros

theorem lookup?_rbrace_redefine {m : Macros} (hm : m.lookup? Token.rbrace = none) {tok : Token}
    {rest left : List Token} {stmt : Statement}
    (h : Statement.read m tok rest = (.ok stmt, left))
    (hd : ¬ Token.DefinesRbrace (tok :: rest)) :
    (stmt.redefine m).lookup? Token.rbrace = none := by
  cases stmt with
  | define name value =>
    obtain ⟨rfl, v, rfl, -⟩ := Statement.eq_of_read_define h
    have hname : Token.rbrace ≠ name := by
      rintro rfl
      exact hd ⟨[], v :: left, rfl⟩
    rw [Statement.redefine, lookup?_define, if_neg hname, hm]
  | undefine name =>
    rw [Statement.redefine, lookup?_undefine, hm, ite_self]
  | _ => exact hm

theorem lookup?_rbrace_child {s : State} (h : s.macros.lookup? Token.rbrace = none)
    (opts : Options) : (s.child opts).macros.lookup? Token.rbrace = none := by
  unfold State.child
  split
  · exact h
  · rfl

end Macros

/-! ## Runs -/

namespace Lowering

section
variable {opts : Options} (hl : opts.strict = false)
include hl

theorem run_rbraces {s : State} (hs : s.macros.lookup? Token.rbrace = none) :
    ∀ n, run opts (Token.rbraces n) s = ⟨[], s, none⟩
  | 0 => run_nil opts s
  | n + 1 => by
    have hr := Statement.read_rbrace hs (Token.head?_rbraces_ne (by decide) n)
    have hx : Statement.execute opts (inner opts (.brace Token.rbrace) s) s (.brace Token.rbrace) =
        (s, none) := by
      rw [Statement.execute, if_neg (by rw [hl]; decide)]
      rfl
    rw [Token.rbraces_succ, run_cons_done hr hx, run_rbraces hs n]

/-- Behind a statement with an open block the first braces belong to the block, and the others are
    stray. -/
theorem run_open_append_rbraces {tok : Token} {rest : List Token} {s s' : State} {stmt : Statement}
    {b : Block} (hr : Statement.read s.macros tok rest = (.ok stmt, []))
    (hx : stmt.execute opts (inner opts stmt s) s = (s', none)) (hb : stmt.block? = some b)
    (hopen : b.closed = false) (hs' : s'.macros.lookup? Token.rbrace = none)
    (hrun : ∀ k, run opts (b.tokens ++ Token.rbraces k) (s.child opts) =
      run opts b.tokens (s.child opts)) (n : Nat) :
    run opts (tok :: (rest ++ Token.rbraces n)) s = run opts (tok :: rest) s := by
  obtain ⟨k, j, closed, hr'⟩ := Statement.exists_read_append_rbraces hr hb hopen n
  let b' : Block := ⟨b.tokens ++ Token.rbraces k, closed⟩
  have hinner : inner opts (stmt.replaceBlock b') s = inner opts stmt s := by
    rw [inner, inner, Statement.body_replaceBlock hb, Statement.body_of_block? hb, hrun k]
  have hadmits : Statement.Admits opts b' ↔ Statement.Admits opts b := by
    simp [Statement.Admits, hl]
  have hequ : ∀ name, stmt = .label name b →
      (b'.first? = some Form.equWord ↔ b.first? = some Form.equWord) := by
    intro name _
    rcases b with ⟨_ | ⟨first, toks⟩, c⟩
    · exact iff_of_false (Token.head?_rbraces_ne (by decide) k) fun h => by cases h
    · rfl
  have hx' := Statement.execute_replaceBlock (inner opts stmt s) s hb hadmits hequ
  rw [run_cons_done hr' (by rw [hinner, hx', hx]), run_rbraces hl hs', run_cons_done hr hx, run_nil]

/-- Behind a run that does not fail, closing braces change nothing. -/
theorem run_append_rbraces (toks : List Token) : ∀ (n : Nat) (s : State),
    ¬ Token.DefinesRbrace toks → s.macros.lookup? Token.rbrace = none →
      (run opts toks s).error? = none → run opts (toks ++ Token.rbraces n) s = run opts toks s := by
  induction toks using reading_induction with
  | nil =>
    intro n s _ hs _
    rw [List.nil_append, run_rbraces hl hs, run_nil]
  | cons tok rest ih =>
    intro n s hd hs he
    rcases run_cons_cases opts tok rest s with
      ⟨e, left, hr⟩ | ⟨stmt, left, hr, ⟨s', e, hx⟩ | ⟨s', hx⟩⟩
    · rw [run_cons_error hr] at he; cases he
    · rw [run_cons_fail hr hx] at he; cases he
    obtain ⟨hbody, hleft⟩ := ih _ _ _ hr
    have hs' : s'.macros.lookup? Token.rbrace = none := by
      have hm := Statement.macros_execute opts (inner opts stmt s) s stmt
      rw [hx] at hm
      exact hm ▸ Macros.lookup?_rbrace_redefine hs hr hd
    rw [List.cons_append]
    by_cases hc : stmt.IsComplete
    · have hinfix : left <:+: tok :: rest :=
        ((Statement.suffix_of_read hr).trans (List.suffix_cons tok rest)).isInfix
      rw [run_cons_done hr hx] at he ⊢
      rw [run_cons_done (Statement.read_append hr hc (Token.head?_rbraces_ne (by decide) n)) hx]
      exact hleft n s' (fun h => hd (h.trans hinfix)) hs' he
    · obtain ⟨b, hb, hopen, rfl⟩ := Statement.exists_of_not_isComplete hr hx hc
      obtain ⟨text, htext⟩ := Statement.exists_of_execute_block hx hb
      have herr := (Ending.result_eq_ok.1 htext).1
      have hinfix : stmt.body <:+: tok :: rest :=
        (Statement.infix_body_of_read hr).trans (List.suffix_cons tok rest).isInfix
      rw [Statement.body_of_block? hb] at herr hbody hinfix
      refine run_open_append_rbraces hl hr hx hb hopen hs' (fun k => ?_) n
      exact hbody k (s.child opts) (fun h => hd (h.trans hinfix))
        (Macros.lookup?_rbrace_child hs opts) herr

end

/-- **Closing braces at the end are optional.**  With lenient braces, a source that is lowered is
    lowered to the same text, with the same macros, when more closing braces stand at its end;
    only a definition may not give a closing brace a value. -/
theorem closing_braces_optional {opts : Options} (hl : opts.strict = false)
    {source source' text : Text} {n : Nat}
    (hd : ¬ [utf8 "$define", Token.rbrace] <:+: source.tokens)
    (hs : source'.tokens = source.tokens ++ List.replicate n Token.rbrace)
    (ht : lower opts source = .ok text) :
    lower opts source' = .ok text ∧
      (ofSource opts source').state.macros = (ofSource opts source).state.macros := by
  have hrun : ofSource opts source' = ofSource opts source := by
    rw [ofSource, hs]
    exact run_append_rbraces hl source.tokens n .initial hd rfl (Ending.result_eq_ok.1 ht).1
  rw [lower_eq_result, hrun]
  exact ⟨ht, rfl⟩

/-- Of four closing braces two close the open blocks, and two are stray. -/
theorem closing_braces_optional_nested :
    let opts : Options := ⟨true, false, utf8 " "⟩
    let source := utf8 "$define A \x7d $section s \x7b label n \x7b \x7d label c \x7b equ A 5;"
    let source' := source ++ utf8 "\x7d\x7d \x7d\x7d"
    let text := utf8 "section .s\n n:\n c equ 5\n"
    (opts.strict = false ∧ ¬ [utf8 "$define", Token.rbrace] <:+: source.tokens ∧
      source'.tokens = source.tokens ++ List.replicate 4 Token.rbrace ∧
      lower opts source = .ok text) ∧
    lower opts source' = .ok text ∧
      (ofSource opts source').state.macros = (ofSource opts source).state.macros := by
  intro opts source source' text
  have hd : ¬ [utf8 "$define", Token.rbrace] <:+: source.tokens := by decide +kernel
  have hs : source'.tokens = source.tokens ++ List.replicate 4 Token.rbrace := by decide +kernel
  have ht : lower opts source = .ok text := Ending.result_eq_ok.2 (by decide +kernel)
  exact ⟨⟨rfl, hd, hs, ht⟩, closing_braces_optional rfl hd hs ht⟩

end Lowering

end BlockAsm
