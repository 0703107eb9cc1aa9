/-
  BlockAsm: programs are lowered to what they stand for.

  A run over the tokens of a program is followed statement by statement.  In front of each
  statement the macro table represents the environment and every line of the output
  is finished; behind it the output has grown by a text that is tidied to the lines of
  the statement (`Advances`).  A block is a run of its own.
-/
import BlockAsm.Proofs.Forms
import BlockAsm.Proofs.Program.Neatness
import BlockAsm.Proofs.Program.Reading
import BlockAsm.Proofs.Run

namespace BlockAsm

open Program Layout Lowering
open Output (Closed)

/-! ## Writing lines and words -/

/-- The arguments of a program become what they stand for. -/
theorem Program.Represents.forall₂_lowers {m : Macros} {e : Env} (h : Represents m e)
    (args : List Argument) :
    List.Forall₂ m.Lowers (argTexts args) (args.map fun a => a.atom.target e) := by
  rw [argTexts, List.forall₂_map_left_iff, List.forall₂_map_right_iff, List.forall₂_same]
  exact fun a _ => h.lower_resolveOperand a.atom

namespace Output

theorem fragment_of_neat (out : Text) {t : Text} (h : IsNeat t) :
    fragment out t = out ++ t ++ [Byte.space] := by
  rw [fragment, if_neg (by simp [h.isTerminated])]

theorem fragment_terminated (out t : Text) :
    fragment out (t ++ [Byte.semicolon]) = out ++ finished [t] := by
  rw [fragment, if_pos (by simp [Text.isTerminated]), Text.dropTerminator,
    Text.dropEnd_append_singleton]
  simp [finished]

theorem splice_finished (i out : Text) (ls : List Text) :
    splice i out (finished ls) = out ++ indent i (finished ls) := by
  rcases closed_finished ls with h | h
  · rw [h, splice, if_pos rfl, indent_nil, List.append_nil]
  · have hne : finished ls ≠ [] := by intro hn; rw [hn] at h; cases h
    rw [splice, if_neg hne, if_pos h, List.append_nil]

end Output

theorem run_word {opts : Options} {m : Macros} {tok core op : Text} {rest : List Token}
    (hf : Form.ofToken tok = .generic) (hcore : m.resolveOperand tok.dropTerminator = core)
    (hne : core ≠ Form.moveWord ∧ core ≠ Token.lbrace ∧ core ≠ Token.rbrace)
    (hop : Operand.lower core = .ok op) (hr : rest.head? ≠ some Token.arrow) (out : Text) :
    run opts (tok :: rest) ⟨m, out⟩ = run opts rest
      ⟨m, Output.fragment out (if tok.isTerminated then op ++ [Byte.semicolon] else op)⟩ := by
  refine run_cons_done (read_word hf hcore hne hr) ?_
  simp only [Statement.execute, hop]
  rfl

theorem run_word_fault (opts : Options) {m : Macros} {tok core : Text} {f : Literal.Fault}
    {rest : List Token} (hf : Form.ofToken tok = .generic)
    (hcore : m.resolveOperand tok.dropTerminator = core)
    (hne : core ≠ Form.moveWord ∧ core ≠ Token.lbrace ∧ core ≠ Token.rbrace)
    (hop : Operand.lower core = .error f) (hr : rest.head? ≠ some Token.arrow) (out : Text) :
    run opts (tok :: rest) ⟨m, out⟩ = ⟨rest, ⟨m, out⟩, some (.ofFault (.badLiteral f))⟩ := by
  refine run_cons_fail (read_word hf hcore hne hr) ?_
  simp only [Statement.execute, hop]
  rfl

namespace Program.Represents

variable {opts : Options} {m : Macros} {e : Env} (h : Represents m e) {rest : List Token}
include h

theorem run_atom (hr : rest.head? ≠ some Token.arrow) (a : Atom) (out : Text) :
    run opts (a.text :: rest) ⟨m, out⟩ =
      run opts rest ⟨m, out ++ a.target e ++ [Byte.space]⟩ := by
  rw [run_word (a.bare.ofToken (Or.inl rfl)) (by rw [a.bare.dropTerminator])
    (h.resolveOperand_ne a) (h.lower_resolveOperand a) hr, a.bare.isTerminated,
    if_neg (by simp), Output.fragment_of_neat _ (a.isNeat_target e)]

theorem run_atom_end (hr : rest.head? ≠ some Token.arrow) (a : Atom) (out : Text) :
    run opts ((a.text ++ [Byte.semicolon]) :: rest) ⟨m, out⟩ =
      run opts rest ⟨m, out ++ finished [a.target e]⟩ := by
  rw [run_word (a.bare.ofToken (Or.inr rfl)) (by rw [a.bare.ended_dropTerminator (Or.inr rfl)])
    (h.resolveOperand_ne a) (h.lower_resolveOperand a) hr, if_pos (by simp [Text.isTerminated]),
    Output.fragment_terminated]

/-- A text that is no word of a program resolves to itself. -/
theorem resolveOperand_other {t : Text} (ha : Byte.ampersand ∉ t) (ht : ¬ IsPlain t) :
    m.resolveOperand t = t := by
  rw [Macros.resolveOperand, dropFront?_ampersand ha]
  exact h.resolve_other ht

theorem run_terminator (hr : rest.head? ≠ some Token.arrow) (out : Text) :
    run opts ([Byte.semicolon] :: rest) ⟨m, out⟩ = run opts rest ⟨m, out ++ [Byte.newline]⟩ := by
  have hd : Text.dropTerminator [Byte.semicolon] = [] := by decide
  rw [run_word (by decide) (by rw [hd, h.resolveOperand_other (by decide) (by decide)])
    (by decide) (show Operand.lower [] = .ok [] by decide) hr, if_pos (by decide),
    Output.fragment_terminated]
  rfl

theorem run_equ (hr : rest.head? ≠ some Token.arrow) (out : Text) :
    run opts (Form.equWord :: rest) ⟨m, out⟩ =
      run opts rest ⟨m, out ++ Form.equWord ++ [Byte.space]⟩ := by
  have hd : Form.equWord.dropTerminator = Form.equWord := by decide
  rw [run_word (by decide) (by rw [hd, h.resolveOperand_other (by decide) (by decide)])
    (by decide) (show Operand.lower Form.equWord = .ok Form.equWord by decide) hr,
    if_neg (by decide), Output.fragment_of_neat _ (by decide)]

/-- A terminated list of atoms finishes the line with what they stand for. -/
theorem run_terminated (hr : rest.head? ≠ some Token.arrow) : ∀ (words : List Atom) (out : Text),
    run opts (terminated words ++ rest) ⟨m, out⟩ =
      run opts rest ⟨m, out ++ finished [Token.unwords (words.map (Atom.target e))]⟩
  | [], out => h.run_terminator hr out
  | [a], out => h.run_atom_end hr a out
  | a :: b :: words, out => by
    rw [terminated, List.cons_append, h.run_atom (head?_terminated_append _ rest),
      run_terminated hr (b :: words)]
    simp [Token.unwords, Text.join, finished]

end Program.Represents

/-! ## Steps of a run -/

namespace Program

/-- From a state that represents an environment, with all lines finished, a run over `toks`
    comes to a state behind the statement, and goes on with `rest`. -/
def Advances (opts : Options) (s : Stmt) (toks rest : List Token) : Prop :=
  ∀ ⦃e : Env⦄ ⦃m : Macros⦄ ⦃out : Text⦄, Represents m e → Closed out →
    ∃ m' raw, Represents m' (s.env e) ∧ Closed raw ∧ tidy raw = finished (s.lines opts e) ∧
      run opts toks ⟨m, out⟩ = run opts rest ⟨m', out ++ raw⟩

/-- A run over the tokens ends behind the program. -/
def Translates (opts : Options) (p : Program) (toks : List Token) : Prop :=
  ∀ ⦃e : Env⦄ ⦃m : Macros⦄ ⦃out : Text⦄, Represents m e → Closed out →
    ∃ m' raw, Represents m' (p.env e) ∧ Closed raw ∧ tidy raw = finished (p.lines opts e) ∧
      run opts toks ⟨m, out⟩ = ⟨[], ⟨m', out ++ raw⟩, none⟩

variable {opts : Options} {s : Stmt} {p body : Program} {toks rest inner : List Token}

theorem Translates.nil : Translates opts [] [] := by
  intro e m out hm ho
  exact ⟨m, [], hm, Or.inl rfl, by simp, by simp⟩

theorem Advances.translates (hs : Advances opts s toks rest) (hp : Translates opts p rest) :
    Translates opts (s :: p) toks := by
  intro e m out hm ho
  obtain ⟨m₁, raw₁, hm₁, hc₁, ht₁, hrun₁⟩ := hs hm ho
  obtain ⟨m₂, raw₂, hm₂, hc₂, ht₂, hrun₂⟩ := hp hm₁ (ho.append hc₁)
  refine ⟨m₂, raw₁ ++ raw₂, hm₂, hc₁.append hc₂, ?_, ?_⟩
  · rw [Output.tidy_append_of_closed hc₁, ht₁, ht₂, lines_cons, finished_append]
  · rw [hrun₁, hrun₂, List.append_assoc]

/-! ### Definitions -/

theorem advances_define {name : Word} {value : Atom} {tok : Token} (ht : Ended value.text tok) :
    Advances opts (.define name value) (utf8 "$define" :: name.text :: tok :: rest) rest := by
  intro e m out hm _
  refine ⟨m.define name.text value.text, [], hm.define name value, Or.inl rfl, ?_, ?_⟩
  · rw [Stmt.lines]; rfl
  · have hread : Statement.read m (utf8 "$define") (name.text :: tok :: rest) =
        (.ok (.define name.text value.text), rest) := by
      rw [Statement.read_define, value.bare.ended_dropTerminator ht]
    rw [run_cons_done hread rfl, List.append_nil]

theorem advances_undefine {name : Word} {tok : Token} (ht : Ended name.text tok) :
    Advances opts (.undefine name) (utf8 "$undef" :: tok :: rest) rest := by
  intro e m out hm _
  refine ⟨m.undefine name.text, [], hm.undefine name, Or.inl rfl, ?_, ?_⟩
  · rw [Stmt.lines]; rfl
  · have hf : Form.ofToken (utf8 "$undef") = .undefine := by decide
    have hread : Statement.read m (utf8 "$undef") (tok :: rest) =
        (.ok (.undefine name.text), rest) := by
      simp only [Statement.read, hf, name.plain.ended_dropTerminator ht]
    rw [run_cons_done hread rfl, List.append_nil]

/-! ### Lines -/

/-- A statement without a block that adds its lines to the output. -/
theorem Advances.of_run (hb : s.body? = none) (henv : ∀ e, s.env e = e)
    (hrun : ∀ ⦃e : Env⦄ ⦃m : Macros⦄ ⦃out : Text⦄, Represents m e → Closed out →
      run opts toks ⟨m, out⟩ = run opts rest ⟨m, out ++ finished (s.lines opts e)⟩) :
    Advances opts s toks rest := by
  intro e m out hm ho
  refine ⟨m, _, (henv e).symm ▸ hm, Output.closed_finished _, ?_, hrun hm ho⟩
  exact tidy_finished_of_neat (Stmt.isNeat_of_mem_lines hb)

/-- A statement without a block that is executed line by line. -/
theorem Advances.of_read {tok : Token} {left : List Token} (stmt : Statement)
    (hb : s.body? = none) (henv : ∀ e, s.env e = e)
    (hread : ∀ m, Statement.read m tok left = (.ok stmt, rest))
    (hexec : ∀ ⦃e : Env⦄ ⦃st : State⦄ (r : Except Error Text), Represents st.macros e →
      stmt.execute opts r st = Statement.done ((s.lines opts e).foldl State.line st)) :
    Advances opts s (tok :: left) rest := by
  refine .of_run hb henv ?_
  intro e m out hm ho
  refine run_cons_done (hread m) ((hexec _ hm).trans ?_)
  rw [State.foldl_line _ ho]
  rfl

theorem advances_global {name : Word} {tok : Token} (ht : Ended name.text tok) :
    Advances opts (.global name) (utf8 "$global" :: tok :: rest) rest := by
  refine .of_read (.global name.text) rfl (fun _ => rfl) ?_ ?_
  · intro m
    have hf : Form.ofToken (utf8 "$global") = .global := by decide
    simp only [Statement.read, hf, name.plain.ended_dropTerminator ht]
  · intro e st r _
    rw [Stmt.lines]; rfl

theorem advances_move {dest : Word} {src : Atom} {tok : Token} (ht : Ended src.text tok) :
    Advances opts (.move dest src)
      (Form.moveWord :: dest.text :: Token.arrow :: tok :: rest) rest := by
  refine .of_read (.move dest.text src.text) rfl (fun _ => rfl) ?_ ?_
  · intro m
    have hf : Form.ofToken Form.moveWord = .move := by decide
    simp only [Statement.read, hf, Statement.readMove, src.bare.ended_dropTerminator ht]
  · intro e st r hm
    simp only [Statement.execute, hm.lower_resolveOperand, hm.resolve]
    rw [Stmt.lines]; rfl

theorem Calls.advances {callee : Callee} {args : List Argument} {line : List Token}
    (h : Calls callee args line) : Advances opts (.call callee args) (line ++ rest) rest := by
  obtain ⟨tok, toks, rfl, hread⟩ := h.read rest
  refine .of_read _ rfl (fun _ => rfl) hread ?_
  intro e st r hm
  rw [Statement.execute_call opts r _ (hm.forall₂_lowers args), ← State.foldl_line_append,
    ← List.map_reverse, List.map_map, Stmt.lines, hm.resolve]
  rfl

/-- The statement that a directive is read as. -/
def Directive.statement : Directive → Statement
  | prologue => .prologue
  | epilogue => .epilogue
  | ret => .ret

theorem Directive.read_eq {d : Directive} {tok : Token} (ht : Ended d.word tok) (m : Macros) :
    Statement.read m tok rest = (.ok d.statement, rest) := by
  cases d with
  | prologue =>
    have hf : Form.ofToken tok = .prologue := by rcases ht with rfl | rfl <;> decide
    simp only [Statement.read, hf, statement]
  | epilogue =>
    have hf : Form.ofToken tok = .epilogue := by rcases ht with rfl | rfl <;> decide
    simp only [Statement.read, hf, statement]
  | ret =>
    have hf : Form.ofToken tok = .ret := by rcases ht with rfl | rfl <;> decide
    simp only [Statement.read, hf, statement]

theorem advances_directive {d : Directive} {tok : Token} (ht : Ended d.word tok) :
    Advances opts (.directive d) (tok :: rest) rest := by
  refine .of_read d.statement rfl (fun _ => rfl) (d.read_eq ht) ?_
  intro e st r _
  rw [Stmt.lines]
  cases d <;> rfl

theorem advances_instr {first : Atom} {others : List Atom}
    (hr : rest.head? ≠ some Token.arrow) :
    Advances opts (.instr first others) (terminated (first :: others) ++ rest) rest := by
  refine .of_run rfl (fun _ => rfl) ?_
  intro e m out hm _
  rw [hm.run_terminated hr, Stmt.lines]

/-! ### Blocks -/

/-- The outcome of a block is the text of its lines. -/
theorem Translates.inner_eq (h : Translates opts body inner) {e : Env} {m : Macros}
    (hm : Represents m e) (out : Text) (stmt : Statement) (hs : stmt.body = inner) :
    Lowering.inner opts stmt ⟨m, out⟩ = .ok (finished (body.lines opts (e.child opts))) := by
  obtain ⟨m', raw, -, -, ht, hrun⟩ := h (hm.child opts out) (Or.inl rfl)
  rw [Lowering.inner, hs, ← ht]
  exact congrArg Ending.result hrun

/-- A statement that writes a line and then its block, indented. -/
theorem Advances.of_block (header : Text) (henv : ∀ e, s.env e = e) (hh : IsNeat header)
    (hl : ∀ e, s.lines opts e = header ::
      (body.lines opts (e.child opts)).flatMap (indented opts.indentation))
    (hrun : ∀ ⦃e : Env⦄ ⦃m : Macros⦄ ⦃out : Text⦄, Represents m e → Closed out →
      run opts toks ⟨m, out⟩ = run opts rest ((State.line ⟨m, out⟩ header).splice opts
        (finished (body.lines opts (e.child opts))))) :
    Advances opts s toks rest := by
  intro e m out hm ho
  have hset := settled_lines opts body (e.child opts)
  have hc : Closed (indent opts.indentation (finished (body.lines opts (e.child opts)))) := by
    rw [indent_finished _ fun l hl => (hset l hl).noNewline]
    exact Output.closed_finished _
  have hhead := Output.closed_finished [header]
  -- the run of the block has tidied its text, and this run tidies it behind the indentation
  refine ⟨m, finished [header] ++ indent opts.indentation
    (finished (body.lines opts (e.child opts))), (henv e).symm ▸ hm, hhead.append hc, ?_, ?_⟩
  · rw [Output.tidy_append_of_closed hhead, tidy_finished_of_neat (by simpa using hh),
      tidy_indent_finished hset, hl, ← finished_append]
    rfl
  · rw [hrun hm ho, State.line, Output.line_of_closed ho, State.splice, Output.splice_finished,
      List.append_assoc]

theorem advances_section {kind : Word} (hi : Shaped inner) (hb : Translates opts body inner) :
    Advances opts (.sectionOf kind body)
      (Form.sectionWord :: kind.text :: (Token.lbrace :: inner ++ Token.rbrace :: rest)) rest := by
  refine .of_block (utf8 "section ." ++ kind.text.toLower) (fun _ => rfl)
    (.append (by decide) kind.plain.isNeat_toLower) (fun e => by rw [Stmt.lines]; rfl) ?_
  intro e m out hm ho
  have hf : Form.ofToken Form.sectionWord = .sectionBlock := by decide
  have hread : Statement.read m Form.sectionWord
      (kind.text :: (Token.lbrace :: inner ++ Token.rbrace :: rest)) =
        (.ok (.sectionBlock kind.text ⟨inner, true⟩), rest) := by
    simp only [Statement.read, hf]
    exact Statement.readSection_ok (Block.read_balanced hi.balanced rest)
  refine run_cons_done hread ?_
  rw [hb.inner_eq hm out (.sectionBlock kind.text ⟨inner, true⟩) rfl, Statement.execute,
    Statement.withBlock_ok _ _ _ _ (fun _ => rfl)]
  rfl

theorem read_label {m : Macros} {name : Word} (hi : Shaped inner) :
    Statement.read m Form.labelWord
      (name.text :: (Token.lbrace :: inner ++ Token.rbrace :: rest)) =
        (.ok (.label name.text ⟨inner, true⟩), rest) := by
  have hf : Form.ofToken Form.labelWord = .label := by decide
  simp only [Statement.read, hf]
  exact Statement.readLabel_ok (Block.read_balanced hi.balanced rest)

theorem advances_label {name : Word} (hi : Shaped inner)
    (hequ : inner.head? ≠ some Form.equWord) (hb : Translates opts body inner) :
    Advances opts (.label name body)
      (Form.labelWord :: name.text :: (Token.lbrace :: inner ++ Token.rbrace :: rest)) rest := by
  refine .of_block (name.text ++ utf8 ":") (fun _ => rfl)
    (.append name.plain.isNeat.inert (by decide)) (fun e => by rw [Stmt.lines]; rfl) ?_
  intro e m out hm ho
  refine run_cons_done (read_label hi) ?_
  have hfirst : Block.first? ⟨inner, true⟩ ≠ some Form.equWord := hequ
  rw [hb.inner_eq hm out (.label name.text ⟨inner, true⟩) rfl, Statement.execute,
    Statement.withBlock_ok _ _ _ _ (fun _ => rfl), if_neg hfirst]
  rfl

theorem tidy_equ : ∀ {ws : List Text}, (∀ w ∈ ws, IsNeat w) →
    tidy (Form.equWord ++ [Byte.space] ++ finished [Token.unwords ws]) =
      finished [Token.unwords (Form.equWord :: ws)]
  | [], _ => by decide
  | w :: ws, h => by
    have hneat : IsNeat (Token.unwords (Form.equWord :: w :: ws)) := by
      refine isNeat_unwords (by simp) fun t ht => ?_
      rcases List.mem_cons.1 ht with rfl | ht
      · decide
      · exact h t ht
    rw [← tidy_finished_of_neat (by simpa using hneat :
      ∀ l ∈ [Token.unwords (Form.equWord :: w :: ws)], IsNeat l)]
    simp [Token.unwords, Text.join, finished]

/-- The outcome of the block of a constant is one line. -/
theorem Represents.inner_constant {m : Macros} {e : Env} (hm : Represents m e) (out : Text)
    (words : List Atom) (stmt : Statement) (hs : stmt.body = Form.equWord :: terminated words) :
    Lowering.inner opts stmt ⟨m, out⟩ =
      .ok (finished [Token.unwords (Form.equWord :: words.map (Atom.target (e.child opts)))]) := by
  have hc := hm.child opts out
  have hrun : run opts (Form.equWord :: (terminated words ++ []))
      ((⟨m, out⟩ : State).child opts) = _ := hc.run_equ (head?_terminated_append words []) []
  rw [hc.run_terminated (by simp), run_nil, List.append_nil, List.nil_append] at hrun
  rw [Lowering.inner, hs, hrun, ← tidy_equ isNeat_of_mem_targets]
  rfl

theorem advances_constant {name : Word} {words : List Atom} :
    Advances opts (.constant name words) (Form.labelWord :: name.text ::
      (Token.lbrace :: (Form.equWord :: terminated words) ++ Token.rbrace :: rest)) rest := by
  have hi : Shaped (Form.equWord :: terminated words) := by
    simpa using Shaped.cons (by decide) (Shaped.append (fun _ => solid_of_mem_terminated) .nil)
  refine .of_run rfl (fun _ => rfl) ?_
  intro e m out hm ho
  refine run_cons_done (read_label hi) ?_
  have hfirst : Block.first? ⟨Form.equWord :: terminated words, true⟩ = some Form.equWord := rfl
  have hline : ∀ ws : List Text, name.text ++ utf8 " " ++
      (finished [Token.unwords (Form.equWord :: ws)]).dropEnd Byte.newline =
        Token.unwords (name.text :: Form.equWord :: ws) := by
    intro ws
    rw [finished_cons, finished_nil, Text.dropEnd_append_singleton]
    rfl
  rw [hm.inner_constant out words (.label name.text ⟨_, true⟩) rfl, Statement.execute,
    Statement.withBlock_ok _ _ _ _ (fun _ => rfl), if_pos hfirst, hline, State.line,
    Output.line_of_closed ho, Stmt.lines]
  rfl

/-! ## Whole programs -/

theorem Written.translates (h : Written p toks) : Translates opts p toks := by
  induction h with
  | nil => exact .nil
  | define ht _ ih => exact (advances_define ht).translates ih
  | undefine ht _ ih => exact (advances_undefine ht).translates ih
  | global ht _ ih => exact (advances_global ht).translates ih
  | sectionOf hb _ ihb ih => exact (advances_section hb.shaped ihb).translates ih
  | label hb _ ihb ih =>
    exact (advances_label hb.shaped (hb.head?_ne (Or.inr rfl)) ihb).translates ih
  | constant _ ih => exact advances_constant.translates ih
  | move ht _ ih => exact (advances_move ht).translates ih
  | call hc _ ih => exact (calls_callTokens hc _ _).advances.translates ih
  | directive ht _ ih => exact (advances_directive ht).translates ih
  | instr h ih =>
    -- an arrow would make a destination of the last word
    exact (advances_instr (h.head?_ne (Or.inl rfl))).translates ih

/-- **Programs are lowered to what they stand for.**  Every program can be written, and
    whichever way it is written, and whatever the options, it is lowered without an error
    to its target text, and the macros defined in the end are those of its environment. -/
theorem lower_program (opts : Options) (p : Program) :
    (∃ source : Text, Written p source.tokens) ∧
    ∀ source : Text, Written p source.tokens →
      lower opts source = .ok (p.target opts) ∧
        Represents (ofSource opts source).state.macros (p.env .empty) := by
  constructor
  · obtain ⟨toks, h⟩ := exists_written p
    exact ⟨Token.unwords toks, by rwa [Token.tokens_unwords h.shaped.tokens]⟩
  · intro source h
    obtain ⟨m, raw, hm, -, ht, hrun⟩ := h.translates Represents.empty (Or.inl rfl)
    have hrun' : ofSource opts source = ⟨[], ⟨m, raw⟩, none⟩ := hrun
    rw [lower_eq_result, hrun', target, ← ht]
    exact ⟨rfl, hm⟩

/-- The word that a string spells. -/
def word (s : String) (h : IsPlain (utf8 s) := by decide +kernel) : Word := ⟨utf8 s, h⟩

/-- A section with a function and a constant, behind definitions of `N` and `P`. -/
def sample : Program :=
  [ .define (word "N") (.number ⟨utf8 "0x10", 16, by decide +kernel⟩),
    .define (word "P") (.address (word "buf")),
    .sectionOf (word "TEXT")
      [ .label (word "main")
          [ .directive .prologue,
            .move (word "rax") (.word (word "N")),
            .call ⟨word "print", by decide +kernel⟩
              [ ⟨.word (word "P"), by decide +kernel⟩, ⟨.address (word "N"), by decide +kernel⟩,
                ⟨.word (word "rdi"), by decide +kernel⟩ ],
            .directive .ret ],
        .constant (word "LEN") [.word (word "N"), .word (word "$")] ],
    .undefine (word "N"),
    .instr (.word (word "mov")) [.word (word "rbx,"), .word (word "N")] ]

/-- One way to write it. -/
def sampleSource : Text :=
  utf8 "$define N 0x10; $define P &buf $section TEXT \x7b label main \x7b $pstk " ++
  utf8 "move rax <- N; print(P, &N, rdi); $return \x7d label LEN \x7b equ N $; \x7d \x7d " ++
  utf8 "$undef N mov rbx, N;"

theorem lower_program_sample : Written sample sampleSource.tokens ∧
    lower ⟨true, true, utf8 "  "⟩ sampleSource = .ok (finished
      [ utf8 "section .text", utf8 "  main:", utf8 "    push rbp", utf8 "    mov rbp, rsp",
        utf8 "    mov rax, 16", utf8 "    push rdi", utf8 "    push [0x10]",
        utf8 "    push [buf]", utf8 "    call print", utf8 "    ret", utf8 "  LEN equ 16 $",
        utf8 "mov rbx, N" ]) := by
  have hw : ∀ {toks : List Token}, Written sample toks → sampleSource.tokens = toks →
      Written sample sampleSource.tokens := fun h he => he ▸ h
  have h := hw (.define (.inr rfl) (.define (.inl rfl) (.sectionOf
    (.label (.directive (.inl rfl) (.move (.inr rfl) (.call (.inr rfl)
      (.directive (.inl rfl) .nil)))) (.constant .nil))
    (.undefine (.inl rfl) (.instr .nil))))) (by decide +kernel)
  refine ⟨h, ((lower_program _ sample).2 _ h).1.trans ?_⟩
  decide +kernel

end Program

end BlockAsm
