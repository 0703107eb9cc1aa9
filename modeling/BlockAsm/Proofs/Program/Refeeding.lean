/-
  BlockAsm: lowering the output of a program again.

  * `MacroFree`: the tokens of programs without macros, comments and strings, in any layout;
  * `Passes`: a run over the tokens of a statement adds a text of fixed tokens to the output;
  * `MacroFree.passes`: so does a run over a program, with the texts of its blocks spliced in.

  What is lowered to fixed tokens is not changed by lowering it again, but for its blanks.
-/
import BlockAsm.Proofs.Isolation
import BlockAsm.Proofs.Program.Fixed

namespace BlockAsm

open Program Layout Lowering
open Output (Closed)

namespace Program

/-! ## Programs without macros -/

/-- The tokens of an instruction: its words, with a terminator at the end of the last one or apart
    from it.  Without words it is a terminator. -/
def Instruction (words : List Atom) (toks : List Token) : Prop :=
  toks = terminated words ∨ toks = words.map Atom.text ++ [[Byte.semicolon]]

/-- The tokens of programs without macros, comments and strings. -/
inductive MacroFree : List Token → Prop
  | nil : MacroFree []
  | global {name : Word} {tok toks} : Ended name.text tok → MacroFree toks →
      MacroFree (utf8 "$global" :: tok :: toks)
  | sectionOf {kind : Word} {inner toks} : MacroFree inner → MacroFree toks →
      MacroFree (Form.sectionWord :: kind.text :: (Token.lbrace :: inner ++ Token.rbrace :: toks))
  | label {name : Word} {inner toks} : MacroFree inner → MacroFree toks →
      MacroFree (Form.labelWord :: name.text :: (Token.lbrace :: inner ++ Token.rbrace :: toks))
  | constant {name : Word} {words line toks} : Instruction words line → MacroFree toks →
      MacroFree (Form.labelWord :: name.text ::
        (Token.lbrace :: (Form.equWord :: line) ++ Token.rbrace :: toks))
  | move {dest : Word} {src : Atom} {tok toks} : Ended src.text tok → MacroFree toks →
      MacroFree (Form.moveWord :: dest.text :: Token.arrow :: tok :: toks)
  | call {f args line toks} : Calls f args line → MacroFree toks → MacroFree (line ++ toks)
  | directive {d tok toks} : Ended (Directive.word d) tok → MacroFree toks →
      MacroFree (tok :: toks)
  | instr {words line toks} : Instruction words line → MacroFree toks → MacroFree (line ++ toks)

/-! ### Instructions -/

namespace Instruction

variable {words : List Atom} {line : List Token} (h : Instruction words line)
include h

theorem solid : ∀ tok ∈ line, tok ≠ [] ∧ tok.IsSolid := by
  intro tok ht
  rcases h with rfl | rfl
  · exact solid_of_mem_terminated ht
  · rcases List.mem_append.1 ht with ht | ht
    · obtain ⟨a, -, rfl⟩ := List.mem_map.1 ht
      exact ⟨a.bare.ne_nil, a.bare.solid⟩
    · rw [List.mem_singleton.1 ht]; decide

theorem exists_cons : ∃ tok left, line = tok :: left ∧ tok ∉ reserved := by
  rcases h with rfl | rfl
  · exact exists_terminated words
  · cases words with
    | nil => exact ⟨_, [], rfl, by decide⟩
    | cons a words => exact ⟨_, _, rfl, a.bare.notReserved⟩

theorem head?_ne {r : Token} (hr : r ∈ reserved) (rest : List Token) :
    (line ++ rest).head? ≠ some r := by
  obtain ⟨tok, left, rfl, hn⟩ := h.exists_cons
  exact fun he => hn (Option.some.inj he ▸ hr)

end Instruction

/-! ### The shape of programs without macros -/

namespace MacroFree

theorem shaped {toks : List Token} (h : MacroFree toks) : Shaped toks := by
  have hw : ∀ w : Word, w.text ≠ [] ∧ w.text.IsSolid := fun w => ⟨w.plain.ne_nil, w.plain.solid⟩
  induction h with
  | nil => exact .nil
  | @global name _ _ ht _ ih => exact .cons (by decide) (.cons (name.plain.ended_solid ht) ih)
  | @sectionOf kind _ _ _ _ ihb ih => exact .cons (by decide) (.cons (hw kind) (.block ihb ih))
  | @label name _ _ _ _ ihb ih => exact .cons (by decide) (.cons (hw name) (.block ihb ih))
  | @constant name _ line _ hl _ ih =>
    have hi : Shaped line := by simpa using Shaped.append hl.solid .nil
    exact .cons (by decide) (.cons (hw name) (.block (.cons (by decide) hi) ih))
  | @move dest src _ _ ht _ ih =>
    exact .cons (by decide)
      (.cons (hw dest) (.cons (by decide) (.cons (src.bare.ended_solid ht) ih)))
  | call hl _ ih => exact .append hl.solid ih
  | @directive d _ _ ht _ ih =>
    exact .cons (by rcases ht with rfl | rfl <;> cases d <;> decide) ih
  | instr hl _ ih => exact .append hl.solid ih

/-- A program starts with neither an arrow nor `equ`. -/
theorem head?_ne {toks : List Token} (h : MacroFree toks) {r : Token}
    (hr : r = Token.arrow ∨ r = Form.equWord) : toks.head? ≠ some r := by
  have hres : r ∈ reserved := by rcases hr with rfl | rfl <;> decide
  have hne : ∀ {tok : Token} {rest : List Token}, tok ≠ r → (tok :: rest).head? ≠ some r :=
    fun hn he => hn (Option.some.inj he)
  cases h with
  | nil => simp
  | call hl =>
    obtain ⟨behind, left, rfl⟩ := hl.exists_cons
    have hp : ∀ r ∈ reserved, Byte.lparen ∉ r := by decide
    exact hne fun he => hp r hres (by rw [← he]; simp)
  | instr hl => exact hl.head?_ne hres _
  | @directive d _ _ ht =>
    refine hne fun he => ?_
    subst he
    rcases ht with rfl | rfl <;> cases d <;> revert hr <;> decide
  | _ => exact hne (by rcases hr with rfl | rfl <;> decide)

end MacroFree

end Program

/-! ## Lines of fixed tokens -/

/-- Without macros the lines of a statement have fixed tokens, if it has no block. -/
theorem Stmt.isFixedText_of_mem_lines {opts : Options} {s : Stmt} (h : s.body? = none) :
    ∀ l ∈ s.lines opts .empty, IsFixedText l := by
  have hwords : ∀ {words : List Atom}, ∀ t ∈ words.map (Atom.target .empty), IsFixed t := by
    intro words t ht
    obtain ⟨a, -, rfl⟩ := List.mem_map.1 ht
    exact a.isFixed_target
  intro l hl
  cases s with
  | define name value | undefine name => simp [Stmt.lines] at hl
  | sectionOf kind body | label name body => cases h
  | global name =>
    rw [Stmt.lines, List.mem_singleton] at hl
    rw [hl]
    have hglobal : IsPlain (utf8 "global") := by decide +kernel
    exact hglobal.isFixedText.append_space name.plain.isFixedText
  | constant name words =>
    rw [Stmt.lines, List.mem_singleton, Env.child_empty] at hl
    rw [hl]
    refine .of_unwords fun t ht => ?_
    rcases List.mem_cons.1 ht with rfl | ht
    · exact name.plain.isFixed
    · rcases List.mem_cons.1 ht with rfl | ht
      · exact Or.inl rfl
      · exact hwords t ht
  | move dest src =>
    rw [Stmt.lines, List.mem_singleton] at hl
    have hline : l = utf8 "mov" ++ Byte.space ::
        ((dest.text ++ [Byte.comma]) ++ Byte.space :: src.target .empty) := by
      rw [hl, show utf8 "mov " = utf8 "mov" ++ [Byte.space] from rfl,
        show utf8 ", " = [Byte.comma, Byte.space] from rfl]
      simp [Env.value, Env.empty, Atom.text]
    have hmov : IsPlain (utf8 "mov") := by decide +kernel
    have hdest : IsPlain (dest.text ++ [Byte.comma]) := dest.plain.append_singleton (Or.inl rfl)
    rw [hline]
    exact hmov.isFixedText.append_space
      (hdest.isFixedText.append_space src.isFixed_target.isFixedText)
  | call callee args =>
    rw [Stmt.lines, List.mem_append, List.mem_singleton] at hl
    rcases hl with hl | rfl
    · obtain ⟨a, -, rfl⟩ := List.mem_map.1 hl
      have hpush : IsPlain (utf8 "push") := by decide +kernel
      exact hpush.isFixedText.append_space a.atom.isFixed_target.isFixedText
    · have hcall : IsPlain (utf8 "call") := by decide +kernel
      exact hcall.isFixedText.append_space callee.word.plain.isFixedText
  | directive d =>
    rw [Stmt.lines] at hl
    have hd : ∀ l ∈ d.lines, ∀ tok ∈ l.tokens, IsPlain tok := by cases d <;> decide +kernel
    exact fun tok ht => (hd l hl tok ht).isFixed
  | instr first others =>
    rw [Stmt.lines, List.mem_singleton] at hl
    exact hl ▸ .of_unwords hwords

/-! ## Steps of a run -/

namespace Program

/-- From a state without macros, with all lines finished, a run over `toks` adds a text of fixed
    tokens to the output, and goes on with `rest`. -/
def Passes (opts : Options) (toks rest : List Token) : Prop :=
  ∀ ⦃m : Macros⦄ ⦃out : Text⦄, Represents m .empty → Closed out →
    ∃ m' raw, Represents m' .empty ∧ Closed raw ∧ IsFixedText (tidy raw) ∧
      run opts toks ⟨m, out⟩ = run opts rest ⟨m', out ++ raw⟩

variable {opts : Options} {s : Stmt} {toks mid rest inner : List Token}

theorem Passes.refl : Passes opts toks toks := by
  intro m out hm ho
  refine ⟨m, [], hm, Or.inl rfl, ?_, by simp⟩
  intro tok ht
  cases ht

theorem Passes.trans (h : Passes opts toks mid) (h' : Passes opts mid rest) :
    Passes opts toks rest := by
  intro m out hm ho
  obtain ⟨m₁, raw₁, hm₁, hc₁, ht₁, hrun₁⟩ := h hm ho
  obtain ⟨m₂, raw₂, hm₂, hc₂, ht₂, hrun₂⟩ := h' hm₁ (ho.append hc₁)
  refine ⟨m₂, raw₁ ++ raw₂, hm₂, hc₁.append hc₂, ?_, ?_⟩
  · rw [Output.tidy_append_of_closed hc₁]
    intro tok ht
    rw [hc₁.tidy.tokens_append, List.mem_append] at ht
    exact ht.elim (ht₁ tok) (ht₂ tok)
  · rw [hrun₁, hrun₂, List.append_assoc]

/-- A statement without a block. -/
theorem Advances.passes (h : Advances opts s toks rest) (hb : s.body? = none)
    (he : s.env .empty = .empty) : Passes opts toks rest := by
  intro m out hm ho
  obtain ⟨m', raw, hm', hc, ht, hrun⟩ := h hm ho
  refine ⟨m', raw, he ▸ hm', hc, ?_, hrun⟩
  intro tok hm
  rw [ht, tokens_finished, List.mem_flatMap] at hm
  obtain ⟨l, hl, htok⟩ := hm
  exact Stmt.isFixedText_of_mem_lines hb l hl tok htok

/-- A run that adds one line of fixed tokens. -/
theorem Passes.of_line (h : ∀ ⦃m : Macros⦄ ⦃out : Text⦄, Represents m .empty → Closed out →
      ∃ l, IsFixedText l ∧ run opts toks ⟨m, out⟩ = run opts rest ⟨m, out ++ finished [l]⟩) :
    Passes opts toks rest := by
  intro m out hm ho
  obtain ⟨l, hl, hrun⟩ := h hm ho
  exact ⟨m, _, hm, Output.closed_finished _, hl.finished.tidy, hrun⟩

/-! ### Instructions -/

theorem Represents.run_words {m : Macros} (hm : Represents m .empty) :
    ∀ {words : List Atom}, rest.head? ≠ some Token.arrow → ∀ out : Text,
      run opts (words.map Atom.text ++ rest) ⟨m, out⟩ =
        run opts rest ⟨m, out ++ (words.map Atom.direct).flatMap (· ++ [Byte.space])⟩
  | [], hr, out => by simp
  | a :: words, hr, out => by
    have hhead : (words.map Atom.text ++ rest).head? ≠ some Token.arrow := by
      cases words with
      | nil => exact hr
      | cons b words => exact fun he => b.bare.notReserved (Option.some.inj he ▸ by decide)
    rw [List.map_cons, List.cons_append, hm.run_atom hhead, run_words hm hr, a.target_empty]
    simp

/-- The words of an instruction become one line of fixed tokens. -/
theorem Instruction.exists_line {words : List Atom} {line : List Token}
    (h : Instruction words line) (opts : Options) {m : Macros} (hm : Represents m .empty)
    (hr : rest.head? ≠ some Token.arrow) : ∃ l, IsFixedText l ∧ ∀ out,
      run opts (line ++ rest) ⟨m, out⟩ = run opts rest ⟨m, out ++ finished [l]⟩ := by
  rcases h with rfl | rfl
  · refine ⟨_, .of_unwords fun t ht => ?_, hm.run_terminated hr words⟩
    obtain ⟨a, -, rfl⟩ := List.mem_map.1 ht
    exact a.isFixed_target
  · have hfixed : ∀ t ∈ words.map Atom.direct, IsFixed t := by
      intro t ht
      obtain ⟨a, -, rfl⟩ := List.mem_map.1 ht
      exact a.isFixed_direct
    refine ⟨_, .of_flatMap hfixed, fun out => ?_⟩
    have hhead : ([Byte.semicolon] :: rest).head? ≠ some Token.arrow :=
      head?_terminated_append [] rest
    rw [List.append_assoc, List.singleton_append, hm.run_words hhead, hm.run_terminator hr]
    simp [finished]

theorem Instruction.passes {words : List Atom} {line : List Token} (h : Instruction words line)
    (hr : rest.head? ≠ some Token.arrow) : Passes opts (line ++ rest) rest := by
  refine .of_line fun m out hm _ => ?_
  obtain ⟨l, hl, hrun⟩ := h.exists_line opts hm hr
  exact ⟨l, hl, hrun out⟩

/-! ### Blocks -/

/-- The outcome of a block is a text of fixed tokens. -/
theorem Passes.exists_text (h : Passes opts inner []) {m : Macros} (hm : Represents m .empty)
    (out : Text) : ∃ text, IsFixedText text ∧
      (run opts inner ((⟨m, out⟩ : State).child opts)).result = .ok text := by
  have hchild := hm.child opts out
  rw [Env.child_empty] at hchild
  obtain ⟨m', raw, -, -, ht, hrun⟩ := h hchild (Or.inl rfl)
  rw [run_nil] at hrun
  exact ⟨_, ht, congrArg Ending.result hrun⟩

/-- A block is spliced in behind its header, indented with blanks. -/
theorem Passes.of_opens (hi : opts.indentation.IsBlank) {word name : Token} {header : Text}
    (ho : Opens word name inner header) (hh : IsFixedText header) (hs : Shaped inner)
    (h : Passes opts inner []) :
    Passes opts (word :: name :: (Token.lbrace :: inner ++ Token.rbrace :: rest)) rest := by
  intro m out hm hout
  obtain ⟨text, ht, hresult⟩ := h.exists_text hm out
  have hc := Output.closed_finished [header]
  refine ⟨m, finished [header] ++ indent opts.indentation (Output.closeLine text), hm,
    hc.append (Output.closed_indent _ (Output.closed_closeLine text)), ?_, ?_⟩
  · refine IsFixedText.tidy fun tok hm => ?_
    rw [hc.tokens_append, tokens_indent hi, tokens_closeLine, tokens_finished,
      List.mem_append] at hm
    rcases hm with hm | hm
    · exact hh tok (by simpa using hm)
    · exact ht tok hm
  · refine (ho.run_eq hs.balanced hresult rest).trans ?_
    rw [← run_prepend (closed_spliced opts _ header text), spliced, Output.line_of_closed hout]
    simp [State.prepend]

theorem Instruction.exists_text {words : List Atom} {line : List Token}
    (h : Instruction words line) (opts : Options) {m : Macros} (hm : Represents m .empty) :
    ∃ text, IsFixedText text ∧ (run opts (Form.equWord :: line) ⟨m, []⟩).result = .ok text := by
  have hnil : ([] : List Token).head? ≠ some Token.arrow := by simp
  obtain ⟨l, hl, hrun⟩ := h.exists_line opts hm hnil
  have hequ : run opts (Form.equWord :: (line ++ [])) ⟨m, []⟩ = _ :=
    hm.run_equ (h.head?_ne (by decide) []) []
  rw [hrun, run_nil, List.nil_append, List.append_assoc, List.singleton_append,
    List.append_nil] at hequ
  have hequWord : IsFixed Form.equWord := Or.inl rfl
  have htext := hequWord.isFixedText.append_space hl.finished
  exact ⟨_, htext.tidy, congrArg Ending.result hequ⟩

/-- A constant is one line: its name, and the line of its block. -/
theorem passes_constant {name : Word} {words : List Atom} {line : List Token}
    (h : Instruction words line) : Passes opts (Form.labelWord :: name.text ::
      (Token.lbrace :: (Form.equWord :: line) ++ Token.rbrace :: rest)) rest := by
  have hs : Shaped (Form.equWord :: line) := by
    simpa using Shaped.cons (by decide) (Shaped.append h.solid .nil)
  refine .of_line fun m out hm hout => ?_
  have hchild := hm.child opts out
  rw [Env.child_empty] at hchild
  obtain ⟨text, ht, hresult⟩ := h.exists_text opts hchild
  refine ⟨name.text ++ Byte.space :: text.dropEnd Byte.newline, ?_, ?_⟩
  · refine name.plain.isFixedText.append_space ?_
    rw [IsFixedText, tokens_dropEnd_newline]
    exact ht
  · have hinner : Lowering.inner opts (.label name.text ⟨Form.equWord :: line, true⟩) ⟨m, out⟩ =
        .ok text := hresult
    have hfirst : Block.first? ⟨Form.equWord :: line, true⟩ = some Form.equWord := rfl
    have hline : name.text ++ utf8 " " ++ text.dropEnd Byte.newline =
        name.text ++ Byte.space :: text.dropEnd Byte.newline := List.append_assoc ..
    refine run_cons_done (read_label hs) ?_
    rw [hinner, Statement.execute, Statement.withBlock_ok _ _ _ _ (fun _ => rfl), if_pos hfirst,
      hline, State.line, Output.line_of_closed hout]
    rfl

/-! ## Whole programs -/

/-- A run over a program without macros adds a text of fixed tokens to the output. -/
theorem MacroFree.passes (hi : opts.indentation.IsBlank) (h : MacroFree toks) :
    Passes opts toks [] := by
  induction h with
  | nil => exact .refl
  | global ht _ ih => exact ((advances_global ht).passes rfl rfl).trans ih
  | @sectionOf kind _ _ hb _ ihb ih =>
    have hsection : IsPlain (utf8 "section") := by decide +kernel
    have hh : IsFixedText (utf8 "section ." ++ kind.text.toLower) :=
      hsection.isFixedText.append_space kind.isFixed_kind.isFixedText
    exact (Passes.of_opens hi (.ofSection _ _) hh hb.shaped ihb).trans ih
  | @label name _ _ hb _ ihb ih =>
    have hh : IsFixedText (name.text ++ utf8 ":") :=
      (name.plain.append_singleton (Or.inr rfl)).isFixedText
    -- a block that starts with `equ` would be a constant
    exact (Passes.of_opens hi (.ofLabel _ (hb.head?_ne (Or.inr rfl))) hh hb.shaped ihb).trans ih
  | constant hl _ ih => exact (passes_constant hl).trans ih
  | move ht _ ih => exact ((advances_move ht).passes rfl rfl).trans ih
  | call hl _ ih => exact (hl.advances.passes rfl rfl).trans ih
  | directive ht _ ih => exact ((advances_directive ht).passes rfl rfl).trans ih
  | instr hl h ih => exact (hl.passes (h.head?_ne (Or.inl rfl))).trans ih

/-- **Lowering the output of a program again keeps its tokens.**  A program without macros,
    comments and strings is lowered without an error, with any indentation of blanks.  So is its
    output, whatever the options; that changes no token, and what it gives is lowered to itself. -/
theorem lower_output_fixed (opts₁ opts₂ opts₃ : Options) (hi : opts₁.indentation.IsBlank)
    (source : Text) (h : MacroFree source.tokens) :
    ∃ out₁ out₂, lower opts₁ source = .ok out₁ ∧ lower opts₂ out₁ = .ok out₂ ∧
      out₂.tokens = out₁.tokens ∧ lower opts₃ out₂ = .ok out₂ := by
  obtain ⟨m, raw, -, -, ht, hrun⟩ := h.passes hi Represents.empty (Or.inl rfl)
  have hsource : ofSource opts₁ source = ⟨[], ⟨m, raw⟩, none⟩ := hrun.trans (run_nil _ _)
  have htokens : (Token.unwords (tidy raw).tokens).tokens = (tidy raw).tokens :=
    Token.tokens_unwords fun tok hm => (ht tok hm).isToken
  have hfixed : IsFixedText (Token.unwords (tidy raw).tokens) := .of_unwords ht
  refine ⟨tidy raw, _, ?_, ht.lower_eq opts₂, htokens, ?_⟩
  · rw [lower_eq_result, hsource]; rfl
  · rw [hfixed.lower_eq, htokens]

/-- Terminators apart from what they end, blanks around arguments, and an indentation with a
    blank that is not ASCII. -/
theorem lower_output_fixed_nested :
    let opts : Options := ⟨true, true, utf8 "\t\u00A0"⟩
    let source := utf8 "$global main; $section TEXT \x7b label main \x7b $pstk " ++
      utf8 "move rax <- 0x10; f( a ,&b, ) ; $return; \x7d \x7d label N \x7b equ 0b11 $ ; \x7d nop ;"
    let out := utf8 "global main\nsection .text\n\t\u00A0main:\n\t\u00A0\t\u00A0push rbp\n" ++
      utf8 "\t\u00A0\t\u00A0mov rbp, rsp\n\t\u00A0\t\u00A0mov rax, 16\n" ++
      utf8 "\t\u00A0\t\u00A0push [b]\n\t\u00A0\t\u00A0push a\n\t\u00A0\t\u00A0call f\n\n" ++
      utf8 "\t\u00A0\t\u00A0ret\nN equ 3 $\nnop\n"
    (opts.indentation.IsBlank ∧ MacroFree source.tokens ∧ lower opts source = .ok out) ∧
    ∃ out₁ out₂, lower opts source = .ok out₁ ∧ lower {} out₁ = .ok out₂ ∧
      out₂.tokens = out₁.tokens ∧ lower opts out₂ = .ok out₂ := by
  intro opts source out
  have hi : opts.indentation.IsBlank := by decide +kernel
  have hcall : Calls ⟨word "f", by decide +kernel⟩
      [⟨.word (word "a"), by decide +kernel⟩, ⟨.address (word "b"), by decide +kernel⟩]
      [utf8 "f(", utf8 "a", utf8 ",&b,", utf8 ")"] :=
    ⟨by decide +kernel, utf8 " a ,&b, ", utf8 ")", Or.inl rfl, by decide +kernel,
      by decide +kernel, by decide +kernel⟩
  have hw : ∀ {toks : List Token}, MacroFree toks → source.tokens = toks →
      MacroFree source.tokens := fun h he => he ▸ h
  have h : MacroFree source.tokens := hw
    (@MacroFree.global (word "main") _ _ (.inr rfl) <|
      @MacroFree.sectionOf (word "TEXT") _ _
        (@MacroFree.label (word "main") _ _
          (@MacroFree.directive .prologue _ _ (.inl rfl) <|
            @MacroFree.move (word "rax") (.number ⟨utf8 "0x10", 16, by decide +kernel⟩) _ _
              (.inr rfl) <|
            .call hcall <| .instr (.inl rfl : Instruction [] _) <|
            @MacroFree.directive .ret _ _ (.inr rfl) .nil)
          .nil) <|
      @MacroFree.constant (word "N")
        [.number ⟨utf8 "0b11", 3, by decide +kernel⟩, .word (word "$")] _ _ (.inr rfl) <|
      @MacroFree.instr [.word (word "nop")] _ _ (.inr rfl) .nil)
    (by decide +kernel)
  have hout : lower opts source = .ok out := Ending.result_eq_ok.2 (by decide +kernel)
  exact ⟨⟨hi, h, hout⟩, lower_output_fixed opts {} opts hi source h⟩

end Program

end BlockAsm
