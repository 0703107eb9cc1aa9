/-
  BlockAsm: a block and what stands around it.

  The text of a block is spliced in behind a header, and the run goes on behind it at the
  start of a line, with the macros that it had (`Opens.run_eq`).  So what stands around a
  block does not depend on it (`blocks_isolated`).  Of the text of the block the run around
  it still tidies every line, once more (`lower_section`).
-/
import BlockAsm.Proofs.Composition
import BlockAsm.Proofs.Frame
import BlockAsm.Proofs.Indentation
import BlockAsm.Proofs.Nesting
import BlockAsm.Proofs.Program.Neatness

namespace BlockAsm

/-! ## Splicing a text in -/

namespace Output

theorem closed_line (out l : Text) : Closed (line out l) :=
  closed_iff.2 (Or.inr ⟨closeLine out ++ l, rfl⟩)

theorem closed_closeLine (t : Text) : Closed (closeLine t) := by
  unfold closeLine
  split
  · rename_i h; exact h
  · exact closed_iff.2 (Or.inr ⟨t, rfl⟩)

theorem closed_indent (i : Text) {t : Text} (h : Closed t) : Closed (Layout.indent i t) := by
  rcases closed_iff.1 h with rfl | ⟨front, rfl⟩
  · exact Or.inl rfl
  · exact closed_iff.2 (Or.inr ⟨_, Layout.indent_append_newline i front []⟩)

theorem splice_eq (i out t : Text) : splice i out t = out ++ Layout.indent i (closeLine t) := by
  unfold splice closeLine
  by_cases ht : t = []
  · subst ht
    simp
  · by_cases he : t.endsIn Byte.newline = true
    · simp [ht, he]
    · simp [ht, he, Layout.indent_append_newline]

end Output

namespace Lowering

open Statement (read)

/-! ## Blocks behind a header -/

/-- A directive, a name and a block whose text is spliced in behind a header: those of a section,
    or of a label that is no constant. -/
inductive Opens : Token → Token → List Token → Text → Prop
  | ofSection (kind : Token) (body : List Token) :
      Opens Form.sectionWord kind body (utf8 "section ." ++ kind.toLower)
  | ofLabel (name : Token) {body : List Token} (h : body.head? ≠ some Form.equWord) :
      Opens Form.labelWord name body (name ++ utf8 ":")

section
variable {word name : Token} {body : List Token} {header : Text}

theorem Opens.word_ne_arrow (h : Opens word name body header) : word ≠ Token.arrow := by
  cases h <;> decide

/-- The statement that the tokens are read as. -/
theorem Opens.exists_read (h : Opens word name body header) (hb : Token.Balanced body) (m : Macros)
    (behind : List Token) : ∃ stmt,
      read m word (name :: Token.lbrace :: (body ++ Token.rbrace :: behind)) = (.ok stmt, behind) ∧
      stmt.block? = some ⟨body, true⟩ ∧
      ∀ opts s text, stmt.execute opts (.ok text) s = ((s.line header).splice opts text, none) := by
  have hr := Block.read_balanced hb behind
  have ha : ∀ opts : Options, Statement.Admits opts ⟨body, true⟩ := fun _ _ => rfl
  cases h with
  | ofSection =>
    refine ⟨_, (Statement.read_sectionWord m _).trans (Statement.readSection_ok hr), rfl, ?_⟩
    intro opts s text
    rw [Statement.execute, Statement.withBlock_ok _ _ _ _ (ha opts)]
    rfl
  | ofLabel _ hne =>
    refine ⟨_, (Statement.read_labelWord m _).trans (Statement.readLabel_ok hr), rfl, ?_⟩
    intro opts s text
    have hfirst : (⟨body, true⟩ : Block).first? ≠ some Form.equWord := hne
    rw [Statement.execute, Statement.withBlock_ok _ _ _ _ (ha opts), if_neg hfirst]
    rfl

/-- The output from which a run goes on behind a block, all its lines finished. -/
def spliced (opts : Options) (s : State) (header text : Text) : Text :=
  Output.line s.out header ++ Layout.indent opts.indentation (Output.closeLine text)

theorem closed_spliced (opts : Options) (s : State) (header text : Text) :
    Output.Closed (spliced opts s header text) :=
  (Output.closed_line _ _).append (Output.closed_indent _ (Output.closed_closeLine text))

theorem tidy_spliced_append (opts : Options) (s : State) (header text t : Text) :
    Layout.tidy (spliced opts s header text ++ t) = Layout.tidy (Output.line s.out header) ++
      Layout.tidy (Layout.indent opts.indentation (Output.closeLine text)) ++ Layout.tidy t := by
  rw [Output.tidy_append_of_closed (closed_spliced opts s header text), spliced,
    Output.tidy_append_of_closed (Output.closed_line _ _)]

variable {opts : Options} {s : State}

/-- **A run over a block** goes on behind it with the macros from in front of it, as at the start of
    an output. -/
theorem Opens.run_eq (h : Opens word name body header) (hb : Token.Balanced body) {text : Text}
    (ht : (run opts body (s.child opts)).result = .ok text) (behind : List Token) :
    run opts (word :: name :: Token.lbrace :: (body ++ Token.rbrace :: behind)) s =
      (run opts behind ⟨s.macros, []⟩).prepend (spliced opts s header text) := by
  obtain ⟨stmt, hr, hblock, hx⟩ := h.exists_read hb s.macros behind
  have hinner : inner opts stmt s = .ok text := by
    rw [inner, Statement.body_of_block? hblock, ht]
  rw [run_cons_done hr (by rw [hinner, hx]), ← run_prepend (closed_spliced opts s header text)]
  have hs : (s.line header).splice opts text =
      State.prepend (spliced opts s header text) ⟨s.macros, []⟩ := by
    simp only [State.splice, Output.splice_eq, State.prepend, spliced, List.append_nil]
    rfl
  rw [hs]

/-- A run that does not fail at a block has the text of the block. -/
theorem Opens.exists_text (h : Opens word name body header) (hb : Token.Balanced body)
    {behind : List Token}
    (he : (run opts (word :: name :: Token.lbrace :: (body ++ Token.rbrace :: behind)) s).error? =
      none) : ∃ text, (run opts body (s.child opts)).result = .ok text := by
  obtain ⟨stmt, hr, hblock, -⟩ := h.exists_read hb s.macros behind
  rcases hx : stmt.execute opts (inner opts stmt s) s with ⟨s', _ | e⟩
  · obtain ⟨text, ht⟩ := Statement.exists_of_execute_block hx hblock
    rw [inner, Statement.body_of_block? hblock] at ht
    exact ⟨text, ht⟩
  · rw [run_cons_fail hr hx] at he
    cases he

end

/-! ## Isolation -/

/-- A source that has a block between two other sources. -/
structure Encloses (word name : Token) (header before body behind source : Text) : Prop where
  opens : Opens word name body.tokens header
  balanced : Token.Balanced body.tokens
  tokens_eq : source.tokens = before.tokens ++
    word :: name :: Token.lbrace :: (body.tokens ++ Token.rbrace :: behind.tokens)

/-- What becomes of a source with a block, if it is lowered: all that it has from the block is the
    text of the block. -/
theorem Encloses.exists_text {opts : Options} {word name : Token}
    {header before body behind source text : Text}
    (h : Encloses word name header before body behind source)
    (hbefore : (ofSource opts.toStrict before).error? = none)
    (ht : lower opts source = .ok text) :
    let s := (ofSource opts.toStrict before).state
    let rest := (run opts behind.tokens ⟨s.macros, []⟩).state
    ∃ o, (run opts body.tokens (s.child opts)).result = .ok o ∧
      (ofSource opts source).state.macros = rest.macros ∧
      text = Layout.tidy (Output.line s.out header) ++
        Layout.tidy (Layout.indent opts.indentation (Output.closeLine o)) ++
        Layout.tidy rest.out := by
  intro s rest
  have hword : (word :: name :: Token.lbrace ::
      (body.tokens ++ Token.rbrace :: behind.tokens)).head? ≠ some Token.arrow :=
    fun he => h.opens.word_ne_arrow (Option.some.inj he)
  have hrun := run_append hword before.tokens .initial hbefore
  rw [← h.tokens_eq] at hrun
  obtain ⟨herr, htext⟩ := Ending.result_eq_ok.1 ht
  rw [hrun] at herr htext
  obtain ⟨o, ho⟩ := h.opens.exists_text h.balanced herr
  have hblock := h.opens.run_eq h.balanced ho behind.tokens
  refine ⟨o, ho, ?_, ?_⟩
  · rw [ofSource, hrun, hblock]; rfl
  · rw [htext, hblock]
    exact tidy_spliced_append opts s header o rest.out

/-- **Blocks are isolated.**  Two sources that differ in the body of a block, and that are both
    lowered, end with the same macros, and their texts differ in the text of the block, indented
    and tidied. -/
theorem blocks_isolated {opts : Options} {word name : Token}
    {header before behind body₁ body₂ source₁ source₂ text₁ text₂ : Text}
    (hbefore : (ofSource opts.toStrict before).error? = none)
    (h₁ : Encloses word name header before body₁ behind source₁)
    (h₂ : Encloses word name header before body₂ behind source₂)
    (ht₁ : lower opts source₁ = .ok text₁) (ht₂ : lower opts source₂ = .ok text₂) :
    let s := (ofSource opts.toStrict before).state.child opts
    let laid := fun o => Layout.tidy (Layout.indent opts.indentation (Output.closeLine o))
    (ofSource opts source₁).state.macros = (ofSource opts source₂).state.macros ∧
      ∃ a d o₁ o₂, (run opts body₁.tokens s).result = .ok o₁ ∧
        (run opts body₂.tokens s).result = .ok o₂ ∧
        text₁ = a ++ laid o₁ ++ d ∧ text₂ = a ++ laid o₂ ++ d := by
  intro s laid
  obtain ⟨o₁, ho₁, hm₁, he₁⟩ := h₁.exists_text hbefore ht₁
  obtain ⟨o₂, ho₂, hm₂, he₂⟩ := h₂.exists_text hbefore ht₂
  exact ⟨hm₁.trans hm₂.symm, _, _, o₁, o₂, ho₁, ho₂, he₁, he₂⟩

/-- One block defines a macro and leaves its line open, the other has blocks of its own; the line in
    front of the block is open as well. -/
theorem blocks_isolated_open_line :
    let opts : Options := ⟨true, false, utf8 " "⟩
    let before := utf8 "$define A 1 x"
    let behind := utf8 "A; y"
    let body₁ := utf8 "$define A 2 a A"
    let body₂ := utf8 "b; $section s \x7b \x7b A; \x7d \x7d"
    let source := fun body => before ++ utf8 " label n \x7b " ++ body ++ utf8 " \x7d " ++ behind
    let s := (ofSource opts.toStrict before).state.child opts
    let laid := fun o => Layout.tidy (Layout.indent opts.indentation (Output.closeLine o))
    let text₁ := utf8 "x\nn:\n a 2\n1\ny"
    let text₂ := utf8 "x\nn:\n b\n section .s\n  1\n1\ny"
    ((ofSource opts.toStrict before).error? = none ∧
      Encloses Form.labelWord (utf8 "n") (utf8 "n:") before body₁ behind (source body₁) ∧
      Encloses Form.labelWord (utf8 "n") (utf8 "n:") before body₂ behind (source body₂) ∧
      lower opts (source body₁) = .ok text₁ ∧ lower opts (source body₂) = .ok text₂) ∧
    (ofSource opts (source body₁)).state.macros = (ofSource opts (source body₂)).state.macros ∧
      ∃ a d o₁ o₂, (run opts body₁.tokens s).result = .ok o₁ ∧
        (run opts body₂.tokens s).result = .ok o₂ ∧
        text₁ = a ++ laid o₁ ++ d ∧ text₂ = a ++ laid o₂ ++ d := by
  intro opts before behind body₁ body₂ source s laid text₁ text₂
  have hbefore : (ofSource opts.toStrict before).error? = none := by decide +kernel
  have h₁ : Encloses Form.labelWord (utf8 "n") (utf8 "n:") before body₁ behind (source body₁) :=
    ⟨.ofLabel (utf8 "n") (by decide +kernel), (by decide +kernel : Token.depth? 0 _ = some 0),
      by decide +kernel⟩
  have h₂ : Encloses Form.labelWord (utf8 "n") (utf8 "n:") before body₂ behind (source body₂) :=
    ⟨.ofLabel (utf8 "n") (by decide +kernel), (by decide +kernel : Token.depth? 0 _ = some 0),
      by decide +kernel⟩
  have ht₁ : lower opts (source body₁) = .ok text₁ := Ending.result_eq_ok.2 (by decide +kernel)
  have ht₂ : lower opts (source body₂) = .ok text₂ := Ending.result_eq_ok.2 (by decide +kernel)
  exact ⟨⟨hbefore, h₁, h₂, ht₁, ht₂⟩, blocks_isolated hbefore h₁ h₂ ht₁ ht₂⟩

end Lowering

/-! ## Tidying once more -/

namespace Layout

theorem forall_mem_lines_closeLine {P : Text → Prop} (hP : P []) (t : Text) :
    (∀ l ∈ lines (Output.closeLine t), P l) ↔ ∀ l ∈ lines t, P l := by
  unfold Output.closeLine
  split
  · rfl
  · rw [lines_append_newline]
    simp [List.mem_append, or_imp, forall_and, show lines [] = [[]] from rfl, hP]

/-- Tidying a tidied text, with its last line finished, changes nothing if no line ends in a
    terminator, and only then. -/
theorem tidy_closeLine_eq_iff (t : Text) :
    tidy (Output.closeLine (tidy t)) = Output.closeLine (tidy t) ↔
      ∀ l ∈ lines (tidy t), l.isTerminated = false := by
  rw [tidy_eq_self_iff, forall_mem_lines_closeLine (P := fun l => tidied l = l) rfl,
    lines_tidy]
  simp only [List.forall_mem_map, tidied_tidied_eq_iff]

theorem tidy_line_of_neat {l : Text} (h : IsNeat l) :
    tidy (Output.line [] l) = l ++ [Byte.newline] := by
  rw [Output.line_of_closed (Or.inl rfl), List.nil_append, tidy_finished_of_neat (by simpa using h),
    finished_cons, finished_nil]

end Layout

/-! ## The text of a section -/

theorem State.initial_child (opts : Options) : State.initial.child opts = .initial := by
  unfold State.child
  split <;> rfl

namespace Lowering

theorem tokens_section {k : Text} (hne : k ≠ []) (hk : k.IsSolid) (body : Text) :
    (utf8 "$section " ++ k ++ utf8 " \x7b " ++ body ++ utf8 " \x7d").tokens =
      Form.sectionWord :: k :: Token.lbrace :: (body.tokens ++ [Token.rbrace]) := by
  have htext : utf8 "$section " ++ k ++ utf8 " \x7b " ++ body ++ utf8 " \x7d" =
      Form.sectionWord ++ Byte.space :: (k ++ Byte.space :: (Token.lbrace ++
        Byte.space :: (body ++ Byte.space :: Token.rbrace))) := by
    simp [show utf8 "$section " = Form.sectionWord ++ [Byte.space] by decide,
      show utf8 " \x7b " = Byte.space :: (Token.lbrace ++ [Byte.space]) by decide,
      show utf8 " \x7d" = Byte.space :: Token.rbrace by decide]
  have hword : Form.sectionWord.tokens = [Form.sectionWord] := by decide +kernel
  have hl : Token.lbrace.tokens = [Token.lbrace] := by decide +kernel
  have hr : Token.rbrace.tokens = [Token.rbrace] := by decide +kernel
  have hblank := @tokens_append_blank Byte.space (by decide) (by decide)
  rw [htext, hblank, hblank, hblank, hblank, hword, hk.tokens hne, hl, hr]
  rfl

/-- **The text of a section.**  Behind its header stands the text of the block with its last line
    finished, and tidied once more: the block is there as it is if, and only if, none of its lines
    ends in a terminator. -/
theorem lower_section {opts : Options} (hi : opts.indentation = []) {k body o : Text}
    (hk : k.isIdentifier = true) (hb : Token.Balanced body.tokens) (ho : lower opts body = .ok o) :
    let source := utf8 "$section " ++ k ++ utf8 " \x7b " ++ body ++ utf8 " \x7d"
    let header := utf8 "section ." ++ k.toLower ++ [Byte.newline]
    lower opts source = .ok (header ++ Layout.tidy (Output.closeLine o)) ∧
      (lower opts source = .ok (header ++ Output.closeLine o) ↔
        ∀ l ∈ Layout.lines o, l.isTerminated = false) := by
  intro source header
  obtain ⟨hne, hsolid, hsemi⟩ := Text.solid_of_isIdentifier hk
  have hneat : Layout.IsNeat (utf8 "section ." ++ k.toLower) :=
    .append (by decide) (Layout.isNeat_of_ink (Program.toLower_ne_nil hne)
      (Program.isInk_toLower hsolid hsemi))
  have hinner : (run opts body.tokens (State.initial.child opts)).result = .ok o := by
    rw [State.initial_child, ← ho, lower]
  have hrun := (Opens.ofSection k body.tokens).run_eq hb hinner []
  have hlower : lower opts source = .ok (header ++ Layout.tidy (Output.closeLine o)) := by
    rw [lower, tokens_section hne hsolid, hrun, run_nil]
    refine Ending.result_eq_ok.2 ⟨rfl, ?_⟩
    refine .trans ?_ (tidy_spliced_append opts .initial _ o []).symm
    rw [hi, Layout.indent_nil_left, Layout.tidy_nil, List.append_nil]
    exact congrArg (· ++ _) (Layout.tidy_line_of_neat hneat).symm
  refine ⟨hlower, ?_⟩
  obtain ⟨-, rfl⟩ := Ending.result_eq_ok.1 ho
  rw [hlower, Except.ok.injEq, List.append_cancel_left_eq]
  exact Layout.tidy_closeLine_eq_iff _

/-- A block that stands in its section as it is, but for the end of its last line. -/
theorem lower_section_open_line :
    let opts : Options := ⟨true, true, []⟩
    let body := utf8 "label n \x7b dq 0x10; \x7d tail"
    let o := utf8 "n:\ndq 16\ntail"
    let source := utf8 "$section " ++ utf8 "Data" ++ utf8 " \x7b " ++ body ++ utf8 " \x7d"
    let header := utf8 "section ." ++ Text.toLower (utf8 "Data") ++ [Byte.newline]
    (opts.indentation = [] ∧ (utf8 "Data").isIdentifier = true ∧ Token.Balanced body.tokens ∧
      lower opts body = .ok o) ∧
    lower opts source = .ok (header ++ Layout.tidy (Output.closeLine o)) ∧
      (lower opts source = .ok (header ++ Output.closeLine o) ↔
        ∀ l ∈ Layout.lines o, l.isTerminated = false) := by
  intro opts body o source header
  have hk : (utf8 "Data").isIdentifier = true := by decide
  have hb : Token.Balanced body.tokens := (by decide +kernel : Token.depth? 0 _ = some 0)
  have ho : lower opts body = .ok o := Ending.result_eq_ok.2 (by decide +kernel)
  exact ⟨⟨rfl, hk, hb, ho⟩, lower_section rfl hk hb ho⟩

/-- **A block does not always stand in its section as it is:** what it has left of the terminators
    of a line, the section takes one more of. -/
theorem section_takes_terminator :
    ¬ ∀ (opts : Options) (k body o : Text), opts.indentation = [] → k.isIdentifier = true →
      Token.Balanced body.tokens → lower opts body = .ok o →
      lower opts (utf8 "$section " ++ k ++ utf8 " \x7b " ++ body ++ utf8 " \x7d") =
        .ok (utf8 "section ." ++ k.toLower ++ [Byte.newline] ++ Output.closeLine o) := by
  intro h
  have hb : Token.Balanced (utf8 "a;;;").tokens := (by decide +kernel : Token.depth? 0 _ = some 0)
  have ho : lower {} (utf8 "a;;;") = .ok (utf8 "a;\n") := Ending.result_eq_ok.2 (by decide +kernel)
  have hs := h {} (utf8 "data") _ _ rfl (by decide) hb ho
  have htext := (Ending.result_eq_ok.1 hs).2
  revert htext
  decide +kernel

end Lowering

end BlockAsm
