/-
  BlockAsm: why lowering fails.

  * `category_of_read`: a statement cannot be read because the input ends, or because a label has
    no block;
  * `Statement.Fails`: the ways in which executing a statement fails (`fails_of_execute`);
  * `Macros.DrawnFrom`: every value of a table is part of a token, at every point of a run;
  * `Error.Traced`: what an error tells about the tokens, whether it happened in a block or not
    (`traced_of_run`).
-/
import BlockAsm.Proofs.Literals
import BlockAsm.Proofs.Lookups

namespace BlockAsm

/-! ## Categories and their words -/

namespace Fault

/-- The words that announce the faults of a category. -/
def Category.words : Category → Text
  | structural => utf8 "structural error: "
  | endOfInput => utf8 "unexpected end of input: "
  | literal => utf8 "invalid literal: "
  | malformed => utf8 "malformed statement "

theorem words_prefix_message (f : Fault) : f.category.words <+: f.message := by
  have hfront : ∀ (c : Category) {front rest : Text}, c.words <+: front →
      c.words <+: front ++ rest := fun _ _ _ h => h.trans (List.prefix_append _ _)
  cases f with
  | noBlock found => exact hfront .structural (by decide)
  | strayBrace brace => exact hfront .structural (by decide)
  | missingOperand directive => exact hfront .endOfInput (hfront .endOfInput (by decide))
  | unclosedBlock directive => exact hfront .endOfInput (hfront .endOfInput (by decide))
  | unterminatedComment =>
    show Category.endOfInput.words <+: utf8 "unexpected end of input: unterminated comment"
    decide
  | unterminatedString text => exact hfront .endOfInput (by decide)
  | unterminatedCall text => exact hfront .endOfInput (by decide)
  | badLiteral cause => exact cause.announced
  | malformed text => exact hfront .malformed (by decide)

/-- The words of one category announce no fault of another. -/
theorem words_prefix_message_iff (f : Fault) (c : Category) :
    c.words <+: f.message ↔ f.category = c := by
  constructor
  · intro h
    have hwords : ∀ c c' : Category, c.words <+: c'.words ∨ c'.words <+: c.words → c = c' := by
      intro c c'
      cases c <;> cases c' <;> decide
    exact hwords _ _ (List.prefix_or_prefix_of_prefix f.words_prefix_message h)
  · rintro rfl
    exact f.words_prefix_message

end Fault

/-! ## Base marks -/

namespace Text

/-- A base mark stands in the text. -/
def IsMarked (t : Text) : Prop := ∃ r : Radix, r.mark <:+: t

theorem IsMarked.of_infix {t u : Text} (h : t.IsMarked) (hu : t <:+: u) : u.IsMarked := by
  obtain ⟨r, hr⟩ := h
  exact ⟨r, hr.trans hu⟩

end Text

/-- A mark in tokens that are put together with spaces stands in one of them. -/
theorem Token.exists_isMarked {toks : List Token} (h : (unwords toks).IsMarked) :
    ∃ tok ∈ toks, Text.IsMarked tok := by
  obtain ⟨r, hr⟩ := h
  have hmark : r.mark ≠ [] ∧ Byte.space ∉ r.mark := by cases r <;> decide
  by_contra hno
  refine not_infix_unwords hmark.1 hmark.2 (fun tok ht hin => hno ⟨tok, ht, r, hin⟩) hr

/-- Only a text that starts with a mark is refused as an operand. -/
theorem Operand.mark_prefix_of_lower {t : Text} {f : Literal.Fault} (h : lower t = .error f) :
    ∃ r : Radix, r.mark <+: t := by
  unfold lower at h
  split at h
  · cases h
  split at h
  · rename_i hnum
    cases hc : Radix.cut? t with
    | some found => exact ⟨found.1, found.2, (Radix.eq_of_cut? hc).symm⟩
    | none =>
      -- a decimal numeral in range has a value
      rw [Literal.isNumeric, hc] at hnum
      cases hr : Numeral.readSigned t with
      | error f' => rw [hr] at hnum; cases hnum
      | ok k =>
        simp only [Literal.normalize, Literal.value, hc, hr] at h
        cases h
  · cases h

/-! ## Where the values of macros come from -/

/-- Every value is part of one of the tokens. -/
def Macros.DrawnFrom (toks : List Token) (m : Macros) : Prop :=
  ∀ e ∈ m.entries, ∃ tok ∈ toks, e.2 <:+: tok

namespace Macros.DrawnFrom

variable {toks : List Token} {m : Macros}

theorem empty (toks : List Token) : Macros.empty.DrawnFrom toks := by intro e he; cases he

theorem child {s : State} (h : s.macros.DrawnFrom toks) (opts : Options) :
    (s.child opts).macros.DrawnFrom toks := by
  unfold State.child
  split
  · exact h
  · exact empty toks

/-- A statement that is made of the tokens leaves a table of values from them. -/
theorem redefine (h : m.DrawnFrom toks) {tok : Token} {rest left : List Token} {stmt : Statement}
    (hr : Statement.read m tok rest = (.ok stmt, left)) (ht : ∀ t ∈ rest, t ∈ toks) :
    (stmt.redefine m).DrawnFrom toks := by
  cases stmt with
  | define name value =>
    obtain ⟨-, v, rfl, rfl⟩ := Statement.eq_of_read_define hr
    intro e he
    rcases mem_insertEntry he with rfl | he
    · exact ⟨v, ht v (by simp), Text.infix_dropTerminator v⟩
    · exact h e he
  | undefine name =>
    intro e he
    exact h e (List.mem_filter.1 he).1
  | _ => exact h

theorem of_lookup? (h : m.DrawnFrom toks) {name value : Text} (hv : m.lookup? name = some value) :
    ∃ tok ∈ toks, value <:+: tok := h (name, value) (mem_entries_iff.2 hv)

/-- An operand that is refused has a mark of its own, or its value comes from a token with one. -/
theorem exists_isMarked (h : m.DrawnFrom toks) {t : Text} {f : Literal.Fault}
    (hf : Operand.lower (m.resolveOperand t) = .error f) :
    t.IsMarked ∨ ∃ tok ∈ toks, Text.IsMarked tok := by
  obtain ⟨r, hr⟩ := Operand.mark_prefix_of_lower hf
  unfold resolveOperand at hr
  split at hr
  · -- no mark starts with an ampersand
    obtain ⟨digits, hd⟩ := hr
    cases r <;> cases hd
  · unfold resolve at hr
    cases hv : m.lookup? t with
    | none =>
      rw [hv] at hr
      exact .inl ⟨r, hr.isInfix⟩
    | some value =>
      rw [hv] at hr
      obtain ⟨tok, ht, hin⟩ := h.of_lookup? hv
      exact .inr ⟨tok, ht, r, hr.isInfix.trans hin⟩

end Macros.DrawnFrom

/-! ## Reading -/

theorem Block.category_of_read {toks left : List Token} {f : Fault}
    (h : read toks = (.error f, left)) : f.category = .structural := by
  rw [(eq_of_read_error h).1]; rfl

theorem Token.exists_closing_of_upTo {closes : Token → Bool} {toks taken behind : List Token}
    (h : upTo closes toks = (taken, some behind)) : ∃ tok ∈ taken, closes tok = true := by
  induction toks generalizing taken with
  | nil => cases h
  | cons tok toks ih => grind [upTo]

/-- The tokens of a call, put together: a name, the first opening parenthesis, and somewhere behind
    it the last closing one. -/
theorem Call.exists_parts {tok : Token} {taken : List Token} (hhead : tok.isCallHead = true)
    (hclose : ∃ t ∈ tok :: taken, Byte.rparen ∈ t) :
    ∃ name inside behind : Text, Token.unwords (tok :: taken) =
        name ++ Byte.lparen :: (inside ++ Byte.rparen :: behind) ∧
      name.isIdentifier = true ∧ Byte.lparen ∉ name ∧ Byte.rparen ∉ behind := by
  obtain ⟨name, behind, rfl, hname⟩ := Text.isCallHead_iff.1 hhead
  obtain ⟨more, hmore⟩ : ∃ more, Token.unwords ((name ++ Byte.lparen :: behind) :: taken) =
      name ++ Byte.lparen :: (behind ++ more) := by
    cases taken with
    | nil => exact ⟨[], by simp [Token.unwords, Text.join]⟩
    | cons t taken => exact ⟨_, by rw [Token.unwords_cons_cons, List.append_assoc]; rfl⟩
  have hrp : Byte.rparen ∈ behind ++ more := by
    obtain ⟨t, ht, hin⟩ := hclose
    have hall := (Token.infix_unwords_of_mem ht).subset hin
    rw [hmore, List.mem_append, List.mem_cons] at hall
    rcases hall with hin | heq | hbehind
    · -- a name has no parenthesis
      exact absurd (hname.mem _ hin) (by decide)
    · cases heq
    · exact hbehind
  cases hlast : (behind ++ more).cutLast? Byte.rparen with
  | none => exact absurd hrp (Text.cutLast?_eq_none_iff.1 hlast)
  | some p =>
    obtain ⟨hparts, hafter⟩ := Text.eq_of_cutLast? hlast
    exact ⟨name, p.1, p.2, by rw [hmore, hparts], Text.isIdentifier_iff.2 hname,
      hname.lparen_not_mem, hafter⟩

/-- So the tokens of a call can be taken apart. -/
theorem Call.exists_parse? {tok : Token} {taken : List Token} (hhead : tok.isCallHead = true)
    (hclose : ∃ t ∈ tok :: taken, Byte.rparen ∈ t) :
    ∃ call, parse? (Token.unwords (tok :: taken)) = some call := by
  obtain ⟨name, inside, behind, hparts, -, hlp, hrp⟩ := exists_parts hhead hclose
  exact ⟨_, hparts ▸ parse?_parts hlp inside hrp⟩

namespace Statement

section
variable {tok : Token} {rest left : List Token} {e : Error}

theorem category_of_readMove (h : readMove rest = (.error e, left)) :
    e.category = .endOfInput := by
  unfold readMove missingOperand at h
  split at h <;> cases h
  rfl

theorem category_of_readSection {directive : Token}
    (h : readSection directive rest = (.error e, left)) : e.category = .endOfInput := by
  unfold readSection missingOperand at h
  split at h
  · split at h <;> cases h
  · cases h; rfl

theorem category_of_readLabel {directive : Token}
    (h : readLabel directive rest = (.error e, left)) :
    e.category = .endOfInput ∨ e.category = .structural := by
  unfold readLabel missingOperand at h
  split at h
  · split at h
    · cases h
    · rename_i hb
      cases h
      exact .inr (Block.category_of_read hb)
  · cases h
    exact .inl rfl

theorem category_of_readComment (hf : Form.ofToken tok = .comment)
    (h : readComment tok rest = (.error e, left)) : e.category = .endOfInput := by
  obtain ⟨inside, hi⟩ := Form.commentOpen_prefix_of_ofToken hf
  rw [readComment, Text.dropFront?_eq_some_iff.2 hi.symm] at h
  grind [Error.category, Error.ofFault, Fault.category]

theorem category_of_readString (hf : Form.ofToken tok = .string)
    (h : readString tok rest = (.error e, left)) : e.category = .endOfInput := by
  obtain ⟨quote, inside, rfl⟩ := List.exists_cons_of_ne_nil (Form.ne_nil_of_ofToken hf)
  rw [readString] at h
  grind [Error.category, Error.ofFault, Fault.category]

theorem category_of_readCall (hf : Form.ofToken tok = .call)
    (h : readCall tok rest = (.error e, left)) : e.category = .endOfInput := by
  unfold readCall at h
  split at h
  · rename_i taken behind hu
    obtain ⟨tok', taken', rfl⟩ := Token.exists_of_upTo hu
    obtain ⟨rfl, -⟩ := List.cons.inj (Token.append_of_upTo hu)
    obtain ⟨call, hc⟩ := Call.exists_parse? (Form.isCallHead_of_ofToken hf)
      (by simpa using Token.exists_closing_of_upTo hu)
    rw [ofCallText, hc] at h
    cases h
  · cases h
    rfl

theorem category_of_readGeneric {m : Macros} (h : readGeneric m tok rest = (.error e, left)) :
    e.category = .endOfInput := by
  unfold readGeneric at h
  grind [category_of_readMove]

end

/-- A statement cannot be read because the input ends, or because a label has no block. -/
theorem category_of_read {m : Macros} {tok : Token} {rest left : List Token} {e : Error}
    (h : read m tok rest = (.error e, left)) :
    e.category = .endOfInput ∨ e.category = .structural ∧ tok = Form.labelWord := by
  unfold read at h
  split at h
  case h_1 hf | h_2 hf | h_3 hf =>
    unfold missingOperand at h
    split at h <;> cases h
    exact .inl rfl
  case h_4 hf => exact .inl (category_of_readSection h)
  case h_5 hf =>
    exact (category_of_readLabel h).imp_right fun hc => ⟨hc, Form.eq_labelWord_of_ofToken hf⟩
  case h_6 hf => exact absurd hf (Form.ofToken_ne_constant tok)
  case h_7 hf | h_8 hf | h_9 hf => cases h
  case h_10 hf => exact .inl (category_of_readComment hf h)
  case h_11 hf => exact .inl (category_of_readString hf h)
  case h_12 hf => exact .inl (category_of_readMove h)
  case h_13 hf => exact .inl (category_of_readCall hf h)
  case h_14 hf => exact .inl (category_of_readGeneric h)

/-- A section without a block says so. -/
theorem category_of_read_sectionHeader {m : Macros} {tok : Token} {rest left : List Token}
    {kind : Token} {f : Fault} (h : read m tok rest = (.ok (.sectionHeader kind f), left)) :
    f.category = .structural ∧ tok = Form.sectionWord := by
  have hf : Form.ofToken tok = .sectionBlock :=
    ((form_of_read h).resolve_right fun hm => nomatch hm.1).symm
  obtain rfl := Form.eq_sectionWord_of_ofToken hf
  rw [read_sectionWord] at h
  cases rest with
  | nil => cases h
  | cons kind' rest =>
    rcases hb : Block.read rest with ⟨f' | b, left'⟩
    · rw [readSection_error hb] at h
      cases h
      exact ⟨Block.category_of_read hb, rfl⟩
    · rw [readSection_ok hb] at h
      cases h

theorem eq_of_read_word {m : Macros} {tok : Token} {rest left : List Token} {core : Text}
    {terminated : Bool} (h : read m tok rest = (.ok (.word core terminated), left)) :
    core = m.resolveOperand tok.dropTerminator := by
  have hf : Form.ofToken tok = .generic :=
    ((form_of_read h).resolve_right fun hm => nomatch hm.1).symm
  simp only [read, hf] at h
  by_cases hm : m.resolveOperand tok.dropTerminator = Form.moveWord ∧ ¬ tok.isTerminated
  · rw [readGeneric_move rest hm] at h
    exact nomatch form_of_readMove h
  · by_cases ha : rest.head? = some Token.arrow
    · obtain ⟨behind, rfl⟩ := List.head?_eq_some_iff.1 ha
      rw [readGeneric_arrow hm] at h
      cases h
    · rw [readGeneric_word hm ha, ofCore] at h
      split at h <;> cases h
      rfl

/-! ## Executing -/

/-- The texts that executing the statement takes as operands. -/
def operands (m : Macros) : Statement → List Text
  | move _ src => [m.resolveOperand src]
  | call _ args => args.map m.resolveOperand
  | word core _ => [core]
  | _ => []

/-- The ways in which executing a statement fails, given the outcome of its block. -/
inductive Fails (opts : Options) (r : Except Error Text) (m : Macros) : Statement → Error → Prop
  /-- its block failed -/
  | block {stmt : Statement} {e : Error} (scope : Scope) (hr : r = .error e) :
      Fails opts r m stmt (e.within scope)
  /-- its block is open, which strict braces refuse -/
  | unclosed {stmt : Statement} (directive : Token) :
      Fails opts r m stmt (.ofFault (.unclosedBlock directive))
  /-- it is a section without a block -/
  | noBlock (kind : Token) (f : Fault) :
      Fails opts r m (.sectionHeader kind f) ⟨[.directive Form.sectionWord], f⟩
  /-- it is a brace, which strict braces refuse -/
  | brace (core : Text) (hs : opts.strict = true) :
      Fails opts r m (.brace core) (.ofFault (.strayBrace core))
  /-- one of its operands is refused -/
  | operand {stmt : Statement} {t : Text} {f : Literal.Fault} (trail : List Scope)
      (ht : t ∈ stmt.operands m) (hf : Operand.lower t = .error f) :
      Fails opts r m stmt ⟨trail, .badLiteral f⟩

theorem exists_of_pushAll {args : List Text} {f : Literal.Fault} : ∀ {s s' : State},
    s.pushAll args = (s', some f) →
      ∃ t ∈ args.map s.macros.resolveOperand, Operand.lower t = .error f := by
  induction args with
  | nil => intro s s' h; cases h
  | cons arg args ih =>
    intro s s' h
    rw [State.pushAll] at h
    split at h
    · obtain ⟨t, ht, hf⟩ := ih h
      exact ⟨t, List.mem_cons_of_mem _ ht, hf⟩
    · rename_i hf
      cases h
      exact ⟨_, List.mem_cons_self, hf⟩

theorem fails_of_withBlock {opts : Options} {r : Except Error Text} {m : Macros} {s s' : State}
    {stmt : Statement} {directive : Token} {scope : Scope} {b : Block} {next : Text → State}
    {e : Error} (h : withBlock opts s directive scope b r next = (s', some e)) :
    Fails opts r m stmt e := by
  by_cases hb : Admits opts b
  · rcases r with e' | text
    · rw [withBlock_error _ _ _ _ hb] at h
      cases h
      exact .block scope rfl
    · rw [withBlock_ok _ _ _ _ hb] at h
      cases h
  · rw [withBlock_refused _ _ _ _ hb] at h
    cases h
    exact .unclosed directive

theorem fails_of_execute {opts : Options} {r : Except Error Text} {s s' : State} {stmt : Statement}
    {e : Error} (h : stmt.execute opts r s = (s', some e)) : Fails opts r s.macros stmt e := by
  cases stmt with
  | sectionBlock kind b => exact fails_of_withBlock h
  | label name b => exact fails_of_withBlock h
  | sectionHeader kind f => cases h; exact .noBlock kind f
  | brace core =>
    rw [execute] at h
    split at h
    · rename_i hs; cases h; exact .brace core hs
    · cases h
  | move dest src =>
    rw [execute] at h
    split at h
    · cases h
    · rename_i f hf
      cases h
      exact .operand _ (by simp [operands]) hf
  | call name args =>
    rw [execute] at h
    split at h
    · cases h
    · rename_i s'' f hp
      cases h
      obtain ⟨t, ht, hf⟩ := exists_of_pushAll hp
      exact .operand _ (by simpa [operands] using ht) hf
  | word core terminated =>
    rw [execute] at h
    split at h
    · cases h
    · rename_i f hf
      cases h
      exact .operand _ (by simp [operands]) hf
  | _ => cases h

/-- An operand that is refused comes from a token with a mark. -/
theorem exists_isMarked_of_operand {m : Macros} {tok : Token} {rest left toks : List Token}
    {stmt : Statement} (h : read m tok rest = (.ok stmt, left)) (hm : m.DrawnFrom toks)
    (ht : ∀ t ∈ tok :: rest, t ∈ toks) {t : Text} (hop : t ∈ stmt.operands m) {f : Literal.Fault}
    (hf : Operand.lower t = .error f) : ∃ tok ∈ toks, Text.IsMarked tok := by
  -- what is resolved is part of the tokens, put together
  have hpart : ∀ {u : Text}, u <:+: Token.unwords (tok :: rest) →
      Operand.lower (m.resolveOperand u) = .error f → ∃ tok ∈ toks, Text.IsMarked tok := by
    intro u hu hf
    rcases hm.exists_isMarked hf with hmark | hex
    · obtain ⟨tok', ht', hmark'⟩ := Token.exists_isMarked (hmark.of_infix hu)
      exact ⟨tok', ht tok' ht', hmark'⟩
    · exact hex
  cases stmt with
  | word core terminated =>
    obtain rfl := List.mem_singleton.1 hop
    rw [eq_of_read_word h] at hf
    exact hpart ((Text.infix_dropTerminator tok).trans (Token.infix_unwords_of_mem (by simp))) hf
  | move dest src =>
    obtain rfl := List.mem_singleton.1 hop
    exact hpart (infix_of_mem_terms h src (by simp [terms])) hf
  | call name args =>
    obtain ⟨arg, harg, rfl⟩ := List.mem_map.1 hop
    exact hpart (infix_of_mem_terms h arg (by simp [terms, harg])) hf
  | _ => cases hop

end Statement

/-! ## Runs -/

/-- What an error tells about the tokens that it happened among: a statement is never malformed, a
    bad literal has a mark, and braces are only missing behind a directive, unless they are
    strict. -/
structure Error.Traced (opts : Options) (toks : List Token) (e : Error) : Prop where
  shaped : e.category ≠ .malformed
  marked : e.category = .literal → ∃ tok ∈ toks, Text.IsMarked tok
  announced : e.category = .structural → opts.strict = false →
    Form.sectionWord ∈ toks ∨ Form.labelWord ∈ toks

namespace Error.Traced

variable {opts : Options} {toks : List Token} {e : Error}

theorem of_endOfInput (h : e.category = .endOfInput) : e.Traced opts toks := by
  constructor <;> rw [h] <;> intro h' <;> cases h'

theorem of_structural (h : e.category = .structural)
    (hb : opts.strict = false → Form.sectionWord ∈ toks ∨ Form.labelWord ∈ toks) :
    e.Traced opts toks := by
  refine ⟨?_, ?_, fun _ => hb⟩ <;> rw [h] <;> intro h' <;> cases h'

theorem of_literal (h : e.category = .literal) (hm : ∃ tok ∈ toks, Text.IsMarked tok) :
    e.Traced opts toks := by
  refine ⟨?_, fun _ => hm, ?_⟩ <;> rw [h] <;> intro h' <;> cases h'

theorem within (h : e.Traced opts toks) (scope : Scope) : (e.within scope).Traced opts toks :=
  ⟨h.shaped, h.marked, h.announced⟩

end Error.Traced

namespace Lowering

open Statement (read)

/-- An error of a run is one about its tokens, and so is an error in a block, which sees no other
    tokens and no other macros. -/
theorem traced_of_run {opts : Options} {pool : List Token} (toks : List Token) :
    (∀ t ∈ toks, t ∈ pool) → ∀ s : State, s.macros.DrawnFrom pool → ∀ e,
      (run opts toks s).error? = some e → e.Traced opts pool := by
  induction toks using reading_induction with
  | nil => intro _ s _ e he; rw [run_nil] at he; cases he
  | cons tok rest ih =>
    intro ht s hs e he
    rcases run_cons_cases opts tok rest s with
      ⟨e', left, hr⟩ | ⟨stmt, left, hr, ⟨s', e', hx⟩ | ⟨s', hx⟩⟩
    · rw [run_cons_error hr] at he
      cases he
      rcases Statement.category_of_read hr with hc | ⟨hc, rfl⟩
      · exact .of_endOfInput hc
      · exact .of_structural hc fun _ => .inr (ht _ (by simp))
    · rw [run_cons_fail hr hx] at he
      cases he
      cases Statement.fails_of_execute hx with
      | @block _ e' scope hi =>
        have htbody := (Statement.forall_mem_of_read hr ht).2
        have hbody := (ih _ _ _ hr).1 htbody (s.child opts) (hs.child opts)
        exact (hbody e' (Ending.result_eq_error.1 hi)).within scope
      | unclosed directive => exact .of_endOfInput rfl
      | noBlock kind f =>
        obtain ⟨hc, rfl⟩ := Statement.category_of_read_sectionHeader hr
        exact .of_structural hc fun _ => .inl (ht _ (by simp))
      | brace core hstrict => exact .of_structural rfl fun hl => by rw [hstrict] at hl; cases hl
      | operand trail hop hf =>
        exact .of_literal rfl (Statement.exists_isMarked_of_operand hr hs ht hop hf)
    · rw [run_cons_done hr hx] at he
      have htleft := (Statement.forall_mem_of_read hr ht).1
      have hm := Statement.macros_execute opts (inner opts stmt s) s stmt
      rw [hx] at hm
      have hdrawn := hs.redefine hr fun t h => ht t (List.mem_cons_of_mem _ h)
      exact (ih _ _ _ hr).2 htleft s' (hm ▸ hdrawn) e he

/-- **Every failure has one of three causes, which can be traced.**  If a source is not lowered,
    there is no text; the error is about braces, about the end of the input or about a literal, and
    its message announces that and nothing else.  It is about a literal only if a token has a base
    mark, and with lenient braces it is about braces only if a token is the directive of a section
    or of a label. -/
theorem failure_traced (opts : Options) (source : Text) (e : Error)
    (h : lower opts source = .error e) :
    (∀ text, lower opts source ≠ .ok text) ∧
    (e.category = .structural ∨ e.category = .endOfInput ∨ e.category = .literal) ∧
    (∀ c : Fault.Category, c.words <+: e.fault.message ↔ e.category = c) ∧
    (e.category = .literal → ∃ tok ∈ source.tokens, ∃ r : Radix, r.mark <:+: tok) ∧
    (opts.strict = false → e.category = .structural →
      Form.sectionWord ∈ source.tokens ∨ Form.labelWord ∈ source.tokens) := by
  have htraced : e.Traced opts source.tokens :=
    traced_of_run source.tokens (fun _ ht => ht) .initial (.empty _) e (Ending.result_eq_error.1 h)
  refine ⟨?_, ?_, e.fault.words_prefix_message_iff, htraced.marked,
    fun hl hc => htraced.announced hc hl⟩
  · rintro text ht
    rw [h] at ht
    cases ht
  · have hshaped := htraced.shaped
    cases hc : e.category with
    | structural => exact .inl rfl
    | endOfInput => exact .inr (.inl rfl)
    | literal => exact .inr (.inr rfl)
    | malformed => exact absurd hc hshaped

/-- A bad value that a call in two inheriting blocks has from a definition outside, and a section
    whose block is missing, behind a label. -/
theorem failure_traced_nested :
    let opts : Options := ⟨true, false, []⟩
    let source := utf8 "$define A 0xZ; $section s \x7b label n \x7b f( 1 , A); \x7d \x7d"
    let e : Error := ⟨[.sectionOf (utf8 "s"), .labelOf (utf8 "n"), .callOf (utf8 "f")],
      .badLiteral (.badDigits (utf8 "0xZ") .hexadecimal)⟩
    let source' := utf8 "label n \x7b $section s equ \x7d"
    let e' : Error := ⟨[.labelOf (utf8 "n"), .directive Form.sectionWord],
      .noBlock (some (utf8 "equ"))⟩
    (lower opts source = .error e ∧ lower opts source' = .error e') ∧
    ((∀ text, lower opts source ≠ .ok text) ∧
      (e.category = .structural ∨ e.category = .endOfInput ∨ e.category = .literal) ∧
      Fault.Category.literal.words <+: e.fault.message ∧
      ∃ tok ∈ source.tokens, ∃ r : Radix, r.mark <:+: tok) ∧
    ¬ Fault.Category.literal.words <+: e'.fault.message ∧
    (Form.sectionWord ∈ source'.tokens ∨ Form.labelWord ∈ source'.tokens) := by
  intro opts source e source' e'
  have he : lower opts source = .error e := Ending.result_eq_error.2 (by decide +kernel)
  have he' : lower opts source' = .error e' := Ending.result_eq_error.2 (by decide +kernel)
  obtain ⟨hno, hcat, hwords, hmark, -⟩ := failure_traced opts source e he
  obtain ⟨-, -, hwords', -, hbrace⟩ := failure_traced opts source' e' he'
  refine ⟨⟨he, he'⟩, ⟨hno, hcat, (hwords .literal).2 rfl, hmark rfl⟩, ?_, hbrace rfl rfl⟩
  intro h
  cases (hwords' .literal).1 h

end Lowering

end BlockAsm
