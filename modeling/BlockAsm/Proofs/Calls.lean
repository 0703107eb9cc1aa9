/-
  BlockAsm: calls, however they are laid out.

  Between the parentheses of a call stand its arguments with commas between them, and blanks
  around each (`Call.Spaced`).  In the tokens every run of blanks is a cut, and where the tokens
  are put together again it is one space (`Call.Spaced.respaces`); so what the reader cuts at the
  commas is again the arguments with blanks around them (`Call.Spaced.cut`).  A call is therefore
  read the same in every layout (`Call.Spaced.exists_read`).

  * `Statement.read_call`: tokens that spell a call are read as that call, and no token more;
  * `State.pushAll_append`: operands are pushed one after the other, up to the first fault.
-/
import BlockAsm.Proofs.Forms
import BlockAsm.Proofs.Program.Syntax
import BlockAsm.Proofs.Run
import BlockAsm.Proofs.Spacing

namespace BlockAsm

open Layout
open Output (Closed)
open Program (Ended)

/-! ## Trimming -/

namespace Text

theorem dropWhile_isBlank {rs : List Rune} (h : ∀ r ∈ rs, r.isBlank = false) :
    rs.dropWhile Rune.isBlank = rs := by
  cases rs with
  | nil => rfl
  | cons r rs => rw [List.dropWhile_cons_of_neg (by simp [h r])]

/-- Blanks around a solid text are trimmed. -/
theorem trim_blanks {w a w' : Text} (hw : w.IsBlank) (ha : a.IsSolid) (hw' : w'.IsBlank) :
    trim (w ++ a ++ w') = a := by
  have hr : (w ++ a ++ w').runes = w.runes ++ (a.runes ++ w'.runes) := by
    rw [List.append_assoc, hw.runes_append, hw'.append_runes]
  have hsolid : ∀ r ∈ a.runes, r.isBlank = false := fun r hm => (ha r hm).1
  have hdrop : ∀ {rs : List Rune}, (∀ r ∈ rs, r.isBlank = true) → ∀ rs',
      (rs ++ rs').dropWhile Rune.isBlank = rs'.dropWhile Rune.isBlank :=
    fun h _ => List.dropWhile_append_of_pos h
  rw [trim, hr, hdrop hw]
  cases hcases : a.runes with
  | nil =>
    have hnil : a = [] := by rw [← flatMap_bytes_runes a, hcases]; rfl
    have hblank := hdrop hw' []
    rw [List.append_nil] at hblank
    rw [List.nil_append, hblank, hnil]
    rfl
  | cons r rs =>
    rw [hcases] at hsolid
    rw [List.cons_append, List.dropWhile_cons_of_neg (by simp [hsolid r]), ← List.cons_append,
      List.reverse_append, hdrop fun x hx => hw' x (List.mem_reverse.1 hx),
      dropWhile_isBlank fun x hx => hsolid x (List.mem_reverse.1 hx), List.reverse_reverse,
      ← hcases, flatMap_bytes_runes]

end Text

/-! ## Layouts -/

namespace Call

/-- What can stand between the commas of a call. -/
structure IsArgument (a : Text) : Prop where
  ne_nil : a ≠ []
  solid : a.IsSolid
  noComma : Byte.comma ∉ a
  noParen : Byte.rparen ∉ a

/-- The text has the arguments with commas between them, and blanks around each. -/
inductive Spaced : List Text → Text → Prop
  | nil {w : Text} : w.IsBlank → Spaced [] w
  | one {w a w' : Text} : w.IsBlank → w'.IsBlank → Spaced [a] (w ++ a ++ w')
  | cons {w a w' b inside : Text} {args : List Text} : w.IsBlank → w'.IsBlank →
      Spaced (b :: args) inside →
      Spaced (a :: b :: args) (w ++ a ++ w' ++ Byte.comma :: inside)

/-- The arguments that are cut out at the commas. -/
def cutOut (inside : Text) : List Text :=
  ((inside.split Byte.comma).map Text.trim).filter (· ≠ [])

namespace Spaced

variable {args : List Text} {inside : Text} (h : Spaced args inside)
include h

theorem not_mem {b : UInt8} (hb : b < 0x80) (hn : (Byte.rune b).isBlank = false)
    (hc : b ≠ Byte.comma) (ha : ∀ a ∈ args, b ∉ a) : b ∉ inside := by
  induction h with
  | nil hw => exact hw.not_mem hb hn
  | one hw hw' => simp [hw.not_mem hb hn, hw'.not_mem hb hn, ha]
  | cons hw hw' _ ih =>
    have hi := ih fun a hm => ha a (List.mem_cons_of_mem _ hm)
    simp [hw.not_mem hb hn, hw'.not_mem hb hn, ha, hc, hi]

/-- The arguments are cut out again. -/
theorem cut (ha : ∀ a ∈ args, IsArgument a) : cutOut inside = args := by
  have hone : ∀ {w a w' : Text}, w.IsBlank → w'.IsBlank → a.IsSolid → Byte.comma ∉ a →
      ((w ++ a ++ w').split Byte.comma).map Text.trim = [a] := by
    intro w a w' hw hw' hs hc
    have hnot : ∀ {v : Text}, v.IsBlank → Byte.comma ∉ v :=
      fun hv => hv.not_mem (by decide) (by decide)
    rw [Text.split_of_not_mem (by simp [hnot hw, hnot hw', hc]), List.map_singleton,
      Text.trim_blanks hw hs hw']
  induction h with
  | @nil w hw =>
    have hnil : w = w ++ [] ++ [] := by simp
    rw [cutOut, hnil, hone hw (by decide) .nil (by simp)]
    rfl
  | @one w a w' hw hw' =>
    obtain ⟨hne, hs, hc, -⟩ := ha a (by simp)
    rw [cutOut, hone hw hw' hs hc]
    simp [hne]
  | @cons w a w' b inside args hw hw' _ ih =>
    obtain ⟨hne, hs, hc, -⟩ := ha a (by simp)
    have hi := ih fun x hx => ha x (List.mem_cons_of_mem _ hx)
    rw [cutOut] at hi
    rw [cutOut, Text.split_append_sep, List.map_append, hone hw hw' hs hc, List.filter_append, hi]
    simp [hne]

end Spaced

/-- Arguments joined with commas and spaces are in one of the layouts. -/
theorem spaced_join : ∀ args : List Text, Spaced args (Text.join (utf8 ", ") args) := by
  have hspaced : ∀ (args : List Text) {w : Text}, w.IsBlank →
      Spaced args (w ++ Text.join (utf8 ", ") args) := by
    intro args
    induction args with
    | nil => intro w hw; simpa [Text.join] using Spaced.nil hw
    | cons a args ih =>
      intro w hw
      cases args with
      | nil => simpa [Text.join] using @Spaced.one w a [] hw (by decide)
      | cons b args =>
        have hcons := @Spaced.cons w a [] b _ args hw (by decide) (@ih [Byte.space] (by decide))
        simpa [Text.join, show utf8 ", " = [Byte.comma, Byte.space] from rfl] using hcons
  exact fun args => @hspaced args [] (by decide)

end Call

/-! ## Blanks in the tokens -/

namespace Token

/-- What blanks between two tokens become when the tokens are put together again. -/
def gap (w : Text) : Text := if w = [] then [] else [Byte.space]

theorem isBlank_gap (w : Text) : (gap w).IsBlank := by
  unfold gap
  split <;> decide

/-- Behind any solid text, cutting the text into tokens and putting them together again makes
    `u` of it. -/
def Respaces (t u : Text) : Prop :=
  ∀ front : Text, front.IsSolid → unwords (front ++ t).tokens = front ++ u

theorem unwords_cons {tok : Token} {toks : List Token} (h : toks ≠ []) :
    unwords (tok :: toks) = tok ++ Byte.space :: unwords toks := by
  obtain ⟨tok', toks, rfl⟩ := List.exists_cons_of_ne_nil h
  exact unwords_cons_cons tok tok' toks

namespace Respaces

theorem of_solid {t : Text} (hne : t ≠ []) (h : ∀ a : Text, a.IsSolid → (a ++ t).IsSolid) :
    Respaces t t := by
  intro front hf
  rw [(h front hf).tokens (by simp [hne])]
  rfl

variable {b : UInt8} {t u : Text} (h : Respaces (b :: t) (b :: u))
include h

theorem unwords_tokens : unwords (Text.tokens (b :: t)) = b :: u := h [] .nil

theorem tokens_ne_nil : Text.tokens (b :: t) ≠ [] := by
  intro hn
  have := h.unwords_tokens
  rw [hn] at this
  cases this

/-- Blanks behind a token become a space. -/
theorem unwords_gap {w : Text} (hw : w.IsBlank) {x : Text} (hx : x.IsSolid) (hne : x ≠ []) :
    unwords (x ++ (w ++ b :: t)).tokens = x ++ (gap w ++ b :: u) := by
  unfold gap
  split
  · rename_i hnil
    rw [hnil, List.nil_append, List.nil_append, h x hx]
  · rename_i hw'
    rw [hw.tokens_between hw', hx.tokens hne, List.singleton_append, unwords_cons h.tokens_ne_nil,
      h.unwords_tokens]
    rfl

section
variable {c : UInt8} (hc : Byte.IsSolid c)
include hc

theorem blanks {w : Text} (hw : w.IsBlank) :
    Respaces (c :: (w ++ b :: t)) (c :: (gap w ++ b :: u)) := by
  intro front hf
  have hgap := h.unwords_gap hw (hf.append_cons .nil hc) (by simp)
  simpa using hgap

theorem argument {w a w' : Text} (hw : w.IsBlank) (hw' : w'.IsBlank) (ha : a.IsSolid)
    (hne : a ≠ []) : Respaces (c :: (w ++ a ++ w' ++ b :: t))
      (c :: (gap w ++ a ++ gap w' ++ b :: u)) := by
  intro front hf
  by_cases hnil : w = []
  · -- the argument goes on with the token
    have hgap := h.unwords_gap hw' (hf.append_cons ha hc) (by simp)
    simpa [hnil, gap] using hgap
  · have hgap := h.unwords_gap hw' ha hne
    have htoks : (a ++ (w' ++ b :: t)).tokens ≠ [] := by
      intro hn
      rw [hn] at hgap
      exact hne (List.append_eq_nil_iff.1 hgap.symm).1
    have hsplit := hw.tokens_between hnil (front ++ [c]) (a ++ (w' ++ b :: t))
    rw [(hf.append_cons .nil hc).tokens (by simp), List.singleton_append] at hsplit
    have hjoin := @unwords_cons (front ++ [c]) _ htoks
    rw [← hsplit, hgap] at hjoin
    simpa [gap, hnil] using hjoin

end

end Respaces

end Token

namespace Call

theorem append_close {close : Text} (hc : Ended [Byte.rparen] close) {a : Text}
    (ha : a.IsSolid) : (a ++ close).IsSolid := by
  rcases hc with rfl | rfl
  · exact ha.append_cons .nil (by decide)
  · exact ha.append_cons (by decide) (by decide)

open Token in
/-- In the tokens the arguments stand in a layout again. -/
theorem Spaced.respaces {args : List Text} {inside : Text} (h : Spaced args inside)
    (ha : ∀ a ∈ args, IsArgument a) {close : Text} (hclose : Ended [Byte.rparen] close) :
    ∃ inside', Spaced args inside' ∧
      ∀ c, Byte.IsSolid c → Respaces (c :: (inside ++ close)) (c :: (inside' ++ close)) := by
  obtain ⟨more, rfl⟩ : ∃ more, close = Byte.rparen :: more := by
    rcases hclose with rfl | rfl <;> exact ⟨_, rfl⟩
  have hend : Respaces (Byte.rparen :: more) (Byte.rparen :: more) :=
    .of_solid (by simp) fun a ha => append_close hclose ha
  induction h with
  | @nil w hw => exact ⟨gap w, .nil (isBlank_gap w), fun c hc => hend.blanks hc hw⟩
  | @one w a w' hw hw' =>
    have harg := ha a (by simp)
    exact ⟨_, .one (isBlank_gap w) (isBlank_gap w'),
      fun c hc => hend.argument hc hw hw' harg.solid harg.ne_nil⟩
  | @cons w a w' b inside args hw hw' _ ih =>
    have harg := ha a (by simp)
    obtain ⟨inside', hspaced, hresp⟩ := ih fun x hx => ha x (List.mem_cons_of_mem _ hx)
    refine ⟨_, .cons (isBlank_gap w) (isBlank_gap w') hspaced, fun c hc => ?_⟩
    have hcomma := (hresp Byte.comma (by decide)).argument hc hw hw' harg.solid harg.ne_nil
    simpa using hcomma

end Call

/-! ## Reading a call -/

namespace Token

/-- Up to a token with the byte: if the tokens, put together, have it only in what they end with,
    that token is the last. -/
theorem upTo_mem {b : UInt8} {close : Text} (hb : b ∈ close) (hs : Byte.space ∉ close)
    (rest : List Token) : ∀ (toks : List Token) (front : Text), b ∉ front →
      unwords toks = front ++ close → upTo (b ∈ ·) (toks ++ rest) = (toks, some rest)
  | [], front, _, hu => by
    have hnil : front ++ close = [] := hu.symm
    rw [(List.append_eq_nil_iff.1 hnil).2] at hb
    cases hb
  | [tok], front, _, hu => by
    have htok : tok = front ++ close := hu
    simp [upTo, htok, hb]
  | tok :: tok' :: toks, front, hf, hu => by
    rw [unwords_cons_cons] at hu
    -- the space behind the first token stands in front of `close`
    rcases List.append_eq_append_iff.1 hu with ⟨mid, rfl, hmid⟩ | ⟨mid, -, hmid⟩
    · cases mid with
      | nil => exact absurd (by rw [← List.nil_append close, ← hmid]; simp) hs
      | cons x mid =>
        rw [List.cons_append] at hmid
        obtain ⟨rfl, hleft⟩ := List.cons.inj hmid
        rw [List.mem_append, not_or, List.mem_cons, not_or] at hf
        have ih := upTo_mem hb hs rest (tok' :: toks) mid hf.2.2 hleft
        rw [List.cons_append, upTo, if_neg (by simpa using hf.1), ih]
    · exact absurd (by rw [hmid]; simp) hs

theorem exists_unwords_eq_append {front behind : Text} (hs : Byte.space ∉ front) (hf : front ≠ []) :
    ∀ {toks : List Token}, unwords toks = front ++ behind → ∃ t left, toks = (front ++ t) :: left
  | [], hu => absurd (List.append_eq_nil_iff.1 (Eq.symm hu)).1 hf
  | [tok], hu => ⟨behind, [], by rw [← hu]; rfl⟩
  | tok :: tok' :: toks, hu => by
    rw [unwords_cons_cons] at hu
    rcases List.append_eq_append_iff.1 hu with ⟨mid, rfl, hmid⟩ | ⟨mid, rfl, -⟩
    · cases mid with
      | nil => exact ⟨[], tok' :: toks, by simp⟩
      | cons b mid =>
        rw [List.cons_append] at hmid
        obtain ⟨rfl, -⟩ := List.cons.inj hmid
        simp at hs
    · exact ⟨mid, _, rfl⟩

end Token

section
variable {name : Text} (hn : name.isIdentifier = true)
include hn

theorem Text.not_mem_of_isIdentifier {b : UInt8} (hb : Byte.isIdentifierPart b = false) :
    b ∉ name := by
  intro hm
  rw [name.isIdentifierPart_of_mem hn hm] at hb
  cases hb

/-- An identifier with an opening parenthesis behind it opens a call. -/
theorem Form.ofToken_callHead (behind : Text) :
    ofToken (name ++ [Byte.lparen] ++ behind) = .call := by
  rw [List.append_assoc]
  exact ofToken_of_tells (.call (Text.isIdentifier_iff.1 hn) behind)

/-- A call is its name, and what is cut out of its parentheses at the commas. -/
theorem Call.parse?_parentheses {close : Text} (hc : Ended [Byte.rparen] close) (inside : Text) :
    parse? (name ++ [Byte.lparen] ++ inside ++ close) = some (name, cutOut inside) := by
  -- the name has no parenthesis of its own, and behind `close` comes none
  have hname := Text.not_mem_of_isIdentifier hn (b := Byte.lparen) (by decide)
  rw [List.append_assoc, List.append_assoc, List.singleton_append]
  rcases hc with rfl | rfl
  · exact parse?_parts hname inside (by simp)
  · exact parse?_parts hname inside (by decide)

/-- The reader takes tokens that spell a call as that call, and leaves the others. -/
theorem Statement.read_call {inside close : Text} (hc : Ended [Byte.rparen] close)
    (hi : Byte.rparen ∉ inside) {toks : List Token}
    (hu : Token.unwords toks = name ++ [Byte.lparen] ++ inside ++ close) :
    ∃ behind left, toks = (name ++ [Byte.lparen] ++ behind) :: left ∧ ∀ m rest,
      read m (name ++ [Byte.lparen] ++ behind) (left ++ rest) =
        (.ok (.call name (Call.cutOut inside)), rest) := by
  have hspace : Byte.space ∉ name ++ [Byte.lparen] := by
    rw [List.mem_append, not_or]
    exact ⟨Text.not_mem_of_isIdentifier hn (by decide), by decide⟩
  obtain ⟨behind, left, hline⟩ := Token.exists_unwords_eq_append hspace (by simp)
    (hu.trans (List.append_assoc ..))
  refine ⟨behind, left, hline, fun m rest => ?_⟩
  have hf : Byte.rparen ∉ name ++ [Byte.lparen] ++ inside := by
    rw [List.mem_append, List.mem_append, not_or, not_or]
    exact ⟨⟨Text.not_mem_of_isIdentifier hn (by decide), by decide⟩, hi⟩
  have hclose : Byte.rparen ∈ close ∧ Byte.space ∉ close := by
    rcases hc with rfl | rfl <;> decide
  have hup := Token.upTo_mem hclose.1 hclose.2 rest toks _ hf hu
  rw [hline, List.cons_append] at hup
  simp only [read, Form.ofToken_callHead hn, readCall, hup]
  rw [← hline, hu, ofCallText, Call.parse?_parentheses hn hc]

/-- A call is read the same in every layout. -/
theorem Call.Spaced.exists_read {inside close : Text} {args : List Text} (hi : Spaced args inside)
    (ha : ∀ a ∈ args, IsArgument a) (hc : Ended [Byte.rparen] close) :
    ∃ tok left, (name ++ [Byte.lparen] ++ inside ++ close).tokens = tok :: left ∧ ∀ m rest,
      Statement.read m tok (left ++ rest) = (.ok (.call name args), rest) := by
  obtain ⟨inside', hi', hresp⟩ := hi.respaces ha hc
  have hspells := hresp Byte.lparen (by decide) name (Text.solid_of_isIdentifier hn).2.1
  have hparen : Byte.rparen ∉ inside' :=
    hi'.not_mem (by decide) (by decide) (by decide) fun a hm => (ha a hm).noParen
  have hassoc : ∀ t : Text,
      name ++ Byte.lparen :: (t ++ close) = name ++ [Byte.lparen] ++ t ++ close := by simp
  rw [hassoc, hassoc] at hspells
  obtain ⟨behind, left, htoks, hread⟩ := Statement.read_call hn hc hparen hspells
  rw [hi'.cut ha] at hread
  exact ⟨_, left, htoks, hread⟩

end

/-! ## Pushing operands -/

/-- What an operand becomes: its value in its target form. -/
def Macros.Lowers (m : Macros) (arg op : Text) : Prop :=
  Operand.lower (m.resolveOperand arg) = .ok op

namespace State

theorem foldl_line {m : Macros} (ls : List Text) : ∀ {out : Text}, Closed out →
    ls.foldl State.line ⟨m, out⟩ = ⟨m, out ++ finished ls⟩ := by
  induction ls with
  | nil => intro out _; simp
  | cons l ls ih =>
    intro out ho
    rw [List.foldl_cons, State.line, Output.line_of_closed ho,
      ih (ho.append (Output.closed_finished [l])), List.append_assoc, ← finished_append]
    rfl

theorem macros_foldl_line (ls : List Text) (s : State) :
    (ls.foldl State.line s).macros = s.macros := by
  induction ls generalizing s with
  | nil => rfl
  | cons l ls ih => rw [List.foldl_cons, ih]; rfl

/-- The first of the lines finishes the line before. -/
theorem foldl_line_append (ls : List Text) (l : Text) (s : State) :
    (ls ++ [l]).foldl State.line s =
      ⟨s.macros, Output.closeLine s.out ++ finished (ls ++ [l])⟩ := by
  obtain ⟨k, ks, hk⟩ := List.exists_cons_of_ne_nil (List.append_ne_nil_of_right_ne_nil ls
    (List.cons_ne_nil l []))
  have hline : s.line k = ⟨s.macros, Output.closeLine s.out ++ finished [k]⟩ := by
    simp [State.line, Output.line, finished]
  have hclosed : Closed (Output.closeLine s.out ++ finished [k]) :=
    Output.closed_iff.2 (Or.inr ⟨Output.closeLine s.out ++ k, by simp [finished]⟩)
  rw [hk, List.foldl_cons, hline, foldl_line ks hclosed, List.append_assoc, ← finished_append]
  rfl

/-- Operands are pushed in the given order, and then the others. -/
theorem pushAll_append {args ops : List Text} (rest : List Text) : ∀ {s : State},
    List.Forall₂ s.macros.Lowers args ops → s.pushAll (args ++ rest) =
      ((ops.map (utf8 "push " ++ ·)).foldl State.line s).pushAll rest := by
  induction args generalizing ops with
  | nil =>
    intro s h
    cases h
    rfl
  | cons arg args ih =>
    intro s h
    cases h with
    | @cons _ op _ ops hop hops =>
      rw [Macros.Lowers] at hop
      rw [List.cons_append, pushAll, hop]
      exact @ih ops (s.line (utf8 "push " ++ op)) hops

end State

/-- If not all operands can be lowered, there is a last one that cannot. -/
theorem Macros.exists_last_fault {m : Macros} {args : List Text}
    (h : ¬ ∃ ops, List.Forall₂ m.Lowers args ops) : ∃ front a back f ops,
      args = front ++ a :: back ∧ Operand.lower (m.resolveOperand a) = .error f ∧
      List.Forall₂ m.Lowers back ops := by
  induction args with
  | nil => exact absurd ⟨[], .nil⟩ h
  | cons a args ih =>
    by_cases hargs : ∃ ops, List.Forall₂ m.Lowers args ops
    · obtain ⟨ops, hops⟩ := hargs
      cases ha : Operand.lower (m.resolveOperand a) with
      | ok op => exact absurd ⟨op :: ops, .cons ha hops⟩ h
      | error f => exact ⟨[], a, args, f, ops, rfl, ha, hops⟩
    · obtain ⟨front, x, back, f, ops, rfl, hx, hops⟩ := ih hargs
      exact ⟨a :: front, x, back, f, ops, rfl, hx, hops⟩

namespace Statement

section
variable {s : State} {args back ops : List Text} (opts : Options) (r : Except Error Text)
  (name : Text)

theorem execute_call (h : List.Forall₂ s.macros.Lowers args ops) :
    (call name args).execute opts r s = done ⟨s.macros, Output.closeLine s.out ++ finished
      (ops.reverse.map (utf8 "push " ++ ·) ++ [utf8 "call " ++ s.macros.resolve name])⟩ := by
  have hpush := State.pushAll_append [] (List.forall₂_reverse_iff.2 h)
  rw [List.append_nil, State.pushAll] at hpush
  simp only [execute, hpush, State.macros_foldl_line]
  rw [← State.foldl_line_append, List.foldl_append]
  rfl

theorem execute_call_fault {front : List Text} {a : Text} {f : Literal.Fault}
    (ha : Operand.lower (s.macros.resolveOperand a) = .error f)
    (h : List.Forall₂ s.macros.Lowers back ops) :
    (call name (front ++ a :: back)).execute opts r s =
      fail ((ops.reverse.map (utf8 "push " ++ ·)).foldl State.line s)
        ⟨[.callOf name], .badLiteral f⟩ := by
  have hpush := State.pushAll_append (a :: front.reverse) (List.forall₂_reverse_iff.2 h)
  rw [State.pushAll, State.macros_foldl_line, ha] at hpush
  simp [execute, hpush]

end

end Statement

/-! ## Any layout -/

namespace Lowering

open Statement (read)

/-- **A call is the same in every layout.**  Its tokens, and no other, are read as the call of its
    name with its arguments.  If all arguments can be lowered, the last line is finished, the
    arguments are pushed from the last to the first, and the call follows; otherwise the fault is
    that of the last argument that cannot be lowered, and those behind it have been pushed. -/
theorem run_spaced_call {name inside close : Text} {args : List Text}
    (hn : name.isIdentifier = true) (ha : ∀ a ∈ args, Call.IsArgument a)
    (hi : Call.Spaced args inside) (hc : Ended [Byte.rparen] close)
    (opts : Options) (s : State) (rest : List Token) :
    ∃ tok left, (name ++ [Byte.lparen] ++ inside ++ close).tokens = tok :: left ∧
      read s.macros tok (left ++ rest) = (.ok (.call name args), rest) ∧
      (∀ ops, List.Forall₂ s.macros.Lowers args ops →
        run opts (tok :: left ++ rest) s = run opts rest
          ⟨s.macros, Output.closeLine s.out ++ finished
            (ops.reverse.map (utf8 "push " ++ ·) ++ [utf8 "call " ++ s.macros.resolve name])⟩) ∧
      ((¬ ∃ ops, List.Forall₂ s.macros.Lowers args ops) → ∃ front a back f ops,
        args = front ++ a :: back ∧ Operand.lower (s.macros.resolveOperand a) = .error f ∧
        List.Forall₂ s.macros.Lowers back ops ∧
        run opts (tok :: left ++ rest) s =
          ⟨rest, (ops.reverse.map (utf8 "push " ++ ·)).foldl State.line s,
            some ⟨[.callOf name], .badLiteral f⟩⟩) := by
  obtain ⟨tok, left, htoks, hread⟩ := hi.exists_read hn ha hc
  refine ⟨tok, left, htoks, hread _ rest, fun ops hops => ?_, fun hfault => ?_⟩
  · exact run_cons_done (hread _ rest) (Statement.execute_call opts _ name hops)
  · obtain ⟨front, a, back, f, ops, rfl, hf, hops⟩ := Macros.exists_last_fault hfault
    refine ⟨front, a, back, f, ops, rfl, hf, hops, ?_⟩
    exact run_cons_fail (hread _ rest) (Statement.execute_call_fault opts _ name hf hops)

/-- A call of a defined name behind an open line, with a wide blank, a line end, and an argument
    that has a parenthesis and a terminator of its own. -/
theorem run_spaced_call_wide : ∃ inside : Text, ∃ m : Macros,
    inside = utf8 "\t&N\u00a0,0x10\n,\"a;( " ∧
    m = (Macros.empty.define (utf8 "N") (utf8 "buf")).define (utf8 "put") (utf8 "write") ∧
    Call.Spaced [utf8 "&N", utf8 "0x10", utf8 "\"a;("] inside ∧
    run {} ((utf8 "put(" ++ inside ++ utf8 ");").tokens ++ [Token.rbrace]) ⟨m, utf8 "db 1"⟩ =
      run {} [Token.rbrace] ⟨m, utf8 "db 1\npush \"a;(\npush 16\npush [buf]\ncall write\n"⟩ := by
  refine ⟨_, _, rfl, rfl, ?_⟩
  have hi : Call.Spaced [utf8 "&N", utf8 "0x10", utf8 "\"a;("]
      (utf8 "\t&N\u00a0,0x10\n,\"a;( ") :=
    @Call.Spaced.cons (utf8 "\t") _ (utf8 "\u00a0") _ _ _ (by decide +kernel) (by decide +kernel)
      (@Call.Spaced.cons [] _ (utf8 "\n") _ _ _ (by decide) (by decide)
        (@Call.Spaced.one [] _ (utf8 " ") (by decide) (by decide)))
  have ha : ∀ a ∈ [utf8 "&N", utf8 "0x10", utf8 "\"a;("], Call.IsArgument a := by
    intro a hm
    simp only [List.mem_cons, List.not_mem_nil, or_false] at hm
    rcases hm with rfl | rfl | rfl <;> exact ⟨by decide, by decide +kernel, by decide, by decide⟩
  have hn : (utf8 "put").isIdentifier = true := by decide
  obtain ⟨tok, left, htoks, -, hrun, -⟩ := run_spaced_call hn ha hi (Or.inr rfl) {}
    ⟨(Macros.empty.define (utf8 "N") (utf8 "buf")).define (utf8 "put") (utf8 "write"),
      utf8 "db 1"⟩ [Token.rbrace]
  refine ⟨hi, ?_⟩
  have hsource : utf8 "put(" ++ utf8 "\t&N\u00a0,0x10\n,\"a;( " ++ utf8 ");" =
      utf8 "put" ++ [Byte.lparen] ++ utf8 "\t&N\u00a0,0x10\n,\"a;( " ++
        ([Byte.rparen] ++ [Byte.semicolon]) := by decide
  rw [hsource, htoks, hrun [utf8 "[buf]", utf8 "16", utf8 "\"a;("]]
  · refine congrArg (run {} [Token.rbrace]) ?_
    decide +kernel
  · refine .cons ?_ (.cons ?_ (.cons ?_ .nil)) <;> unfold Macros.Lowers <;> decide +kernel

end Lowering

end BlockAsm
