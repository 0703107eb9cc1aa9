/-
  BlockAsm: comments between statements.

  A comment that is put in at a point of a run leaves the run as it is
  (`Visits.run_insert`).  In a block around the point the comment is more tokens, with no
  braces among them, and the run over the block ends as before; so the block may be exchanged
  for the one with the comment.  One block tells them apart: that of a constant, which has to
  start with its word.
-/
import BlockAsm.Proofs.Extent
import BlockAsm.Proofs.Points

namespace BlockAsm

namespace Token

/-- A token that may stand inside a comment. -/
def IsRemark (w : Token) : Prop :=
  w ≠ lbrace ∧ w ≠ rbrace ∧ w.includes Form.commentClose = false

/-- The tokens of a comment. -/
def comment (words : List Token) : List Token :=
  Form.commentOpen :: (words ++ [Form.commentClose])

theorem upTo_close (closes : Token → Bool) {close : Token} (hc : closes close = true)
    (rest : List Token) {toks : List Token} (h : ∀ t ∈ toks, closes t = false) :
    upTo closes (toks ++ close :: rest) = (toks ++ [close], some rest) := by
  induction toks with
  | nil => simp [upTo, hc]
  | cons tok toks ih =>
    have ih := ih fun t ht => h t (by simp [ht])
    simp [upTo, h tok (by simp), ih]

section
variable {words : List Token} (hw : ∀ w ∈ words, IsRemark w)
include hw

theorem depth?_comment (depth : Nat) : depth? depth (comment words) = some depth := by
  have hwords : depth? depth (words ++ [Form.commentClose]) = some depth := by
    induction words with
    | nil => exact depth?_cons _ _ (by decide) (by decide)
    | cons w words ih =>
      obtain ⟨hl, hr, -⟩ := hw w (by simp)
      rw [List.cons_append, depth?_cons _ _ hl hr]
      exact ih fun w' hw' => hw w' (by simp [hw'])
  rw [comment, depth?_cons _ _ (by decide) (by decide), hwords]

theorem depth?_insert_comment (before behind : List Token) (depth : Nat) :
    depth? depth (before ++ (comment words ++ behind)) = depth? depth (before ++ behind) := by
  rw [depth?_append, depth?_append before]
  refine congrArg _ (funext fun d => ?_)
  rw [depth?_append, depth?_comment hw, Option.bind_some]

end

theorem head?_insert_comment {tok : Token} (ht : tok ≠ Form.commentOpen) (words : List Token)
    {before behind : List Token} : (before ++ (comment words ++ behind)).head? = some tok ↔
      before ≠ [] ∧ (before ++ behind).head? = some tok := by
  cases before with
  | nil => exact ⟨fun h => absurd (Option.some.inj h).symm ht, fun h => absurd rfl h.1⟩
  | cons first before => exact ⟨fun h => ⟨nofun, h⟩, fun h => h.2⟩

end Token

namespace Statement

theorem read_comment {words : List Token} (hw : ∀ w ∈ words, Token.IsRemark w) (m : Macros)
    (rest : List Token) :
    read m Form.commentOpen (words ++ Form.commentClose :: rest) = (.ok .comment, rest) := by
  have hf : Form.ofToken Form.commentOpen = .comment := by decide
  have ho : Text.dropFront? Form.commentOpen Form.commentOpen = some [] := by decide
  have hn : Text.includes [] Form.commentClose = false := by decide
  have hc : Text.includes Form.commentClose Form.commentClose = true := by decide
  have hup : Token.upTo (·.includes Form.commentClose) (words ++ Form.commentClose :: rest) =
      (words ++ [Form.commentClose], some rest) :=
    Token.upTo_close (·.includes Form.commentClose) hc rest fun w hm => (hw w hm).2.2
  simp only [read, hf, readComment, ho, hn, hup]
  rfl

end Statement

namespace Lowering

open Statement (read)

section
variable {words : List Token} (hw : ∀ w ∈ words, Token.IsRemark w) (opts : Options)
include hw

theorem run_comment (toks : List Token) (s : State) :
    run opts (Token.comment words ++ toks) s = run opts toks s := by
  have htoks : Token.comment words ++ toks =
      Form.commentOpen :: (words ++ Form.commentClose :: toks) := by simp [Token.comment]
  rw [htoks, run_cons_done (Statement.read_comment hw s.macros toks) rfl]

/-- The block with a comment among its tokens is a block as well, with the same outcome if
    the run over its tokens ends as before. -/
theorem run_insert_block {tok name : Token} {left : List Token} {s : State} {stmt : Statement}
    {b : Block} {before behind : List Token} (hsplit : before ++ behind = b.tokens)
    (h : read s.macros tok (name :: Token.lbrace :: (b.tokens ++ b.behind left)) = (.ok stmt, left))
    (hb : stmt.block? = some b)
    (hequ : ∀ name, stmt = .label name b → b.first? = some Form.equWord → before ≠ [])
    (hres : run opts (before ++ (Token.comment words ++ behind)) (s.child opts) =
      run opts b.tokens (s.child opts)) :
    run opts (tok :: name :: Token.lbrace ::
        (before ++ (Token.comment words ++ behind) ++ b.behind left)) s =
      run opts (tok :: name :: Token.lbrace :: (b.tokens ++ b.behind left)) s := by
  obtain ⟨name', rest, hrest, hread, -⟩ := Statement.exists_of_read_block h hb
  obtain ⟨-, ⟨depth, hdepth, hclosed⟩, -⟩ := Block.read_eq_ok_iff.1 hread
  let b' : Block := ⟨before ++ (Token.comment words ++ behind), b.closed⟩
  have hformed : b'.IsFormed :=
    ⟨depth, by rw [Token.depth?_insert_comment hw, hsplit, hdepth], hclosed⟩
  have hequ' : ∀ name, stmt = .label name b →
      (b'.first? = some Form.equWord ↔ b.first? = some Form.equWord) := by
    intro name hl
    rw [Block.first?, Token.head?_insert_comment (by decide), hsplit]
    exact ⟨fun he => he.2, fun he => ⟨hequ name hl he, he⟩⟩
  exact run_replaceBlock h hb hformed rfl hequ' (congrArg _ hres)

/-- Behind the last statement a comment changes nothing: it is read there, or in the open block that
    the statement ends in. -/
theorem run_append_comment (toks : List Token) : ∀ s, (run opts toks s).error? = none →
    run opts (toks ++ Token.comment words) s = run opts toks s := by
  induction toks using reading_induction with
  | nil =>
    intro s _
    have h := run_comment hw opts [] s
    rwa [List.append_nil] at h
  | cons tok rest ih =>
    intro s hs
    rcases run_cons_cases opts tok rest s with
      ⟨e, left, hr⟩ | ⟨stmt, left, hr, ⟨s', e, hx⟩ | ⟨s', hx⟩⟩
    · rw [run_cons_error hr] at hs; cases hs
    · rw [run_cons_fail hr hx] at hs; cases hs
    obtain ⟨hbody, hleft⟩ := ih _ _ _ hr
    by_cases hc : stmt.IsComplete
    · have ha : (Token.comment words).head? ≠ some Token.arrow := fun h => nomatch h
      rw [run_cons_done hr hx] at hs
      rw [List.cons_append, run_cons_done (Statement.read_append hr hc ha) hx, run_cons_done hr hx]
      exact hleft s' hs
    · obtain ⟨b, hb, hopen, rfl⟩ := Statement.exists_of_not_isComplete hr hx hc
      obtain ⟨text, htext⟩ := Statement.exists_of_execute_block hx hb
      have hinner := hbody (s.child opts) (Ending.result_eq_ok.1 htext).1
      rw [Statement.body_of_block? hb] at hinner
      obtain ⟨name, behind, rfl, hread, -⟩ := Statement.exists_of_read_block hr hb
      obtain ⟨rfl, -, -⟩ := Block.read_eq_ok_iff.1 hread
      have hne : ∀ name, stmt = .label name b → b.first? = some Form.equWord → b.tokens ≠ [] := by
        rintro name - hf hn
        rw [Block.first?, hn] at hf
        cases hf
      have hinsert := run_insert_block hw opts (List.append_nil b.tokens) hr hb hne
        (by rwa [List.append_nil])
      simpa [Block.behind, hopen] using hinsert

end

/-- A point at the start of the block of a constant. -/
def AtConstant (opts : Options) (toks : List Token) (s : State) (p : Point) : Prop :=
  ∃ q name rest, Visits opts toks s q ∧
    q.ahead = Form.labelWord :: name :: Token.lbrace :: Form.equWord :: rest ∧
    p.before = q.before ++ [Form.labelWord, name, Token.lbrace]

section
variable {opts : Options} {tok : Token} {left : List Token} {s : State} {stmt : Statement}
  {p : Point}

theorem AtConstant.next {taken : List Token} {s' : State}
    (hr : read s.macros tok (taken ++ left) = (.ok stmt, left))
    (hx : stmt.execute opts (inner opts stmt s) s = (s', none)) (h : AtConstant opts left s' p) :
    AtConstant opts (tok :: (taken ++ left)) s
      { p with before := tok :: (taken ++ p.before) } := by
  obtain ⟨q, name, rest, hq, hahead, hbefore⟩ := h
  exact ⟨_, name, rest, .next hr hx hq, hahead, by simp [hbefore]⟩

theorem AtConstant.block {name : Token} {b : Block}
    (hr : read s.macros tok (name :: Token.lbrace :: (b.tokens ++ b.behind left)) =
      (.ok stmt, left))
    (hb : stmt.block? = some b) (ha : Statement.Admits opts b)
    (h : AtConstant opts b.tokens (s.child opts) p) :
    AtConstant opts (tok :: name :: Token.lbrace :: (b.tokens ++ b.behind left)) s
      { p with
        before := tok :: name :: Token.lbrace :: p.before
        behind := p.behind ++ b.behind left } := by
  obtain ⟨q, name', rest, hq, hahead, hbefore⟩ := h
  exact ⟨_, name', rest, .block hr hb ha hq, hahead, by simp [hbefore]⟩

/-- The start of the block of a label, if it starts as that of a constant. -/
theorem AtConstant.start {name name' : Token} {b : Block}
    (hr : read s.macros tok (name :: Token.lbrace :: (b.tokens ++ b.behind left)) =
      (.ok stmt, left))
    (hb : stmt.block? = some b) (hl : stmt = .label name' b)
    (hf : b.first? = some Form.equWord) {p : Point}
    (hp : p.before = [tok, name, Token.lbrace]) :
    AtConstant opts (tok :: name :: Token.lbrace :: (b.tokens ++ b.behind left)) s p := by
  obtain ⟨_, _, -, -, ⟨-, rfl⟩ | ⟨rfl, -⟩⟩ := Statement.exists_of_read_block hr hb
  · cases hl
  · obtain ⟨rest, hrest⟩ := List.head?_eq_some_iff.1 hf
    exact ⟨_, name, rest ++ b.behind left, .here _ s, by simp [hrest], by simp [hp]⟩

end

/-- A comment that is put in at a point of a run leaves the run as it is, unless it comes to stand
    in front of a constant. -/
theorem Visits.run_insert {words : List Token} (hw : ∀ w ∈ words, Token.IsRemark w)
    {opts : Options} {toks : List Token} {s : State} {p : Point} (h : Visits opts toks s p)
    (hc : ¬ AtConstant opts toks s p) :
    run opts (p.before ++ (Token.comment words ++ (p.ahead ++ p.behind))) s = run opts toks s := by
  induction h with
  | here toks s =>
    rw [List.append_nil]
    exact run_comment hw opts toks s
  | @next tok taken left s s' stmt p hr hx h ih =>
    have hsplit := h.append_eq
    rw [List.cons_append, List.append_assoc]
    by_cases hcomplete : stmt.IsComplete
    · obtain ⟨taken', htaken, hstable⟩ := Statement.stable_read hr hcomplete
      obtain rfl := List.append_cancel_right htaken
      -- the comment starts with no arrow, so the statement is read as before
      have hr' := hstable (p.before ++ (Token.comment words ++ (p.ahead ++ p.behind))) <| by
        intro ha
        rw [← hsplit]
        exact ((Token.head?_insert_comment (by decide) words).1 ha).2
      rw [run_cons_done hr' hx, run_cons_done hr hx]
      exact ih fun hat => hc (hat.next hr hx)
    · obtain ⟨b, hb, hopen, rfl⟩ := Statement.exists_of_not_isComplete hr hx hcomplete
      obtain ⟨hbefore, hrest⟩ := List.append_eq_nil_iff.1 hsplit
      have hs : (run opts (tok :: (taken ++ [])) s).error? = none := by
        rw [run_cons_done hr hx, run_nil]
      rw [hbefore, hrest, ← run_append_comment hw opts _ s hs]
      simp
  | @block tok name left s stmt b p hr hb ha h ih =>
    have hinner := ih fun hat => hc (hat.block hr hb ha)
    have hinsert := run_insert_block hw opts h.append_eq hr hb (fun name' hl hf hn =>
      hc (.start hr hb hl hf (by rw [hn]))) hinner
    simpa using hinsert

/-- **Comments between statements change nothing,** unless they stand in front of a constant.
    Wherever a run over the source is about to take a statement, in a block or not, the tokens of a
    comment may be put in: the run ends with the same text or error, and with the same macros. -/
theorem ofSource_insert_comment {opts : Options} {source source' : Text} {p : Point}
    (h : Visits opts source.tokens .initial p) (hc : ¬ AtConstant opts source.tokens .initial p)
    {words : List Token} (hw : ∀ w ∈ words, Token.IsRemark w)
    (hs : source'.tokens = p.before ++ (Token.comment words ++ (p.ahead ++ p.behind))) :
    ofSource opts source' = ofSource opts source := by
  rw [ofSource, hs]
  exact h.run_insert hw hc

/-- Behind a constant, between two words of an open block in an open block. -/
theorem ofSource_insert_comment_nested :
    let opts : Options := ⟨false, false, utf8 " "⟩
    let source := utf8 "label c \x7b equ 5; \x7d $section s \x7b label n \x7b a; b;"
    let source' := utf8 "label c \x7b equ 5; \x7d $section s \x7b label n \x7b a; /* /* equ */ b;"
    let p : Point :=
      ⟨[Form.labelWord, utf8 "c", Token.lbrace, Form.equWord, utf8 "5;", Token.rbrace,
          Form.sectionWord, utf8 "s", Token.lbrace, Form.labelWord, utf8 "n", Token.lbrace,
          utf8 "a;"],
        [utf8 "b;"], [], ⟨.empty, utf8 "a\n"⟩⟩
    let words := [Form.commentOpen, Form.equWord]
    (Visits opts source.tokens .initial p ∧ ¬ AtConstant opts source.tokens .initial p ∧
      (∀ w ∈ words, Token.IsRemark w) ∧
      source'.tokens = p.before ++ (Token.comment words ++ (p.ahead ++ p.behind))) ∧
    ofSource opts source' = ofSource opts source ∧
      lower opts source = .ok (utf8 "c equ 5\nsection .s\n n:\n  a\n  b\n") := by
  intro opts source source' p words
  let constant : Block := ⟨[Form.equWord, utf8 "5;"], true⟩
  let inside : Block := ⟨[utf8 "a;", utf8 "b;"], false⟩
  let around : Block := ⟨Form.labelWord :: utf8 "n" :: Token.lbrace :: inside.tokens, false⟩
  have hp : Visits opts source.tokens .initial p := by
    have hword := @Visits.next opts (utf8 "a;") [] [utf8 "b;"] .initial ⟨.empty, utf8 "a\n"⟩
      (.word (utf8 "a") true) _ rfl rfl (.here _ _)
    have hlabel := @Visits.block opts Form.labelWord (utf8 "n") [] .initial
      (.label (utf8 "n") inside) inside _ rfl rfl nofun hword
    have hsection := @Visits.block opts Form.sectionWord (utf8 "s") []
      ⟨.empty, utf8 "c equ 5\n"⟩ (.sectionBlock (utf8 "s") around) around _ rfl rfl nofun hlabel
    have htoks : source.tokens = Form.labelWord :: (utf8 "c" :: Token.lbrace ::
        (constant.tokens ++ [Token.rbrace]) ++ (Form.sectionWord :: utf8 "s" :: Token.lbrace ::
          (around.tokens ++ around.behind []))) := by decide +kernel
    rw [htoks]
    exact @Visits.next opts Form.labelWord _ _ .initial _ (.label (utf8 "c") constant) _ rfl
      (by decide +kernel) hsection
  have hc : ¬ AtConstant opts source.tokens .initial p := by
    rintro ⟨q, name, rest, -, -, hq⟩
    have hlast : p.before.getLast? = some Token.lbrace := by rw [hq]; simp
    exact absurd hlast (by decide +kernel)
  have hw : ∀ w ∈ words, Token.IsRemark w := by
    intro w hm
    simp only [words, List.mem_cons, List.not_mem_nil, or_false] at hm
    rcases hm with rfl | rfl <;> exact ⟨by decide, by decide, by decide⟩
  have hs : source'.tokens = p.before ++ (Token.comment words ++ (p.ahead ++ p.behind)) := by
    decide +kernel
  exact ⟨⟨hp, hc, hw, hs⟩, ofSource_insert_comment hp hc hw hs,
    Ending.result_eq_ok.2 (by decide +kernel)⟩

/-- **In front of a constant a comment does change the text:** the constant becomes a label. -/
theorem insert_comment_changes_constant :
    ¬ ∀ (opts : Options) (source source' : Text) (p : Point) (words : List Token),
      Visits opts source.tokens .initial p → p.ahead.head? ≠ some Token.arrow →
      (∀ w ∈ words, Token.IsRemark w) →
      source'.tokens = p.before ++ (Token.comment words ++ (p.ahead ++ p.behind)) →
      lower opts source' = lower opts source := by
  intro h
  let opts : Options := {}
  let source := utf8 "label n \x7b equ 5; \x7d"
  let source' := utf8 "label n \x7b /* c */ equ 5; \x7d"
  let b : Block := ⟨[Form.equWord, utf8 "5;"], true⟩
  have htoks : source.tokens =
      Form.labelWord :: utf8 "n" :: Token.lbrace :: (b.tokens ++ b.behind []) := by decide +kernel
  have hr : read .empty Form.labelWord (utf8 "n" :: Token.lbrace :: (b.tokens ++ b.behind [])) =
      (.ok (.label (utf8 "n") b), []) := rfl
  have hp : Visits opts source.tokens .initial
      ⟨[Form.labelWord, utf8 "n", Token.lbrace], b.tokens, b.behind [], .initial⟩ := by
    rw [htoks]
    exact .block hr rfl (fun _ => rfl) (.here _ _)
  have hw : ∀ w ∈ [utf8 "c"], Token.IsRemark w := by
    intro w hm
    rw [List.mem_singleton.1 hm]
    exact ⟨by decide, by decide, by decide⟩
  have hl : lower opts source' = lower opts source :=
    h opts source source' _ _ hp (by decide) hw (by decide +kernel)
  have h₁ : lower opts source = .ok (utf8 "n equ 5\n") := Ending.result_eq_ok.2 (by decide +kernel)
  have h₂ : lower opts source' = .ok (utf8 "n:\nequ 5\n") :=
    Ending.result_eq_ok.2 (by decide +kernel)
  rw [h₁, h₂] at hl
  exact absurd (Except.ok.inj hl) (by decide)

end Lowering

end BlockAsm
