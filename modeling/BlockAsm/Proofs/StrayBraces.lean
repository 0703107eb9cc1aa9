/-
  BlockAsm: stray braces under strict braces.

  An error at a point of a run is the error of the whole run, with the scopes around the point in
  front of its own (`Visits.exists_trail`).  With strict braces a brace at the start of a statement
  is such an error, at whatever depth.  Two things keep it from being one: a macro that makes
  another word of the brace, and an arrow behind it, which makes it a destination.
-/
import BlockAsm.Proofs.ClosingBraces
import BlockAsm.Proofs.Points

namespace BlockAsm

/-- An error in the block of a statement is an error of the statement. -/
theorem Statement.exists_scope_of_block {opts : Options} {stmt : Statement} {b : Block} {e : Error}
    (hb : stmt.block? = some b) (ha : Admits opts b) (s : State) :
    ∃ s' scope, stmt.execute opts (.error e) s = (s', some (e.within scope)) := by
  cases stmt with
  | sectionBlock kind b' =>
    cases hb
    refine ⟨s.line (utf8 "section ." ++ kind.toLower), .sectionOf kind, ?_⟩
    simp only [execute]
    exact withBlock_error _ _ _ _ ha e
  | label name b' =>
    cases hb
    refine ⟨s, .labelOf name, ?_⟩
    simp only [execute]
    exact withBlock_error _ _ _ _ ha e
  | _ => cases hb

namespace Lowering

open Statement (read)

/-- **An error at a point of a run is the error of the run,** in more scopes if the point is in a
    block. -/
theorem Visits.exists_trail {opts : Options} {toks : List Token} {s : State} {p : Point} {e : Error}
    (h : Visits opts toks s p) (he : (run opts p.ahead p.state).error? = some e) :
    ∃ trail, (run opts toks s).error? = some ⟨trail ++ e.trail, e.fault⟩ := by
  induction h with
  | here toks s => exact ⟨[], he⟩
  | next hr hx _ ih =>
    obtain ⟨trail, ht⟩ := ih he
    rw [run_cons_done hr hx]
    exact ⟨trail, ht⟩
  | @block tok name left s stmt b p hr hb ha _ ih =>
    obtain ⟨trail, ht⟩ := ih he
    have hinner : inner opts stmt s = .error ⟨trail ++ e.trail, e.fault⟩ := by
      rw [inner, Statement.body_of_block? hb]
      exact Ending.result_eq_error.2 ht
    obtain ⟨s', scope, hx⟩ := Statement.exists_scope_of_block hb ha s
    rw [← hinner] at hx
    rw [run_cons_fail hr hx]
    exact ⟨scope :: trail, rfl⟩

/-- A strict run ends at a stray brace. -/
theorem run_stray_brace {opts : Options} (hs : opts.strict = true) {s : State} {brace : Token}
    (hb : brace.IsBrace) (hm : Token.IsBrace (s.macros.resolve brace)) {rest : List Token}
    (ha : rest.head? ≠ some Token.arrow) : (run opts (brace :: rest) s).error? =
      some (.ofFault (.strayBrace (s.macros.resolve brace))) := by
  have hx : Statement.execute opts (inner opts (.brace (s.macros.resolve brace)) s) s
      (.brace (s.macros.resolve brace)) =
        (s, some (.ofFault (.strayBrace (s.macros.resolve brace)))) := by
    rw [Statement.execute, if_pos hs]
    rfl
  rw [run_cons_fail (Statement.read_brace hb hm ha) hx]

/-- **Strict braces refuse stray ones.**  If a strict run, or one over a block in it, comes to a
    statement that starts with a brace, its macros leave a brace of it, and no arrow stands behind
    it, then the source is not lowered, and the error is about this brace. -/
theorem stray_brace_refused {opts : Options} (hs : opts.strict = true) {source : Text} {p : Point}
    (hp : Visits opts source.tokens .initial p) {brace : Token} {rest : List Token}
    (hahead : p.ahead = brace :: rest) (hb : brace.IsBrace)
    (hm : Token.IsBrace (p.state.macros.resolve brace)) (ha : rest.head? ≠ some Token.arrow) :
    ∃ e, lower opts source = .error e ∧ e.category = .structural ∧
      e.fault = .strayBrace (p.state.macros.resolve brace) := by
  have he := run_stray_brace hs hb hm ha
  rw [← hahead] at he
  obtain ⟨trail, ht⟩ := hp.exists_trail he
  exact ⟨_, Ending.result_eq_error.2 ht, rfl, rfl⟩

/-- In the block of a section, behind a word; an inherited macro makes a closing brace of it. -/
theorem stray_brace_refused_nested :
    let opts : Options := ⟨true, true, utf8 " "⟩
    let source := utf8 "$define \x7b \x7d $section s \x7b a; \x7b b \x7d \x7d"
    let macros := Macros.empty.define Token.lbrace Token.rbrace
    let rest := [utf8 "b", Token.rbrace]
    let p : Point :=
      ⟨[utf8 "$define", Token.lbrace, Token.rbrace, Form.sectionWord, utf8 "s", Token.lbrace,
          utf8 "a;"],
        Token.lbrace :: rest, [Token.rbrace], ⟨macros, utf8 "a\n"⟩⟩
    (opts.strict = true ∧ Visits opts source.tokens .initial p ∧ Token.IsBrace Token.lbrace ∧
      Token.IsBrace (macros.resolve Token.lbrace) ∧ rest.head? ≠ some Token.arrow) ∧
    ∃ e, lower opts source = .error e ∧ e.category = .structural ∧
      e.fault = .strayBrace (macros.resolve Token.lbrace) := by
  intro opts source macros rest p
  let b : Block := ⟨[utf8 "a;", Token.lbrace, utf8 "b", Token.rbrace], true⟩
  have hp : Visits opts source.tokens .initial p := by
    have hword := @Visits.next opts (utf8 "a;") [] (Token.lbrace :: rest) ⟨macros, []⟩
      ⟨macros, utf8 "a\n"⟩ (.word (utf8 "a") true) _ rfl rfl (.here _ _)
    have hsection := @Visits.block opts Form.sectionWord (utf8 "s") [] ⟨macros, []⟩
      (.sectionBlock (utf8 "s") b) b _ rfl rfl (fun _ => rfl) hword
    have htoks : source.tokens = utf8 "$define" :: ([Token.lbrace, Token.rbrace] ++
        (Form.sectionWord :: utf8 "s" :: Token.lbrace :: (b.tokens ++ b.behind []))) := by
      decide +kernel
    rw [htoks]
    exact @Visits.next opts (utf8 "$define") _ _ .initial _ (.define Token.lbrace Token.rbrace) _
      rfl rfl hsection
  have hm : Token.IsBrace (macros.resolve Token.lbrace) := by decide +kernel
  have ha : rest.head? ≠ some Token.arrow := by decide
  exact ⟨⟨rfl, hp, .inl rfl, hm, ha⟩, stray_brace_refused rfl hp rfl (.inl rfl) hm ha⟩

/-- **Some braces pass.**  Neither condition can be left out: a brace that is the name of a macro is
    replaced, and one in front of an arrow is a destination. -/
theorem stray_brace_passes :
    (¬ ∀ (opts : Options) (source : Text) (p : Point) (brace : Token) (rest : List Token),
      opts.strict = true → Visits opts source.tokens .initial p → p.ahead = brace :: rest →
      brace.IsBrace → rest.head? ≠ some Token.arrow →
        ∃ e, lower opts source = .error e ∧ e.category = .structural) ∧
    ¬ ∀ (opts : Options) (source : Text) (p : Point) (brace : Token) (rest : List Token),
      opts.strict = true → Visits opts source.tokens .initial p → p.ahead = brace :: rest →
      brace.IsBrace → p.state.macros = .empty →
        ∃ e, lower opts source = .error e ∧ e.category = .structural := by
  let opts : Options := ⟨false, true, []⟩
  have hno : ∀ {source text : Text}, lower opts source = .ok text →
      ¬ ∃ e, lower opts source = .error e ∧ e.category = .structural := by
    rintro source text ht ⟨e, he, -⟩
    rw [ht] at he
    cases he
  constructor
  · intro h
    let source := utf8 "$define \x7b x \x7b"
    have hl : lower opts source = .ok (utf8 "x") := Ending.result_eq_ok.2 (by decide +kernel)
    have htoks : source.tokens =
        utf8 "$define" :: ([Token.lbrace, utf8 "x"] ++ [Token.lbrace]) := by decide +kernel
    have hp : Visits opts source.tokens .initial
        ⟨[utf8 "$define", Token.lbrace, utf8 "x"], [Token.lbrace], [],
          ⟨Macros.empty.define Token.lbrace (utf8 "x"), []⟩⟩ := by
      rw [htoks]
      exact @Visits.next opts (utf8 "$define") _ _ .initial _ (.define Token.lbrace (utf8 "x")) _
        rfl rfl (.here _ _)
    exact hno hl (h opts source _ Token.lbrace [] rfl hp rfl (.inl rfl) (by decide))
  · intro h
    let source := utf8 "\x7b <- 5;"
    have hl : lower opts source = .ok (utf8 ", 5\n") := Ending.result_eq_ok.2 (by decide +kernel)
    have htoks : source.tokens = [Token.lbrace, Token.arrow, utf8 "5;"] := by decide +kernel
    exact hno hl (h opts source _ Token.lbrace _ rfl (.here _ _) htoks (.inl rfl) rfl)

end Lowering

end BlockAsm
