/-
  BlockAsm: what a run looks up.

  * `Statement.keys`: the names that executing a statement looks up; like the name that reading
    it looks up, each is a part of the tokens that it is read from, put together with spaces
    (`infix_of_mem_keys`), for it is in one of the texts of the statement (`Statement.terms`);
  * `execute_setMacros`: of the macros a statement sees the values of these names;
  * `run_setMacros`: so a run does not see a macro whose name is in none of its tokens.
-/
import BlockAsm.Proofs.Composition
import BlockAsm.Proofs.Lines

namespace BlockAsm

/-! ## Parts of a text -/

namespace Text

/-- What does not contain the separator is part of a text on one side of it. -/
theorem infix_or_infix {sep : UInt8} {t a b : Text} (h : t <:+: a ++ sep :: b) (hs : sep ∉ t) :
    t <:+: a ∨ t <:+: b := by
  obtain ⟨u, v, huv⟩ := h
  rcases List.append_eq_append_iff.1 huv with ⟨c, rfl, -⟩ | ⟨c, hc, hv⟩
  · exact Or.inl ⟨u, c, rfl⟩
  cases c with
  | nil => exact Or.inl ⟨u, [], by rw [hc, List.append_nil, List.append_nil]⟩
  | cons x c =>
    -- the separator stands behind `a` in `u ++ t`, and not in `t`, so `t` starts behind it
    obtain ⟨rfl, rfl⟩ := List.cons.inj hv
    rcases List.append_eq_append_iff.1 hc with ⟨d, -, rfl⟩ | ⟨d, -, hd⟩
    · simp at hs
    cases d with
    | nil => rw [List.nil_append] at hd; rw [← hd] at hs; simp at hs
    | cons y d =>
      obtain ⟨-, rfl⟩ := List.cons.inj hd
      exact Or.inr ⟨d, v, rfl⟩

theorem infix_of_mem_split {sep : UInt8} {t piece : Text} (h : piece ∈ split sep t) :
    piece <:+: t := by
  have hj := infix_join_of_mem [sep] h
  rwa [join_split] at hj

theorem infix_trim (t : Text) : t.trim <:+: t := by
  have hr : ((t.runes.dropWhile Rune.isBlank).reverse.dropWhile Rune.isBlank).reverse <:+:
      t.runes := by
    have hfront := (List.dropWhile_suffix Rune.isBlank (l := t.runes)).isInfix
    have hback := (List.dropWhile_suffix Rune.isBlank
      (l := (t.runes.dropWhile Rune.isBlank).reverse)).isInfix
    rw [← List.reverse_infix, List.reverse_reverse] at hback
    exact hback.trans hfront
  obtain ⟨front, back, h⟩ := hr
  refine ⟨front.flatMap Rune.bytes, back.flatMap Rune.bytes, ?_⟩
  have ht := flatMap_bytes_runes t
  rwa [← h, List.flatMap_append, List.flatMap_append] at ht

theorem infix_dropTerminator (t : Text) : t.dropTerminator <:+: t := by
  unfold dropTerminator dropEnd
  split
  · exact (List.dropLast_prefix t).isInfix
  · exact List.infix_refl t

end Text

namespace Token

theorem infix_unwords_of_mem {tok : Token} {toks : List Token} (h : tok ∈ toks) :
    tok <:+: unwords toks := Text.infix_join_of_mem _ h

/-- What has no space and is part of no token is not part of tokens put together. -/
theorem not_infix_unwords {t : Text} (hne : t ≠ []) (hs : Byte.space ∉ t) :
    ∀ {toks : List Token}, (∀ tok ∈ toks, ¬ t <:+: tok) → ¬ t <:+: unwords toks
  | [], _ => fun h => hne (List.infix_nil.1 h)
  | [tok], ht => ht tok (by simp)
  | tok :: tok' :: toks, ht => by
    intro h
    have hcons : unwords (tok :: tok' :: toks) = tok ++ Byte.space :: unwords (tok' :: toks) := by
      simp [unwords, Text.join]
    rw [hcons] at h
    rcases Text.infix_or_infix h hs with h | h
    · exact ht tok (by simp) h
    · exact not_infix_unwords hne hs (fun x hx => ht x (by simp [hx])) h

/-- A stretch of tokens, put together, is part of all of them, put together. -/
theorem infix_unwords {toks' toks : List Token} (h : toks' <:+: toks) :
    unwords toks' <:+: unwords toks := by
  have happend : ∀ a b : List Token,
      unwords a <:+: unwords (a ++ b) ∧ unwords b <:+: unwords (a ++ b) := by
    intro a b
    by_cases ha : a = []
    · subst ha
      exact ⟨List.nil_infix, List.infix_refl _⟩
    by_cases hb : b = []
    · subst hb
      rw [List.append_nil]
      exact ⟨List.infix_refl _, List.nil_infix⟩
    rw [unwords, unwords, unwords, Text.join_append _ ha hb]
    exact ⟨⟨[], _, (List.append_assoc ..).symm⟩, ⟨_, [], List.append_nil _⟩⟩
  obtain ⟨front, back, rfl⟩ := h
  exact (happend front toks').2.trans (happend (front ++ toks') back).1

theorem IsToken.ne_nil {t : Token} (h : IsToken t) : t ≠ [] := by
  rcases h with rfl | rfl | ⟨hne, -⟩
  · nofun
  · nofun
  · exact hne

theorem IsToken.space_not_mem {t : Token} (h : IsToken t) : Byte.space ∉ t := by
  rcases h with rfl | rfl | ⟨-, hs⟩
  · decide
  · decide
  · exact hs.not_mem (by decide)

end Token

/-! ## The names that are looked up -/

namespace Macros

/-- The name that is looked up for an operand. -/
def key (t : Text) : Text := (t.dropFront? [Byte.ampersand]).getD t

theorem infix_key (t : Text) : key t <:+: t := by
  unfold key
  cases h : t.dropFront? [Byte.ampersand] with
  | none => exact List.infix_refl t
  | some name =>
    rw [Text.dropFront?_eq_some_iff.1 h]
    exact (List.suffix_append _ _).isInfix

section
variable {m m' : Macros} {t : Text}

theorem resolve_congr (h : m.lookup? t = m'.lookup? t) : m.resolve t = m'.resolve t := by
  rw [resolve, resolve, h]

theorem resolveOperand_congr (h : m.lookup? (key t) = m'.lookup? (key t)) :
    m.resolveOperand t = m'.resolveOperand t := by
  unfold key at h
  unfold resolveOperand
  cases ht : t.dropFront? [Byte.ampersand] with
  | none => rw [ht] at h; exact resolve_congr h
  | some name => rw [ht] at h; exact congrArg _ (resolve_congr h)

end

/-- The tables have the same values for all names but one. -/
def AgreeOff (name : Text) (m m' : Macros) : Prop :=
  ∀ other, other ≠ name → m.lookup? other = m'.lookup? other

theorem AgreeOff.redefine {name : Text} {m m' : Macros} (h : AgreeOff name m m')
    (stmt : Statement) : AgreeOff name (stmt.redefine m) (stmt.redefine m') := by
  intro other ho
  cases stmt with
  | define n value => simp only [Statement.redefine, lookup?_define, h other ho]
  | undefine n => simp only [Statement.redefine, lookup?_undefine, h other ho]
  | _ => exact h other ho

end Macros

namespace State

/-- The state with other macros. -/
def setMacros (m : Macros) (s : State) : State := { s with macros := m }

theorem pushAll_setMacros {m : Macros} {args : List Text} : ∀ {s : State},
    (∀ arg ∈ args, m.lookup? (Macros.key arg) = s.macros.lookup? (Macros.key arg)) →
      (s.setMacros m).pushAll args = ((s.pushAll args).1.setMacros m, (s.pushAll args).2) := by
  induction args with
  | nil => intro s _; rfl
  | cons arg args ih =>
    intro s h
    have harg : m.resolveOperand arg = s.macros.resolveOperand arg :=
      Macros.resolveOperand_congr (h arg (by simp))
    have hm : (s.setMacros m).macros = m := rfl
    rw [pushAll, pushAll, hm, harg]
    cases Operand.lower (s.macros.resolveOperand arg) with
    | ok op => exact @ih (s.line (utf8 "push " ++ op)) fun x hx => h x (by simp [hx])
    | error f => rfl

end State

namespace Statement

/-- The texts of the statement that a macro may replace in executing it. -/
def terms : Statement → List Text
  | move dest src => [dest, src]
  | call name args => name :: args
  | _ => []

/-- The names that executing the statement looks up. -/
def keys : Statement → List Text
  | move dest src => [dest, Macros.key src]
  | call name args => name :: args.map Macros.key
  | _ => []

theorem exists_term_of_mem_keys {stmt : Statement} {k : Text} (h : k ∈ stmt.keys) :
    ∃ t ∈ stmt.terms, k <:+: t := by
  cases stmt with
  | move dest src =>
    simp only [keys, List.mem_cons, List.not_mem_nil, or_false] at h
    rcases h with rfl | rfl
    · exact ⟨k, by simp [terms], List.infix_refl k⟩
    · exact ⟨src, by simp [terms], Macros.infix_key src⟩
  | call name args =>
    rcases List.mem_cons.1 h with rfl | h
    · exact ⟨k, by simp [terms], List.infix_refl k⟩
    · obtain ⟨arg, harg, rfl⟩ := List.mem_map.1 h
      exact ⟨arg, by simp [terms, harg], Macros.infix_key arg⟩
  | _ => cases h

theorem infix_of_parse? {text name : Text} {args : List Text}
    (h : Call.parse? text = some (name, args)) : name <:+: text ∧ ∀ arg ∈ args, arg <:+: text := by
  simp only [Call.parse?, Option.bind_eq_bind, Option.bind_eq_some_iff, Prod.exists,
    Option.some.injEq, Prod.mk.injEq] at h
  obtain ⟨front, behind, hfirst, inside, back, hlast, rfl, rfl⟩ := h
  obtain ⟨rfl, -⟩ := Text.eq_of_cutFirst? hfirst
  obtain ⟨rfl, -⟩ := Text.eq_of_cutLast? hlast
  refine ⟨(List.prefix_append _ _).isInfix, fun arg harg => ?_⟩
  obtain ⟨piece, hpiece, rfl⟩ := List.mem_map.1 (List.mem_filter.1 harg).1
  refine ((Text.infix_trim piece).trans (Text.infix_of_mem_split hpiece)).trans ?_
  exact ⟨front ++ [Byte.lparen], Byte.rparen :: back, by simp⟩

section
variable {rest left : List Token} {stmt : Statement}

theorem infix_of_mem_terms_readMove (h : readMove rest = (.ok stmt, left)) :
    ∀ t ∈ stmt.terms, t <:+: Token.unwords rest := by
  unfold readMove missingOperand at h
  split at h
  · rename_i dest arrow src behind
    cases h
    have hsrc : src <:+: Token.unwords (dest :: arrow :: src :: left) :=
      Token.infix_unwords_of_mem (by simp)
    intro t ht
    simp only [terms, List.mem_cons, List.not_mem_nil, or_false] at ht
    rcases ht with rfl | rfl
    · exact Token.infix_unwords_of_mem (by simp)
    · exact (Text.infix_dropTerminator src).trans hsrc
  · cases h

theorem infix_of_mem_terms_readCall {tok : Token} (h : readCall tok rest = (.ok stmt, left)) :
    ∀ t ∈ stmt.terms, t <:+: Token.unwords (tok :: rest) := by
  unfold readCall at h
  split at h
  · rename_i taken left' hu
    unfold ofCallText at h
    cases hp : Call.parse? (Token.unwords taken) with
    | none => rw [hp] at h; cases h
    | some p =>
      obtain ⟨name, args⟩ := p
      rw [hp] at h
      cases h
      rw [← Token.append_of_upTo hu]
      obtain ⟨hname, hargs⟩ := infix_of_parse? hp
      have htaken : Token.unwords taken <:+: Token.unwords (taken ++ left) :=
        Token.infix_unwords (List.prefix_append taken left).isInfix
      intro t ht
      rcases List.mem_cons.1 ht with rfl | ht
      · exact hname.trans htaken
      · exact (hargs t ht).trans htaken
  · cases h

end

/-- A move is read as one, whether a directive or a word stands for it. -/
theorem readMove_of_read {m : Macros} {tok : Token} {rest left : List Token} {stmt : Statement}
    (h : read m tok rest = (.ok stmt, left)) (hf : stmt.form = .move) :
    readMove rest = (.ok stmt, left) := by
  rcases form_of_read h with he | ⟨-, he⟩
  · rw [hf] at he
    simpa only [read, ← he] using h
  · simp only [read, he] at h
    by_cases hm : m.resolveOperand tok.dropTerminator = Form.moveWord ∧ ¬ tok.isTerminated
    · rwa [readGeneric_move rest hm] at h
    · by_cases ha : rest.head? = some Token.arrow
      · obtain ⟨behind, rfl⟩ := List.head?_eq_some_iff.1 ha
        rw [readGeneric_arrow hm] at h
        cases h
        cases hf
      · rw [readGeneric_word hm ha] at h
        cases h
        rw [form_ofCore] at hf
        cases hf

theorem readCall_of_read {m : Macros} {tok : Token} {rest left : List Token} {stmt : Statement}
    (h : read m tok rest = (.ok stmt, left)) (hf : stmt.form = .call) :
    readCall tok rest = (.ok stmt, left) := by
  have he := (form_of_read h).resolve_right fun hm => nomatch hf.symm.trans hm.1
  rw [hf] at he
  simpa only [read, ← he] using h

/-- What a macro may replace is part of the tokens of the statement, put together. -/
theorem infix_of_mem_terms {m : Macros} {tok : Token} {rest left : List Token} {stmt : Statement}
    (h : read m tok rest = (.ok stmt, left)) :
    ∀ t ∈ stmt.terms, t <:+: Token.unwords (tok :: rest) := by
  cases stmt with
  | move dest src =>
    have hm := infix_of_mem_terms_readMove (readMove_of_read h rfl)
    exact fun t ht => (hm t ht).trans (Token.infix_unwords (List.suffix_cons tok rest).isInfix)
  | call name args => exact infix_of_mem_terms_readCall (readCall_of_read h rfl)
  | _ => exact nofun

/-- The names that a statement looks up are parts of its tokens, put together. -/
theorem infix_of_mem_keys {m : Macros} {tok : Token} {rest left : List Token} {stmt : Statement}
    (h : read m tok rest = (.ok stmt, left)) :
    ∀ k ∈ stmt.keys, k <:+: Token.unwords (tok :: rest) := by
  intro k hk
  obtain ⟨t, ht, hin⟩ := exists_term_of_mem_keys hk
  exact hin.trans (infix_of_mem_terms h t ht)

/-- Reading a statement looks up its first token. -/
theorem read_congr {m m' : Macros} {tok : Token}
    (h : m.lookup? (Macros.key tok.dropTerminator) = m'.lookup? (Macros.key tok.dropTerminator))
    (rest : List Token) : read m tok rest = read m' tok rest := by
  unfold read readGeneric
  rw [Macros.resolveOperand_congr h]

/-- Of the macros, a statement sees the values of its names. -/
theorem execute_setMacros {m : Macros} {s : State} {stmt : Statement}
    (h : ∀ k ∈ stmt.keys, m.lookup? k = s.macros.lookup? k) (opts : Options)
    (r : Except Error Text) :
    stmt.execute opts r (s.setMacros m) =
      Effect.map (State.setMacros (stmt.redefine m)) (stmt.execute opts r s) := by
  cases stmt with
  | sectionBlock kind b =>
    exact withBlock_map (s.line _) _ _ (fun text => (s.line _).splice opts text)
      (State.setMacros m) opts b r
  | label name b =>
    have hnext : ∀ text : Text, (if b.first? = some Form.equWord then
          (s.setMacros m).line (name ++ utf8 " " ++ text.dropEnd Byte.newline)
        else ((s.setMacros m).line (name ++ utf8 ":")).splice opts text) =
        State.setMacros m (if b.first? = some Form.equWord then
          s.line (name ++ utf8 " " ++ text.dropEnd Byte.newline)
        else (s.line (name ++ utf8 ":")).splice opts text) := by
      intro text
      split <;> rfl
    simp only [execute, hnext]
    exact withBlock_map s _ _ _ (State.setMacros m) opts b r
  | move dest src =>
    have hdest : m.resolve dest = s.macros.resolve dest :=
      Macros.resolve_congr (h dest (by simp [keys]))
    have hsrc : m.resolveOperand src = s.macros.resolveOperand src :=
      Macros.resolveOperand_congr (h _ (by simp [keys]))
    have hm : (s.setMacros m).macros = m := rfl
    simp only [execute, hm, hdest, hsrc]
    cases Operand.lower (s.macros.resolveOperand src) <;> rfl
  | call name args =>
    have hname : m.resolve name = s.macros.resolve name :=
      Macros.resolve_congr (h name (by simp [keys]))
    have hpush : (s.setMacros m).pushAll args.reverse = _ := State.pushAll_setMacros fun arg harg =>
      h _ (List.mem_cons_of_mem _ (List.mem_map_of_mem (List.mem_reverse.1 harg)))
    simp only [execute, hpush]
    rcases hp : s.pushAll args.reverse with ⟨s', _ | f⟩
    · have hm : s'.macros = s.macros := by
        have := macros_pushAll args.reverse s
        rwa [hp] at this
      simp only [Effect.map, State.line, State.setMacros, hname, hm, done, redefine]
    · rfl
  | brace core => simp only [execute]; split <;> rfl
  | word core terminated => simp only [execute]; cases Operand.lower core <;> rfl
  | _ => rfl

end Statement

/-! ## Runs -/

namespace Lowering

/-- The endings are the same, except for the value of a name. -/
structure EndingsAgreeOff (name : Text) (e e' : Ending) : Prop where
  rest : e.rest = e'.rest
  out : e.state.out = e'.state.out
  error : e.error? = e'.error?
  macros : Macros.AgreeOff name e.state.macros e'.state.macros

theorem EndingsAgreeOff.result {name : Text} {e e' : Ending} (h : EndingsAgreeOff name e e') :
    e.result = e'.result := by
  rw [Ending.result, Ending.result, h.error, h.out]

theorem agreeOff_child {name : Text} {m : Macros} {s : State} (h : Macros.AgreeOff name m s.macros)
    (opts : Options) : ∃ m', (s.setMacros m).child opts = (s.child opts).setMacros m' ∧
      Macros.AgreeOff name m' (s.child opts).macros := by
  refine ⟨((s.setMacros m).child opts).macros, rfl, ?_⟩
  unfold State.child
  split
  · exact h
  · exact fun _ _ => rfl

/-- **A run does not see a macro whose name is part of none of its tokens.** -/
theorem run_setMacros {name : Text} (hne : name ≠ []) (hspace : Byte.space ∉ name)
    (opts : Options) (toks : List Token) : (∀ t ∈ toks, ¬ name <:+: t) → ∀ (s : State) (m : Macros),
      Macros.AgreeOff name m s.macros →
        EndingsAgreeOff name (run opts toks (s.setMacros m)) (run opts toks s) := by
  induction toks using reading_induction with
  | nil =>
    intro _ s m h
    rw [run_nil, run_nil]
    exact ⟨rfl, rfl, rfl, h⟩
  | cons tok rest ih =>
    intro ht s m h
    have hread : Statement.read m tok rest = Statement.read s.macros tok rest := by
      refine Statement.read_congr (h _ ?_) rest
      rintro rfl
      exact ht tok (by simp) ((Macros.infix_key _).trans (Text.infix_dropTerminator tok))
    rcases hr : Statement.read s.macros tok rest with ⟨e | stmt, left⟩
    · rw [run_cons_error hr, @run_cons_error _ _ _ _ (s.setMacros m) _ (hread.trans hr)]
      exact ⟨rfl, rfl, rfl, h⟩
    obtain ⟨hbody, hleft⟩ := ih _ _ _ hr
    obtain ⟨htleft, htbody⟩ := Statement.forall_mem_of_read hr ht
    have hinner : inner opts stmt (s.setMacros m) = inner opts stmt s := by
      obtain ⟨m', hm', hagree⟩ := agreeOff_child h opts
      rw [inner, hm']
      exact (hbody htbody _ m' hagree).result
    have hkeys : ∀ k ∈ stmt.keys, m.lookup? k = s.macros.lookup? k := by
      intro k hk
      refine h k ?_
      rintro rfl
      exact Token.not_infix_unwords hne hspace ht (Statement.infix_of_mem_keys hr k hk)
    have hx := Statement.execute_setMacros hkeys opts (inner opts stmt s)
    have hmacros := Statement.macros_execute opts (inner opts stmt s) s stmt
    have hagree := h.redefine stmt
    rcases he : stmt.execute opts (inner opts stmt s) s with ⟨s', _ | e⟩
    · rw [he] at hx hmacros
      rw [run_cons_done hr he, @run_cons_done _ _ _ _ (s.setMacros m) _ _ (hread.trans hr)
        (by rw [hinner, hx]; rfl)]
      exact hleft htleft s' _ (hmacros ▸ hagree)
    · rw [he] at hx hmacros
      rw [run_cons_fail hr he, @run_cons_fail _ _ _ _ (s.setMacros m) _ _ _ (hread.trans hr)
        (by rw [hinner, hx]; rfl)]
      exact ⟨rfl, rfl, rfl, hmacros ▸ hagree⟩

/-- **An unused macro is invisible.**  If strict braces accept what stands in front of a definition,
    and its name is part of no token behind it, the source is lowered as without the definition, to
    the same text or with the same error, and all other names have the same values in the end. -/
theorem unused_macro_invisible {opts : Options} {before behind source source' : Text}
    {name value : Token} (hbefore : (ofSource opts.toStrict before).error? = none)
    (harrow : behind.tokens.head? ≠ some Token.arrow)
    (hunused : ∀ t ∈ behind.tokens, ¬ name <:+: t)
    (hs : source.tokens = before.tokens ++ behind.tokens)
    (hs' : source'.tokens = before.tokens ++ utf8 "$define" :: name :: value :: behind.tokens) :
    lower opts source' = lower opts source ∧ ∀ other, other ≠ name →
      (ofSource opts source').state.macros.lookup? other =
        (ofSource opts source).state.macros.lookup? other := by
  have hname : Token.IsToken name := Token.isToken_of_mem_tokens (by rw [hs']; simp)
  let s := (ofSource opts.toStrict before).state
  let m := s.macros.define name value.dropTerminator
  have hrun : ofSource opts source = run opts behind.tokens s := by
    rw [ofSource, hs]
    exact run_append harrow before.tokens .initial hbefore
  have hrun' : ofSource opts source' = run opts behind.tokens (s.setMacros m) := by
    have hword : (utf8 "$define" :: name :: value :: behind.tokens).head? ≠ some Token.arrow :=
      fun h => absurd (Option.some.inj h) (by decide)
    rw [ofSource, hs', run_append hword before.tokens .initial hbefore]
    exact run_cons_done (Statement.read_define s.macros name value behind.tokens) rfl
  have hm : Macros.AgreeOff name m s.macros := by
    intro other ho
    rw [Macros.lookup?_define, if_neg ho]
  have hends := run_setMacros hname.ne_nil hname.space_not_mem opts behind.tokens hunused s m hm
  rw [← hrun, ← hrun'] at hends
  exact ⟨hends.result, hends.macros⟩

/-- The name has a value already, and behind its second definition stand words, a move and a call in
    an inheriting block, with names and an argument that are like it. -/
theorem unused_macro_invisible_nested :
    let opts : Options := ⟨true, false, utf8 " "⟩
    let before := utf8 "$define A 1; $define NN 2; x NN;"
    let behind := utf8 "A &A; $section s \x7b move A <- &N; f( N &A, N); \x7d $define B N"
    let source := before ++ utf8 " " ++ behind
    let source' := before ++ utf8 " $define NN A; " ++ behind
    let text := utf8 "x 2\n1 [1]\nsection .s\n mov 1, [N]\n push N\n push N &A\n call f\n"
    ((ofSource opts.toStrict before).error? = none ∧ behind.tokens.head? ≠ some Token.arrow ∧
      (∀ t ∈ behind.tokens, ¬ utf8 "NN" <:+: t) ∧
      source.tokens = before.tokens ++ behind.tokens ∧
      source'.tokens =
        before.tokens ++ utf8 "$define" :: utf8 "NN" :: utf8 "A;" :: behind.tokens) ∧
    (lower opts source' = lower opts source ∧ ∀ other, other ≠ utf8 "NN" →
      (ofSource opts source').state.macros.lookup? other =
        (ofSource opts source).state.macros.lookup? other) ∧
    lower opts source = .ok text := by
  intro opts before behind source source' text
  have hbefore : (ofSource opts.toStrict before).error? = none := by decide +kernel
  have harrow : behind.tokens.head? ≠ some Token.arrow := by decide +kernel
  have hunused : ∀ t ∈ behind.tokens, ¬ utf8 "NN" <:+: t := by decide +kernel
  have hs : source.tokens = before.tokens ++ behind.tokens := by decide +kernel
  have hs' : source'.tokens =
      before.tokens ++ utf8 "$define" :: utf8 "NN" :: utf8 "A;" :: behind.tokens := by
    decide +kernel
  have ht : lower opts source = .ok text := Ending.result_eq_ok.2 (by decide +kernel)
  exact ⟨⟨hbefore, harrow, hunused, hs, hs'⟩,
    unused_macro_invisible hbefore harrow hunused hs hs', ht⟩

end Lowering

end BlockAsm
