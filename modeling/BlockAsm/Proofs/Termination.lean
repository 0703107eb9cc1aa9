/-
  BlockAsm: lowering ends, and its runs are nested no deeper than braces.

  * `Token.nest`: how deep the braces of some tokens are nested, which is the largest surplus of
    opening braces in a stretch of them (`isGreatest_nest`); it falls with every block
    (`nest_add_one_le`);
  * `Evaluates`: lowering by rules, where the block of a statement is written out and cut into
    tokens again; the rules always lead to one ending, that of the run (`evaluates_run`,
    `Evaluates.eq_run`);
  * `Active`: the runs that the lowering of a source is made of, at every moment, with their
    depth; the deeper a run is, the less deep are its braces (`Active.inv`).
-/
import BlockAsm.Proofs.Nesting
import BlockAsm.Proofs.Tokens
import Mathlib.Data.List.Infix
import Mathlib.Order.Bounds.Basic

namespace BlockAsm

/-! ## The nesting of braces -/

namespace Token

/-- How many more braces open than close. -/
def surplus (toks : List Token) : Int := toks.count lbrace - toks.count rbrace

/-- All stretches of the tokens. -/
def segments (toks : List Token) : List (List Token) := toks.tails.flatMap List.inits

/-- The largest surplus of a stretch of the tokens. -/
def nest (toks : List Token) : Int := ((segments toks).map surplus).max?.getD 0

theorem mem_segments {seg toks : List Token} : seg ∈ segments toks ↔ seg <:+: toks := by
  simp only [segments, List.mem_flatMap, List.mem_tails, List.mem_inits]
  constructor
  · rintro ⟨t, hsuf, hpre⟩
    exact hpre.isInfix.trans hsuf.isInfix
  · intro h
    obtain ⟨t, hpre, hsuf⟩ := List.infix_iff_prefix_suffix.1 h
    exact ⟨t, hsuf, hpre⟩

/-- The nesting is the largest surplus of a segment. -/
theorem isGreatest_nest (toks : List Token) :
    IsGreatest {n | ∃ seg, seg <:+: toks ∧ surplus seg = n} (nest toks) := by
  have hmem : ∀ n, n ∈ (segments toks).map surplus ↔ ∃ seg, seg <:+: toks ∧ surplus seg = n := by
    intro n
    simp only [List.mem_map, mem_segments]
  have hne : (segments toks).map surplus ≠ [] := by
    intro h
    have h0 := (hmem 0).2 ⟨[], List.nil_infix, rfl⟩
    rw [h] at h0
    cases h0
  obtain ⟨n, hn⟩ := Option.isSome_iff_exists.1 (List.isSome_max?_of_ne_nil hne)
  obtain ⟨hin, hmax⟩ := List.max?_eq_some_iff.1 hn
  have hnest : nest toks = n := by rw [nest, hn]; rfl
  rw [hnest]
  exact ⟨(hmem n).1 hin, fun k hk => hmax k ((hmem k).2 hk)⟩

theorem nest_nonneg (toks : List Token) : 0 ≤ nest toks :=
  (isGreatest_nest toks).2 ⟨[], List.nil_infix, rfl⟩

theorem surplus_append (toks toks' : List Token) :
    surplus (toks ++ toks') = surplus toks + surplus toks' := by
  simp only [surplus, List.count_append]
  omega

theorem surplus_lbrace (toks : List Token) : surplus (lbrace :: toks) = surplus toks + 1 := by
  have hr : List.count rbrace (lbrace :: toks) = List.count rbrace toks :=
    List.count_cons_of_ne (by decide)
  simp only [surplus, hr, List.count_cons_self]
  omega

theorem surplus_rbrace (toks : List Token) : surplus (rbrace :: toks) = surplus toks - 1 := by
  have hl : List.count lbrace (rbrace :: toks) = List.count lbrace toks :=
    List.count_cons_of_ne (by decide)
  simp only [surplus, hl, List.count_cons_self]
  omega

theorem surplus_cons {tok : Token} (hl : tok ≠ lbrace) (hr : tok ≠ rbrace) (toks : List Token) :
    surplus (tok :: toks) = surplus toks := by
  simp only [surplus, List.count_cons_of_ne hl, List.count_cons_of_ne hr]

/-- Braces that are open behind the tokens were open in front of them, or are of their surplus. -/
theorem add_surplus_of_depth? : ∀ {toks : List Token} {depth depth' : Nat},
    depth? depth toks = some depth' → depth + surplus toks = depth'
  | [], depth, _, h => by cases h; simp [surplus]
  | tok :: toks, depth, depth', h => by
    by_cases hl : tok = lbrace
    · subst hl
      rw [depth?_lbrace] at h
      have ih := add_surplus_of_depth? h
      rw [surplus_lbrace]
      omega
    · by_cases hr : tok = rbrace
      · subst hr
        cases depth with
        | zero => cases h
        | succ depth =>
          rw [depth?_rbrace_succ] at h
          have ih := add_surplus_of_depth? h
          rw [surplus_rbrace]
          omega
      · rw [depth?_cons _ _ hl hr] at h
        rw [surplus_cons hl hr]
        exact add_surplus_of_depth? h

theorem surplus_nonneg_of_depth? {toks front : List Token} {depth depth' : Nat}
    (h : depth? depth toks = some depth') (hf : front <+: toks) : 0 ≤ depth + surplus front := by
  obtain ⟨back, rfl⟩ := hf
  rw [depth?_append] at h
  obtain ⟨d, hd, -⟩ := Option.bind_eq_some_iff.1 h
  have := add_surplus_of_depth? hd
  omega

end Token

/-- In front of any place in a block at least as many braces have opened as closed. -/
theorem Block.IsFormed.surplus_nonneg {b : Block} (h : b.IsFormed) {front : List Token}
    (hf : front <+: b.tokens) : 0 ≤ Token.surplus front := by
  obtain ⟨depth, hd, -⟩ := h
  simpa using Token.surplus_nonneg_of_depth? hd hf

/-- **A block is nested less deep** than the tokens that it stands in with its opening brace. -/
theorem Block.IsFormed.nest_add_one_le {b : Block} (h : b.IsFormed) {toks : List Token}
    (ht : Token.lbrace :: b.tokens <:+: toks) : Token.nest b.tokens + 1 ≤ Token.nest toks := by
  obtain ⟨seg, ⟨front, back, hseg⟩, hnest⟩ := (Token.isGreatest_nest b.tokens).1
  have hfront : 0 ≤ Token.surplus front :=
    h.surplus_nonneg ⟨seg ++ back, by rw [← hseg, List.append_assoc]⟩
  -- the deepest stretch of the block, lengthened to its opening brace
  have hin : Token.lbrace :: (front ++ seg) <:+: toks :=
    List.IsInfix.trans ⟨[], back, by simp [← hseg]⟩ ht
  have hle := (Token.isGreatest_nest toks).2 ⟨_, hin, rfl⟩
  rw [Token.surplus_lbrace, Token.surplus_append] at hle
  omega

/-! ## Lowering by rules -/

namespace Lowering

open Statement (read)

/-- Where a run over the tokens ends.  The block of a statement is put together with spaces, and a
    run over the tokens of that text comes first; where there is no block there are no tokens. -/
inductive Evaluates (opts : Options) : List Token → State → Ending → Prop
  | done (s : State) : Evaluates opts [] s ⟨[], s, none⟩
  | unread {tok : Token} {rest left : List Token} {s : State} {e : Error}
      (hr : read s.macros tok rest = (.error e, left)) :
      Evaluates opts (tok :: rest) s ⟨left, s, some e⟩
  | fail {tok : Token} {rest left : List Token} {s s' : State} {stmt : Statement} {e : Error}
      {block : Ending} (hr : read s.macros tok rest = (.ok stmt, left))
      (hb : Evaluates opts (Token.unwords stmt.body).tokens (s.child opts) block)
      (hx : stmt.execute opts block.result s = (s', some e)) :
      Evaluates opts (tok :: rest) s ⟨left, s', some e⟩
  | next {tok : Token} {rest left : List Token} {s s' : State} {stmt : Statement}
      {block ending : Ending} (hr : read s.macros tok rest = (.ok stmt, left))
      (hb : Evaluates opts (Token.unwords stmt.body).tokens (s.child opts) block)
      (hx : stmt.execute opts block.result s = (s', none)) (h : Evaluates opts left s' ending) :
      Evaluates opts (tok :: rest) s ending

/-- Where the rules lead is where the run ends. -/
theorem Evaluates.eq_run {opts : Options} {toks : List Token} {s : State} {ending : Ending}
    (h : Evaluates opts toks s ending) :
    (∀ t ∈ toks, Token.IsToken t) → ending = run opts toks s := by
  induction h with
  | done s => intro _; rw [run_nil]
  | unread hr => intro _; rw [run_cons_error hr]
  | fail hr hb hx ih =>
    intro ht
    have hbody := (Statement.forall_mem_of_read hr ht).2
    rw [Token.tokens_unwords hbody] at ih
    rw [ih hbody] at hx
    rw [run_cons_fail hr hx]
  | next hr hb hx h ihb ih =>
    intro ht
    obtain ⟨hleft, hbody⟩ := Statement.forall_mem_of_read hr ht
    rw [Token.tokens_unwords hbody] at ihb
    rw [ihb hbody] at hx
    rw [run_cons_done hr hx]
    exact ih hleft

/-- The rules always lead somewhere: to where the run ends. -/
theorem evaluates_run {opts : Options} (toks : List Token) : (∀ t ∈ toks, Token.IsToken t) →
    ∀ s : State, Evaluates opts toks s (run opts toks s) := by
  induction toks using reading_induction with
  | nil => intro _ s; rw [run_nil]; exact .done s
  | cons tok rest ih =>
    intro ht s
    rcases run_cons_cases opts tok rest s with ⟨e, left, hr⟩ | ⟨stmt, left, hr, hx⟩
    · rw [run_cons_error hr]
      exact .unread hr
    obtain ⟨hbody, hleft⟩ := ih _ _ _ hr
    obtain ⟨htleft, htbody⟩ := Statement.forall_mem_of_read hr ht
    have hblock : Evaluates opts (Token.unwords stmt.body).tokens (s.child opts)
        (run opts stmt.body (s.child opts)) := by
      rw [Token.tokens_unwords htbody]
      exact hbody htbody (s.child opts)
    rcases hx with ⟨s', e, hx⟩ | ⟨s', hx⟩
    · rw [run_cons_fail hr hx]
      exact .fail hr hblock hx
    · rw [run_cons_done hr hx]
      exact .next hr hblock hx (hleft htleft s')

/-! ## The runs of a lowering -/

/-- A run under way. -/
structure Activation where
  /-- how many runs it is inside of -/
  depth : Nat
  /-- all its tokens -/
  source : List Token
  /-- the tokens that it has still to take -/
  rest : List Token
  state : State

/-- The run over a whole source, at its start. -/
def Activation.root (source : Text) : Activation := ⟨0, source.tokens, source.tokens, .initial⟩

/-- The run takes a statement and goes on. -/
inductive Activation.Next (opts : Options) : Activation → Activation → Prop
  | mk {a : Activation} {tok : Token} {rest left : List Token} {stmt : Statement} {s' : State}
      (ha : a.rest = tok :: rest) (hr : read a.state.macros tok rest = (.ok stmt, left))
      (hx : stmt.execute opts (inner opts stmt a.state) a.state = (s', none)) :
      Next opts a { a with rest := left, state := s' }

/-- The run starts another one over the text of a block. -/
inductive Activation.Starts (opts : Options) : Activation → Activation → Prop
  | mk {a : Activation} {tok : Token} {rest left : List Token} {stmt : Statement} {b : Block}
      (ha : a.rest = tok :: rest) (hr : read a.state.macros tok rest = (.ok stmt, left))
      (hb : stmt.block? = some b) (hp : Statement.Admits opts b) :
      Starts opts a ⟨a.depth + 1, b.text.tokens, b.text.tokens, a.state.child opts⟩

/-- The runs that lowering a source is made of, at every moment. -/
inductive Active (opts : Options) (source : Text) : Activation → Prop
  | root : Active opts source (.root source)
  | next {a a' : Activation} (h : Active opts source a) (hn : a.Next opts a') :
      Active opts source a'
  | starts {a a' : Activation} (h : Active opts source a) (hs : a.Starts opts a') :
      Active opts source a'

/-- What holds of the runs of a lowering: they run over tokens, and the deeper they are, the less
    deep are their braces. -/
structure Activation.Inv (source : Text) (a : Activation) : Prop where
  isToken : ∀ t ∈ a.source, Token.IsToken t
  suffix : a.rest <:+ a.source
  depth_add_nest_le : a.depth + Token.nest a.source ≤ Token.nest source.tokens

namespace Activation

variable {opts : Options} {source : Text} {a a' : Activation}

theorem Inv.root (source : Text) : (Activation.root source).Inv source where
  isToken _ := Token.isToken_of_mem_tokens
  suffix := List.suffix_refl _
  depth_add_nest_le := by simp [Activation.root]

theorem Inv.next (h : a.Inv source) (hn : a.Next opts a') : a'.Inv source := by
  obtain @⟨tok, rest, left, stmt, s', ha, hr, -⟩ := hn
  refine ⟨h.isToken, ?_, h.depth_add_nest_le⟩
  have hsuf := (Statement.suffix_of_read hr).trans (List.suffix_cons tok rest)
  rw [← ha] at hsuf
  exact hsuf.trans h.suffix

/-- A block is read again from its text as it is, behind its opening brace. -/
theorem Inv.exists_block (h : a.Inv source) (hs : a.Starts opts a') :
    ∃ b : Block, b.IsFormed ∧ Token.lbrace :: b.tokens <:+: a.source ∧ a'.source = b.tokens ∧
      a'.rest = b.tokens ∧ a'.depth = a.depth + 1 := by
  obtain @⟨tok, rest, left, stmt, b, ha, hr, hb, -⟩ := hs
  obtain ⟨name, behind, rfl, hread, -⟩ := Statement.exists_of_read_block hr hb
  obtain ⟨rfl, hformed, -⟩ := Block.read_eq_ok_iff.1 hread
  have hin : Token.lbrace :: b.tokens <:+: a.source := by
    refine List.IsInfix.trans ?_ h.suffix.isInfix
    rw [ha]
    exact ⟨[tok, name], b.behind left, by simp⟩
  have htokens : b.text.tokens = b.tokens := Token.tokens_unwords fun t ht =>
    h.isToken t (hin.subset (List.mem_cons_of_mem _ ht))
  exact ⟨b, hformed, hin, htokens, htokens, rfl⟩

theorem Inv.starts (h : a.Inv source) (hs : a.Starts opts a') : a'.Inv source := by
  obtain ⟨b, hformed, hin, hsource, hrest, hdepth⟩ := h.exists_block hs
  have hnest := hformed.nest_add_one_le hin
  have hle := h.depth_add_nest_le
  refine ⟨fun t ht => ?_, by rw [hrest, hsource], by rw [hdepth, hsource]; omega⟩
  rw [hsource] at ht
  exact h.isToken t (hin.subset (List.mem_cons_of_mem _ ht))

end Activation

theorem Active.inv {opts : Options} {source : Text} {a : Activation} (h : Active opts source a) :
    a.Inv source := by
  induction h with
  | root => exact .root source
  | next _ hn ih => exact ih.next hn
  | starts _ hs ih => exact ih.starts hs

/-- **Lowering ends, in runs that are nested no deeper than the braces.**  The rules lead from every
    source to one ending.  On the way, every run that is active takes a token with each statement,
    whether it fails or not, runs over fewer tokens than the run that started it, and is no deeper
    than the braces of the source are nested. -/
theorem lowering_terminates (opts : Options) (source : Text) :
    (∀ ending, Evaluates opts source.tokens .initial ending ↔ ending = ofSource opts source) ∧
    ∀ a, Active opts source a →
      (∀ tok rest, a.rest = tok :: rest →
        (read a.state.macros tok rest).2.length < a.rest.length) ∧
      (∀ a', a.Starts opts a' → a'.source.length < a.source.length) ∧
      a.depth ≤ Token.nest source.tokens := by
  have htokens : ∀ t ∈ source.tokens, Token.IsToken t := fun _ => Token.isToken_of_mem_tokens
  refine ⟨fun ending => ⟨fun h => h.eq_run htokens, ?_⟩, fun a h => ⟨?_, ?_, ?_⟩⟩
  · rintro rfl
    exact evaluates_run source.tokens htokens .initial
  · intro tok rest hrest
    have hle := (Statement.suffix_read a.state.macros tok rest).length_le
    rw [hrest, List.length_cons]
    omega
  · intro a' hs
    obtain ⟨b, -, hin, hsource, -, -⟩ := h.inv.exists_block hs
    have hle := hin.length_le
    rw [List.length_cons] at hle
    rw [hsource]
    omega
  · have hle := h.inv.depth_add_nest_le
    have h0 := Token.nest_nonneg a.source
    omega

/-- The run over the block of a label in the block of a section is two runs deep, and no braces of
    the source are nested deeper. -/
theorem lowering_terminates_nested :
    let opts : Options := ⟨false, true, []⟩
    let source := utf8 "$section s \x7b x; label n \x7b y; \x7d \x7d \x7d \x7b z \x7b"
    let a : Activation := ⟨2, [utf8 "y;"], [utf8 "y;"], .initial⟩
    (Active opts source a ∧ Token.nest source.tokens = 2) ∧
    (∀ ending, Evaluates opts source.tokens .initial ending ↔ ending = ofSource opts source) ∧
    (∀ tok rest, a.rest = tok :: rest →
      (read a.state.macros tok rest).2.length < a.rest.length) ∧
    (∀ a', a.Starts opts a' → a'.source.length < a.source.length) ∧
    a.depth ≤ Token.nest source.tokens := by
  intro opts source a
  have hnest : Token.nest source.tokens = 2 := by decide +kernel
  have hactive : Active opts source a := by
    let b : Block :=
      ⟨[utf8 "x;", utf8 "label", utf8 "n", utf8 "\x7b", utf8 "y;", utf8 "\x7d"], true⟩
    let b' : Block := ⟨[utf8 "y;"], true⟩
    have htokens : source.tokens = utf8 "$section" :: utf8 "s" :: utf8 "\x7b" :: (b.tokens ++
      [utf8 "\x7d", utf8 "\x7d", utf8 "\x7b", utf8 "z", utf8 "\x7b"]) := by decide +kernel
    have hb : b.text.tokens = b.tokens := by decide +kernel
    have hb' : b'.text.tokens = b'.tokens := by decide +kernel
    have hsection : Active opts source ⟨1, b.text.tokens, b.text.tokens, .initial⟩ :=
      .starts .root (.mk htokens rfl rfl fun _ => rfl)
    rw [hb] at hsection
    have hx : Active opts source
        ⟨1, b.tokens, b.tokens.tail, State.initial.fragment (utf8 "x;")⟩ :=
      .next hsection (.mk rfl rfl rfl)
    have hlabel : Active opts source ⟨2, b'.text.tokens, b'.text.tokens, .initial⟩ :=
      .starts hx (.mk rfl rfl rfl fun _ => rfl)
    rwa [hb'] at hlabel
  obtain ⟨htotal, hruns⟩ := lowering_terminates opts source
  exact ⟨⟨hactive, hnest⟩, htotal, hruns a hactive⟩

end Lowering

end BlockAsm
