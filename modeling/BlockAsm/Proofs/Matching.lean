/-
  BlockAsm: blocks and matching braces.

  Which brace closes a block is told by counting.  `OpensFirst` and `Paired` say so of some tokens
  as a whole, without going through them; the running depth of a reader comes to the same
  (`opensFirst_iff`, `balanced_iff`).  So a block is closed where the tokens have a paired front
  with a closing brace behind it, of which there is at most one, and it is open where no front of
  the tokens closes more braces than it opens (`Cursor.block_matched`).
-/
import BlockAsm.Cursor
import BlockAsm.Proofs.Termination

namespace BlockAsm

namespace Token

/-- No front of the tokens closes more braces than it opens. -/
def OpensFirst (toks : List Token) : Prop :=
  ∀ front, front <+: toks → front.count rbrace ≤ front.count lbrace

/-- No front closes more braces than it opens, and all together close as many. -/
def Paired (toks : List Token) : Prop :=
  OpensFirst toks ∧ toks.count lbrace = toks.count rbrace

/-- The tokens are a paired body, a closing brace and a rest. -/
def ClosesAt (toks body rest : List Token) : Prop :=
  toks = body ++ rbrace :: rest ∧ Paired body

/-! ## Counting and the running depth -/

/-- The depth runs to the end if it falls below zero nowhere. -/
theorem exists_depth? : ∀ {toks : List Token} {depth : Nat},
    (∀ front, front <+: toks → 0 ≤ depth + surplus front) →
      ∃ depth', depth? depth toks = some depth'
  | [], depth, _ => ⟨depth, rfl⟩
  | tok :: toks, depth, h => by
    have hcons : ∀ front, front <+: toks → 0 ≤ depth + surplus (tok :: front) :=
      fun front hf => h _ ((List.prefix_cons_inj tok).2 hf)
    by_cases hl : tok = lbrace
    · subst hl
      rw [depth?_lbrace]
      refine exists_depth? fun front hf => ?_
      have := hcons front hf
      rw [surplus_lbrace] at this
      omega
    · by_cases hr : tok = rbrace
      · subst hr
        cases depth with
        | zero =>
          -- the first token alone closes a brace that is not open
          have := hcons [] List.nil_prefix
          rw [surplus_rbrace] at this
          simp [surplus] at this
        | succ depth =>
          rw [depth?_rbrace_succ]
          refine exists_depth? fun front hf => ?_
          have := hcons front hf
          rw [surplus_rbrace] at this
          omega
      · rw [depth?_cons _ _ hl hr]
        refine exists_depth? fun front hf => ?_
        have := hcons front hf
        rwa [surplus_cons hl hr] at this

theorem opensFirst_iff {toks : List Token} :
    OpensFirst toks ↔ ∃ depth, depth? 0 toks = some depth := by
  constructor
  · intro h
    refine exists_depth? fun front hf => ?_
    have := h front hf
    rw [surplus]
    omega
  · rintro ⟨depth, hd⟩ front hf
    have := surplus_nonneg_of_depth? hd hf
    rw [surplus] at this
    omega

theorem balanced_iff {toks : List Token} : Balanced toks ↔ Paired toks := by
  constructor
  · intro h
    have hs := add_surplus_of_depth? h
    rw [surplus] at hs
    exact ⟨opensFirst_iff.2 ⟨0, h⟩, by omega⟩
  · rintro ⟨ho, hc⟩
    obtain ⟨depth, hd⟩ := opensFirst_iff.1 ho
    have hs := add_surplus_of_depth? hd
    rw [surplus, hc] at hs
    obtain rfl : depth = 0 := by omega
    exact hd

end Token

namespace Block

open Token (OpensFirst ClosesAt)

theorem read_of_closesAt {toks body rest : List Token} (h : ClosesAt toks body rest) :
    read (Token.lbrace :: toks) = (.ok ⟨body, true⟩, rest) := by
  obtain ⟨rfl, hp⟩ := h
  exact read_balanced (Token.balanced_iff.2 hp) rest

theorem read_of_opensFirst {toks : List Token} (h : OpensFirst toks) :
    read (Token.lbrace :: toks) = (.ok ⟨toks, false⟩, []) := by
  obtain ⟨depth, hd⟩ := Token.opensFirst_iff.1 h
  exact read_eq_ok_iff.2 ⟨by simp [behind], ⟨depth, hd, fun h => by cases h⟩, fun _ => rfl⟩

/-- Behind an opening brace there is always a block: the tokens close it, or they run out. -/
theorem closesAt_or_opensFirst (toks : List Token) :
    (∃ body rest, ClosesAt toks body rest) ∨ OpensFirst toks := by
  obtain ⟨heq, hopen, depth, hd, hclosed⟩ := eq_of_scan (Prod.ext rfl rfl : scan 0 toks = _)
  cases hc : (scan 0 toks).1.closed with
  | true =>
    rw [behind, if_pos hc] at heq
    obtain rfl := hclosed hc
    exact .inl ⟨_, _, heq, Token.balanced_iff.1 hd⟩
  | false =>
    rw [behind, if_neg (by simp [hc]), List.append_nil] at heq
    rw [← heq] at hd
    exact .inr (Token.opensFirst_iff.2 ⟨depth, hd⟩)

/-- At most one brace closes. -/
theorem closesAt_unique {toks body rest body' rest' : List Token} (h : ClosesAt toks body rest)
    (h' : ClosesAt toks body' rest') : body' = body ∧ rest' = rest := by
  have hr := (read_of_closesAt h').symm.trans (read_of_closesAt h)
  cases hr
  exact ⟨rfl, rfl⟩

theorem not_opensFirst_of_closesAt {toks body rest : List Token} (h : ClosesAt toks body rest) :
    ¬ OpensFirst toks := by
  intro ho
  have hr := (read_of_closesAt h).symm.trans (read_of_opensFirst ho)
  cases hr

end Block

namespace Cursor

open Token (OpensFirst ClosesAt)

theorem block_of_read {c : Cursor} {toks left : List Token} {r : Except Fault Block}
    (hc : c.rest = toks) (h : Block.read toks = (r, left)) :
    c.block.1 = r ∧ c.block.2.rest = left := by
  subst hc
  exact ⟨congrArg Prod.fst h, congrArg Prod.snd h⟩

theorem block_of_head?_ne {c : Cursor} (h : c.rest.head? ≠ some Token.lbrace) :
    ∃ f, c.block.1 = .error f ∧ f.category = .structural ∧
      c.block.2.rest = c.rest.drop (min 1 c.remaining) := by
  cases hr : c.rest with
  | nil =>
    obtain ⟨h1, h2⟩ := block_of_read hr rfl
    exact ⟨_, h1, rfl, by rw [h2, List.drop_nil]⟩
  | cons tok rest =>
    have ht : tok ≠ Token.lbrace := by
      rintro rfl
      exact h (by rw [hr]; rfl)
    obtain ⟨h1, h2⟩ := block_of_read hr (Block.read_cons rest ht)
    have hmin : min 1 c.remaining = 1 := by rw [remaining, hr, List.length_cons]; omega
    exact ⟨_, h1, rfl, by rw [h2, hmin, List.drop_one, List.tail_cons]⟩

/-- **A block ends at the brace that matches.**  A cursor hands out no block exactly where no
    opening brace stands next, and then it moves over the one token that does, if any.  Behind an
    opening brace it hands out a block.  The block is closed exactly where the tokens can be
    written as a paired body, a closing brace and a rest, which can be done in one way only; the
    body is the block, and the rest is left.  It is open exactly where no front of the tokens closes
    more braces than it opens; then all tokens are the block, and none is left. -/
theorem block_matched (c : Cursor) :
    ((∃ f, c.block.1 = .error f ∧ f.category = .structural) ↔
      c.rest = [] ∨ c.rest.head? ≠ some Token.lbrace) ∧
    (∀ f, c.block.1 = .error f →
      f.category = .structural ∧ c.block.2.rest = c.rest.drop (min 1 c.remaining)) ∧
    ∀ toks, c.rest = Token.lbrace :: toks → ∃ b, c.block.1 = .ok b ∧
      (b.closed = true ↔ ∃ body rest, ClosesAt toks body rest) ∧
      (∀ body rest, ClosesAt toks body rest →
        (∀ body' rest', ClosesAt toks body' rest' → body' = body ∧ rest' = rest) ∧
          b.tokens = body ∧ c.block.2.rest = rest) ∧
      (b.closed = false ↔ OpensFirst toks) ∧
      (b.closed = false → b.tokens = toks ∧ c.block.2.rest = []) := by
  have hfail : ∀ f, c.block.1 = .error f → c.rest.head? ≠ some Token.lbrace := by
    intro f hf hl
    obtain ⟨toks, hr⟩ := List.head?_eq_some_iff.1 hl
    rw [(block_of_read hr (Block.read_lbrace toks)).1] at hf
    cases hf
  refine ⟨⟨fun ⟨f, hf, _⟩ => .inr (hfail f hf), fun h => ?_⟩, fun f hf => ?_, fun toks hr => ?_⟩
  · have hne : c.rest.head? ≠ some Token.lbrace := by
      rcases h with h | h
      · rw [h]; exact fun hn => by cases hn
      · exact h
    obtain ⟨f, hf, hs, -⟩ := block_of_head?_ne hne
    exact ⟨f, hf, hs⟩
  · obtain ⟨f', hf', hs, hrest⟩ := block_of_head?_ne (hfail f hf)
    cases hf'.symm.trans hf
    exact ⟨hs, hrest⟩
  · rcases Block.closesAt_or_opensFirst toks with ⟨body, rest, hc⟩ | ho
    · obtain ⟨h1, h2⟩ := block_of_read hr (Block.read_of_closesAt hc)
      refine ⟨_, h1, ⟨fun _ => ⟨body, rest, hc⟩, fun _ => rfl⟩, ?_, ⟨fun h => ?_, fun ho => ?_⟩,
        fun h => ?_⟩
      · intro body' rest' hc'
        obtain ⟨rfl, rfl⟩ := Block.closesAt_unique hc hc'
        exact ⟨fun _ _ => Block.closesAt_unique hc, rfl, h2⟩
      · cases h
      · exact absurd ho (Block.not_opensFirst_of_closesAt hc)
      · cases h
    · obtain ⟨h1, h2⟩ := block_of_read hr (Block.read_of_opensFirst ho)
      refine ⟨_, h1, ⟨fun h => ?_, ?_⟩, ?_, ⟨fun _ => ho, fun _ => rfl⟩, fun _ => ⟨rfl, h2⟩⟩
      · cases h
      · rintro ⟨body, rest, hc⟩
        exact absurd ho (Block.not_opensFirst_of_closesAt hc)
      · intro body rest hc
        exact absurd ho (Block.not_opensFirst_of_closesAt hc)

/-- A block in a block, then a brace too many, and then an open block in an open block. -/
theorem block_matched_nested :
    let c := (ofSource (utf8 "x \x7b a \x7b \x7d b \x7d \x7d \x7b c \x7b d")).next.2
    let astray := c.block.2
    let last := astray.block.2
    let inside := [utf8 "a", Token.lbrace, Token.rbrace, utf8 "b"]
    let toks := [utf8 "c", Token.lbrace, utf8 "d"]
    let left := Token.rbrace :: Token.lbrace :: toks
    (c.rest = Token.lbrace :: (inside ++ Token.rbrace :: left) ∧ Token.Paired inside ∧
      astray.rest.head? ≠ some Token.lbrace ∧ last.rest = Token.lbrace :: toks ∧
      OpensFirst toks) ∧
    (∃ b, c.block.1 = .ok b ∧ b.closed = true ∧ b.tokens = inside ∧ astray.rest = left) ∧
    (∃ f, astray.block.1 = .error f ∧ f.category = .structural) ∧
    last.rest = astray.rest.drop (min 1 astray.remaining) ∧
    ∃ b, last.block.1 = .ok b ∧ b.closed = false ∧ b.tokens = toks ∧ last.block.2.rest = [] := by
  intro c astray last inside toks left
  have hrest : c.rest = Token.lbrace :: (inside ++ Token.rbrace :: left) := by decide +kernel
  have hpaired : Token.Paired inside :=
    Token.balanced_iff.1 (show Token.depth? 0 inside = some 0 by decide)
  have hastray : astray.rest.head? ≠ some Token.lbrace := by decide +kernel
  have hlast : last.rest = Token.lbrace :: toks := by decide +kernel
  have hopen : OpensFirst toks := Token.opensFirst_iff.2 ⟨1, by decide⟩
  obtain ⟨-, -, hblock⟩ := block_matched c
  obtain ⟨b, hb, hclosed, hbody, -, -⟩ := hblock _ hrest
  obtain ⟨-, htokens, hleft⟩ := hbody inside left ⟨rfl, hpaired⟩
  obtain ⟨hfails, hmoves, -⟩ := block_matched astray
  obtain ⟨f, hf, hs⟩ := hfails.2 (.inr hastray)
  obtain ⟨-, -, hblock'⟩ := block_matched last
  obtain ⟨b', hb', -, -, hopen', hall⟩ := hblock' _ hlast
  exact ⟨⟨hrest, hpaired, hastray, hlast, hopen⟩,
    ⟨b, hb, hclosed.2 ⟨inside, left, rfl, hpaired⟩, htokens, hleft⟩, ⟨f, hf, hs⟩,
    (hmoves f hf).2, b', hb', hopen'.2 hopen, hall (hopen'.2 hopen)⟩

end Cursor

end BlockAsm
