/-
  BlockAsm: what a cursor hands out.

  A cursor over a source moves when it hands out a token or a block; looking ahead leaves it
  where it is.  `Reachable` says where it can come to.  Wherever that is, the block that it hands
  out next is a stretch of the tokens of the source (`infix_of_block`), and a stretch of tokens
  that is put together with spaces has these tokens again (`tokens_unwords_of_infix`).

  A cursor is asked for tokens and blocks, and to look ahead, in any order (`Request`).  What one
  answer hands out stood in front of the tokens that are left (`handedOut_serve`); so all that was
  handed out, with the tokens that remain behind it, is the source (`handedOut_append_rest`).

  Looking ahead finds what would be handed out (`peek_of_not_overflows`), except that a place behind
  the last 64-bit number comes out negative (`Overflows.peek_eq`).
-/
import BlockAsm.Cursor
import BlockAsm.Proofs.Blocks
import BlockAsm.Proofs.Tokens

namespace BlockAsm

theorem Block.infix_of_read {toks left : List Token} {b : Block}
    (h : read toks = (.ok b, left)) : b.tokens <:+: toks := by
  obtain ⟨rfl, -, -⟩ := read_eq_ok_iff.1 h
  exact ⟨[Token.lbrace], b.behind left, by simp⟩

/-- A stretch of the tokens of a source, put together with spaces, has these tokens again. -/
theorem Token.tokens_unwords_of_infix {source : Text} {seg : List Token}
    (h : seg <:+: source.tokens) : (unwords seg).tokens = seg :=
  tokens_unwords fun _ ht => isToken_of_mem_tokens (h.subset ht)

namespace Cursor

/-- Where a cursor over the source can come to. -/
inductive Reachable (source : Text) : Cursor → Prop
  | start : Reachable source (ofSource source)
  | next {c : Cursor} (h : Reachable source c) : Reachable source c.next.2
  /-- whether a block was found or not -/
  | block {c : Cursor} (h : Reachable source c) : Reachable source c.block.2

theorem source_next (c : Cursor) : c.next.2.source = c.source := by
  unfold next
  split <;> rfl

theorem Reachable.source_eq {source : Text} {c : Cursor} (h : Reachable source c) :
    c.source = source.tokens := by
  induction h with
  | start => rfl
  | next _ ih => rw [source_next, ih]
  | block _ ih => exact ih

/-- A block that a cursor hands out is a stretch of all its tokens. -/
theorem infix_of_block {c : Cursor} {b : Block} (h : c.block.1 = .ok b) :
    b.tokens <:+: c.source := by
  have hread : Block.read c.rest = (.ok b, (Block.read c.rest).2) := Prod.ext h rfl
  exact (Block.infix_of_read hread).trans c.suffix.isInfix

/-- **Blocks survive being written out.**  Every block that a cursor over a source hands out,
    wherever the cursor has come to, has the tokens of its text; and so has every stretch of the
    tokens of the source, put together with single spaces. -/
theorem tokens_of_written_block (source : Text) :
    (∀ c b, Reachable source c → c.block.1 = .ok b → b.text.tokens = b.tokens) ∧
      ∀ seg, seg <:+: source.tokens → (Token.unwords seg).tokens = seg := by
  refine ⟨fun c b hc hb => ?_, fun seg => Token.tokens_unwords_of_infix⟩
  have hin := infix_of_block hb
  rw [hc.source_eq] at hin
  exact Token.tokens_unwords_of_infix hin

/-- The front of an encoding stands before a wide space, the other bytes of one behind it, and the
    block is found by a cursor that has handed out a token and has been refused a block. -/
theorem tokens_of_written_block_stray :
    let source : Text := utf8 "k \x7d\x7b" ++ [0xE2, 0x80] ++ utf8 "\u2003" ++ [0x83, 0xA0] ++
      utf8 "\x7b" ++ [0xC2] ++ utf8 "\u3000" ++ [0x85] ++ utf8 "\x7d\x7d z"
    let c := (ofSource source).next.2.block.2
    let b : Block := ⟨[[0xE2, 0x80], [0x83, 0xA0], utf8 "\x7b", [0xC2], [0x85], utf8 "\x7d"], true⟩
    (Reachable source c ∧ c.block.1 = .ok b ∧ [[0xC2], [0x85]] <:+: source.tokens) ∧
      b.text.tokens = b.tokens ∧ (Token.unwords [[0xC2], [0x85]]).tokens = [[0xC2], [0x85]] := by
  intro source c b
  have hc : Reachable source c := .block (.next .start)
  have hb : c.block.1 = .ok b := by decide +kernel
  have hseg : [[0xC2], [0x85]] <:+: source.tokens := by decide +kernel
  obtain ⟨hblock, hsegs⟩ := tokens_of_written_block source
  exact ⟨⟨hc, hb, hseg⟩, hblock c b hc hb, hsegs _ hseg⟩

/-! ## Positions -/

theorem drop_position (c : Cursor) : c.source.drop c.position = c.rest :=
  (List.suffix_iff_eq_drop.1 c.suffix).symm

theorem position_add_remaining (c : Cursor) : c.position + c.remaining = c.source.length :=
  Nat.sub_add_cancel c.suffix.length_le

theorem next_eq (c : Cursor) : c.next.1 = c.rest.head? ∧ c.next.2.rest = c.rest.tail := by
  unfold next
  split
  · rename_i h
    exact ⟨(congrArg List.head? h).symm, by rw [h, List.tail_nil]⟩
  · rename_i tok rest h
    exact ⟨(congrArg List.head? h).symm, (congrArg List.tail h).symm⟩

/-- Looking ahead finds the token that stands there, as long as the place is a 64-bit number. -/
theorem peek_eq {c : Cursor} {offset : Int64} (hpos : 0 ≤ offset)
    (hsum : c.position + offset.toInt ≤ Int64.maxValue.toInt) :
    c.peek offset = .ok c.rest[offset.toInt.toNat]? := by
  have ho : 0 ≤ offset.toInt := Int64.le_iff_toInt_le.1 hpos
  have hmax : Int64.maxValue.toInt = 9223372036854775807 := by decide
  -- below the bound the sum does not wrap around
  have hindex : (c.position + offset.toInt).bmod UInt64.size = c.position + offset.toInt := by
    refine Int.bmod_eq_of_le ?_ ?_
    all_goals simp only [UInt64.size]; omega
  have hneg : ¬ offset < 0 := by rw [Int64.not_lt]; exact hpos
  have hlen : c.source.length = c.position + c.rest.length := c.position_add_remaining.symm
  simp only [peek, hindex, hneg, false_or]
  split
  · rw [List.getElem?_eq_none (by omega)]
  · have hplace : (c.position + offset.toInt).toNat = c.position + offset.toInt.toNat := by omega
    rw [if_neg (by omega), hplace, ← List.getElem?_drop, drop_position]

theorem peek_of_neg (c : Cursor) {offset : Int64} (h : offset < 0) : c.peek offset = .ok none := by
  simp only [peek, h, true_or, if_true]

/-- The offset leads to a place behind the last 64-bit number. -/
def Overflows (c : Cursor) (offset : Int64) : Prop :=
  Int64.maxValue.toInt < c.position + offset.toInt

/-- Such a place wraps around to a negative one, which is out of range. -/
theorem Overflows.peek_eq {c : Cursor} {offset : Int64} (h : c.Overflows offset)
    (hpos : c.position ≤ Int64.maxValue.toInt) :
    c.peek offset = .error ⟨c.position + offset.toInt - UInt64.size⟩ := by
  rw [Overflows] at h
  have hmax : Int64.maxValue.toInt = 9223372036854775807 := by decide
  have hsize : (UInt64.size : Int) = 18446744073709551616 := rfl
  have ho := offset.toInt_le
  have hindex : (c.position + offset.toInt).bmod UInt64.size =
      c.position + offset.toInt - UInt64.size := by
    rw [← Int.sub_bmod_right]
    exact Int.bmod_eq_of_le (by omega) (by omega)
  have hneg : ¬ offset < 0 := by
    rw [Int64.lt_iff_toInt_lt, Int64.toInt_zero]
    omega
  simp only [peek, hindex, hneg, false_or]
  rw [if_neg (by omega), if_pos (by omega)]

/-! ## Requests -/

/-- What a cursor can be asked for. -/
inductive Request where
  /-- to hand out the next token -/
  | next
  /-- to hand out the next block -/
  | block
  /-- the token some places ahead -/
  | peek (offset : Int64)
  /-- whether there is a next token -/
  | hasMore
  /-- all tokens of the source -/
  | tokens
  deriving DecidableEq, Repr

/-- What a cursor answers to a request of the same name. -/
inductive Reply where
  | next (tok? : Option Token)
  | block (r : Except Fault Block)
  | peek (r : Except OutOfRange (Option Token))
  | hasMore (yes : Bool)
  | tokens (toks : List Token)

/-- The answer to a request, and the cursor behind it. -/
def serve (c : Cursor) : Request → Reply × Cursor
  | .next => (.next c.next.1, c.next.2)
  | .block => (.block c.block.1, c.block.2)
  | .peek offset => (.peek (c.peek offset), c)
  | .hasMore => (.hasMore !c.isDone, c)
  | .tokens => (.tokens c.source, c)

/-- The cursor after some requests. -/
def after (c : Cursor) (requests : List Request) : Cursor :=
  requests.foldl (fun c r => (c.serve r).2) c

/-- The tokens that an answer hands out: the next one; those of a block, with its braces; or the one
    that stands where a block was asked for. -/
def Reply.handedOut : Reply → List Token
  | .next tok? => tok?.toList
  | .block (.ok b) => Token.lbrace :: b.tokens ++ if b.closed then [Token.rbrace] else []
  | .block (.error (.noBlock found)) => found.toList
  | _ => []

/-- The tokens that a cursor hands out in answer to some requests, one answer after the other. -/
def handedOut (c : Cursor) : List Request → List Token
  | [] => []
  | r :: requests => (c.serve r).1.handedOut ++ (c.serve r).2.handedOut requests

theorem handedOut_block (c : Cursor) :
    (Reply.block c.block.1).handedOut ++ c.block.2.rest = c.rest := by
  have hread : Block.read c.rest = (c.block.1, c.block.2.rest) := rfl
  cases hb : c.block.1 with
  | ok b =>
    rw [hb] at hread
    obtain ⟨hrest, -, hopen⟩ := Block.read_eq_ok_iff.1 hread
    rw [hrest, Reply.handedOut, Block.behind]
    -- an open block reaches to the end and leaves nothing
    cases hc : b.closed with
    | true => simp
    | false => simp [hopen hc]
  | error f =>
    rw [hb] at hread
    obtain ⟨rfl, hrest⟩ := Block.eq_of_read_error hread
    rw [hrest, Reply.handedOut]
    cases c.rest <;> rfl

/-- What an answer hands out stood in front of the tokens that it leaves. -/
theorem handedOut_serve (c : Cursor) (r : Request) :
    (c.serve r).1.handedOut ++ (c.serve r).2.rest = c.rest := by
  cases r with
  | next =>
    simp only [serve, Reply.handedOut, c.next_eq]
    cases c.rest <;> rfl
  | block => exact c.handedOut_block
  | peek | hasMore | tokens => rfl

theorem handedOut_append_rest (requests : List Request) :
    ∀ c : Cursor, c.handedOut requests ++ (c.after requests).rest = c.rest := by
  induction requests with
  | nil => intro c; rfl
  | cons r requests ih =>
    intro c
    have hafter : c.after (r :: requests) = (c.serve r).2.after requests := rfl
    rw [hafter, handedOut, List.append_assoc, ih, handedOut_serve]

theorem Reachable.serve {source : Text} {c : Cursor} (h : Reachable source c) (r : Request) :
    Reachable source (c.serve r).2 := by
  cases r with
  | next => exact h.next
  | block => exact h.block
  | peek | hasMore | tokens => exact h

theorem Reachable.after {source : Text} (requests : List Request) :
    ∀ {c : Cursor}, Reachable source c → Reachable source (c.after requests) := by
  induction requests with
  | nil => intro c h; exact h
  | cons r requests ih => intro c h; exact ih (h.serve r)

theorem rest_after_nexts (n : Nat) :
    ∀ c : Cursor, (c.after (List.replicate n .next)).rest = c.rest.drop n := by
  induction n with
  | zero => intro c; rfl
  | succ n ih =>
    intro c
    have hafter : c.after (List.replicate (n + 1) .next) =
        c.next.2.after (List.replicate n .next) := rfl
    rw [hafter, ih, c.next_eq.2, List.drop_tail]

/-- The tokens that remain are handed out one by one. -/
theorem handedOut_nexts (c : Cursor) :
    c.handedOut (List.replicate c.remaining .next) = c.rest := by
  have h := c.handedOut_append_rest (List.replicate c.remaining .next)
  rwa [rest_after_nexts, remaining, List.drop_length, List.append_nil] at h

/-- **A cursor hands out every token once, in order.**  Whatever it was asked for before, the tokens
    that it has handed out, with those that remain behind them, are the tokens of the source; and
    those that remain are what it hands out when it is asked for one token after the other.  It
    always knows all tokens, and no request but those for a token or a block moves it.  There is
    more exactly if tokens remain, and exactly if the next token is handed out on request; looking
    no place ahead shows this token, in a source whose tokens can be counted in 64 bits. -/
theorem hands_out_every_token_once (source : Text) (requests : List Request) :
    let start := ofSource source
    let c := start.after requests
    (start.handedOut requests ++ c.rest = source.tokens ∧ c.rest.length = c.remaining ∧
      c.handedOut (List.replicate c.remaining .next) = c.rest) ∧
    (c.serve .tokens).1 = .tokens source.tokens ∧
    (∀ r, r ≠ .next → r ≠ .block → (c.serve r).2 = c) ∧
    ((c.serve .hasMore).1 = .hasMore true ↔ 0 < c.remaining) ∧
    (0 < c.remaining ↔ ∃ tok, (c.serve .next).1 = .next (some tok)) ∧
    (source.tokens.length ≤ Int64.maxValue.toInt → ∃ tok?,
      (c.serve (.peek 0)).1 = .peek (.ok tok?) ∧ (c.serve .next).1 = .next tok?) := by
  intro start c
  have hsource : c.source = source.tokens := (Reachable.start.after requests).source_eq
  have hpos : 0 < c.remaining ↔ c.rest ≠ [] := List.length_pos_iff
  refine ⟨⟨handedOut_append_rest requests start, rfl, c.handedOut_nexts⟩, congrArg _ hsource,
    fun r hnext hblock => ?_, ?_, ?_, fun hlen => ⟨_, ?_, rfl⟩⟩
  · cases r with
    | next => exact absurd rfl hnext
    | block => exact absurd rfl hblock
    | peek | hasMore | tokens => rfl
  · rw [hpos, serve, Reply.hasMore.injEq, isDone, Bool.not_eq_true', List.isEmpty_eq_false_iff]
  · rw [hpos, serve, ← List.isSome_head?, Option.isSome_iff_exists]
    simp only [Reply.next.injEq, c.next_eq.1]
  · have hsum : c.position + (0 : Int64).toInt ≤ Int64.maxValue.toInt := by
      have := c.position_add_remaining
      rw [hsource] at this
      rw [Int64.toInt_zero]
      omega
    rw [serve, peek_eq (by decide) hsum, c.next_eq.1, List.head?_eq_getElem?]
    rfl

/-- A token, a block in a block and a brace too many are handed out, with looks in between, the last
    of them too far ahead to be counted; an open block remains. -/
theorem hands_out_every_token_once_mixed :
    let source := utf8 "x \x7b a \x7b \x7d b \x7d \x7d \x7b c"
    let start := ofSource source
    let requests : List Request :=
      [.peek 0, .next, .hasMore, .block, .tokens, .block, .peek Int64.maxValue]
    let c := start.after requests
    (source.tokens.length ≤ Int64.maxValue.toInt ∧ c.remaining = 2 ∧
      start.handedOut requests = [utf8 "x", Token.lbrace, utf8 "a", Token.lbrace, Token.rbrace,
        utf8 "b", Token.rbrace, Token.rbrace]) ∧
    start.handedOut requests ++ c.rest = source.tokens ∧
    c.handedOut [.next, .next] = c.rest ∧ (c.serve .tokens).1 = .tokens source.tokens ∧
    (c.serve (.peek Int64.maxValue)).2 = c ∧ (c.serve .hasMore).1 = .hasMore true ∧
    ∃ tok?, (c.serve (.peek 0)).1 = .peek (.ok tok?) ∧ (c.serve .next).1 = .next tok? := by
  intro source start requests c
  have hlen : source.tokens.length ≤ Int64.maxValue.toInt := by decide +kernel
  have hremaining : c.remaining = 2 := by decide +kernel
  have hout : start.handedOut requests = [utf8 "x", Token.lbrace, utf8 "a", Token.lbrace,
      Token.rbrace, utf8 "b", Token.rbrace, Token.rbrace] := by decide +kernel
  obtain ⟨⟨hall, -, hrest⟩, htokens, hstill, hmore, -, hpeek⟩ :=
    hands_out_every_token_once source requests
  have htwo : List.replicate c.remaining Request.next = [.next, .next] := by rw [hremaining]; rfl
  exact ⟨⟨hlen, hremaining, hout⟩, hall, htwo ▸ hrest, htokens,
    hstill _ (fun h => by cases h) (fun h => by cases h), hmore.2 (by rw [hremaining]; decide),
    hpeek hlen⟩

/-! ## Looking ahead -/

/-- The token that is handed out after `n` others. -/
theorem next_after_nexts (c : Cursor) (n : Nat) :
    (c.after (List.replicate n .next)).next.1 = c.rest[n]? := by
  rw [(next_eq _).1, rest_after_nexts, List.head?_drop]

section
variable {c : Cursor} {offset : Int64}

/-- Below the overflow an offset finds what as many requests for a token would come to. -/
theorem peek_of_not_overflows (hover : ¬ c.Overflows offset) :
    c.peek offset = .ok (if 0 ≤ offset then
      (c.after (List.replicate offset.toInt.toNat .next)).next.1 else none) := by
  split
  · rename_i hoffset
    rw [next_after_nexts]
    exact peek_eq hoffset (Int.not_lt.1 hover)
  · rename_i hoffset
    exact c.peek_of_neg (Int64.not_le.1 hoffset)

theorem exists_peek_eq_some (hover : ¬ c.Overflows offset) (hoffset : 0 ≤ offset)
    (hlt : offset.toInt < c.remaining) : ∃ tok, c.peek offset = .ok (some tok) ∧
      (c.after (List.replicate offset.toInt.toNat .next)).next.1 = some tok := by
  have ho : 0 ≤ offset.toInt := Int64.le_iff_toInt_le.1 hoffset
  have hin : offset.toInt.toNat < c.rest.length := by rw [← remaining]; omega
  rw [peek_of_not_overflows hover, if_pos hoffset, next_after_nexts, List.getElem?_eq_getElem hin]
  exact ⟨_, rfl, rfl⟩

theorem peek_eq_none (hover : ¬ c.Overflows offset)
    (hout : ¬ (0 ≤ offset ∧ offset.toInt < c.remaining)) : c.peek offset = .ok none := by
  rw [peek_of_not_overflows hover]
  split
  · rename_i hoffset
    have hge : ¬ offset.toInt < c.remaining := fun hlt => hout ⟨hoffset, hlt⟩
    have hbehind : c.rest.length ≤ offset.toInt.toNat := by rw [← remaining]; omega
    rw [next_after_nexts, List.getElem?_eq_none hbehind]
  · rfl

/-- Only in front of all tokens no offset leads too far. -/
theorem forall_not_overflows_iff : (∀ k, ¬ c.Overflows k) ↔ c.position = 0 := by
  simp only [Overflows]
  constructor
  · intro h
    have := h Int64.maxValue
    omega
  · intro hzero k
    have := k.toInt_le
    omega

theorem exists_peek_iff (hpos : c.position ≤ Int64.maxValue.toInt) :
    (∃ tok?, c.peek offset = .ok tok?) ↔ ¬ c.Overflows offset := by
  constructor
  · rintro ⟨tok?, h⟩ hover
    rw [hover.peek_eq hpos] at h
    cases h
  · intro hover
    exact ⟨_, peek_of_not_overflows hover⟩

end

/-- **Looking ahead is exact below the overflow.**  Wherever a cursor over a source has come to, in
    a source whose tokens can be counted in 64 bits: looking fewer places ahead than tokens remain
    finds the token that is handed out after as many others.  Looking elsewhere finds no token, if
    the place is a 64-bit number; behind the last of them, which is always behind the last token,
    the place comes out negative and is out of range.  Only in front of all tokens can a cursor
    look everywhere. -/
theorem peek_exact_below_overflow (source : Text) (c : Cursor) (offset : Int64)
    (hc : Reachable source c) (hlen : source.tokens.length ≤ Int64.maxValue.toInt) :
    (0 ≤ offset ∧ offset.toInt < c.remaining → ∃ tok, c.peek offset = .ok (some tok) ∧
      (c.after (List.replicate offset.toInt.toNat .next)).next.1 = some tok) ∧
    (¬ (0 ≤ offset ∧ offset.toInt < c.remaining) →
      (c.peek offset = .ok none ↔ ¬ c.Overflows offset)) ∧
    (c.Overflows offset → c.remaining ≤ offset.toInt ∧
      c.peek offset = .error ⟨c.position + offset.toInt - UInt64.size⟩) ∧
    ((∀ k, ∃ tok?, c.peek k = .ok tok?) ↔ c.position = 0) := by
  have hcount : c.position + c.remaining ≤ Int64.maxValue.toInt := by
    have := c.position_add_remaining
    rw [hc.source_eq] at this
    omega
  have hpos : c.position ≤ Int64.maxValue.toInt := by omega
  refine ⟨?_, fun hout => ?_, fun hover => ⟨?_, hover.peek_eq hpos⟩, ?_⟩
  · rintro ⟨hoffset, hlt⟩
    exact exists_peek_eq_some (by rw [Overflows]; omega) hoffset hlt
  · exact ⟨fun h => (exists_peek_iff hpos).1 ⟨none, h⟩, fun hover => peek_eq_none hover hout⟩
  · rw [Overflows] at hover
    omega
  · simp only [exists_peek_iff hpos, forall_not_overflows_iff]

/-- One token was handed out: the next is found, a place behind the last is empty, and the last
    place of all is out of range. -/
theorem peek_exact_below_overflow_second :
    let source := utf8 "a b"
    let c := (ofSource source).next.2
    (Reachable source c ∧ source.tokens.length ≤ Int64.maxValue.toInt ∧ c.position = 1 ∧
      c.remaining = 1 ∧ ¬ c.Overflows 1 ∧ c.Overflows Int64.maxValue) ∧
    (∃ tok, c.peek 0 = .ok (some tok) ∧ c.next.1 = some tok) ∧ c.peek 1 = .ok none ∧
    c.peek Int64.maxValue = .error ⟨-9223372036854775808⟩ ∧
    ¬ ∀ k, ∃ tok?, c.peek k = .ok tok? := by
  intro source c
  have hc : Reachable source c := .next .start
  have hlen : source.tokens.length ≤ Int64.maxValue.toInt := by decide +kernel
  have hposition : c.position = 1 := by decide +kernel
  have hremaining : c.remaining = 1 := by decide +kernel
  have hone : ¬ c.Overflows 1 := by rw [Overflows, hposition]; decide
  have hlast : c.Overflows Int64.maxValue := by rw [Overflows, hposition]; decide
  obtain ⟨hfound, -, -, hall⟩ := peek_exact_below_overflow source c 0 hc hlen
  obtain ⟨-, hnone, -, -⟩ := peek_exact_below_overflow source c 1 hc hlen
  obtain ⟨-, -, hrange, -⟩ := peek_exact_below_overflow source c Int64.maxValue hc hlen
  refine ⟨⟨hc, hlen, hposition, hremaining, hone, hlast⟩, hfound (by rw [hremaining]; decide),
    (hnone (by rw [hremaining]; decide)).2 hone, ?_, by rw [hall, hposition]; decide⟩
  have herror := (hrange hlast).2
  rw [hposition] at herror
  exact herror

/-- Not every place where no token is comes out as empty. -/
theorem peek_wraps_around :
    ¬ ∀ (source : Text) (c : Cursor) (offset : Int64), Reachable source c →
      source.tokens.length ≤ Int64.maxValue.toInt →
      (0 ≤ offset ∧ offset.toInt < c.remaining → ∃ tok, c.peek offset = .ok (some tok) ∧
        (c.after (List.replicate offset.toInt.toNat .next)).next.1 = some tok) ∧
      (¬ (0 ≤ offset ∧ offset.toInt < c.remaining) → c.peek offset = .ok none) := by
  intro h
  let c := (ofSource (utf8 "a b")).next.2
  have hnone : c.peek Int64.maxValue = .ok none :=
    (h (utf8 "a b") c Int64.maxValue (.next .start) (by decide +kernel)).2 (by decide +kernel)
  have hrange : c.peek Int64.maxValue = .error ⟨-9223372036854775808⟩ := by decide +kernel
  rw [hrange] at hnone
  cases hnone

end Cursor

end BlockAsm
