/-
  BlockAsm: how far a statement reaches.

  A reader takes some tokens and leaves the rest.  Of the rest it looks at no more than the
  first token, and only to see whether it is an arrow.  So a complete statement is read off
  the tokens it took, whatever stands behind them (`stable_read`).  A statement that is not
  complete reaches to the end of the input (`exists_of_not_isComplete`).
-/
import BlockAsm.Proofs.Nesting

namespace BlockAsm

theorem Token.upTo_taken {closes : Token → Bool} {toks taken behind : List Token}
    (h : upTo closes toks = (taken, some behind)) (behind' : List Token) :
    upTo closes (taken ++ behind') = (taken, some behind') := by
  induction toks generalizing taken with
  | nil => simp [upTo] at h
  | cons tok toks ih =>
    unfold upTo at h
    split at h
    · rename_i hc
      cases h
      simp [upTo, hc]
    · rename_i hc
      rcases hu : upTo closes toks with ⟨taken', behind''⟩
      rw [hu] at h
      obtain ⟨rfl, rfl⟩ := Prod.mk.inj h
      simp [upTo, hc, ih hu]

namespace Statement

/-- A statement whose block, if it has one, is there and closed. -/
def IsComplete : Statement → Prop
  | sectionBlock _ b | label _ b => b.closed = true
  | sectionHeader _ _ => False
  | _ => True

/-- The reader makes `stmt` of the tokens in front of `left`, and it does so in front of any
    other tokens as well, unless an arrow comes to stand there. -/
def Stable (reader : List Token → Reading) (rest : List Token) (stmt : Statement)
    (left : List Token) : Prop :=
  ∃ taken, rest = taken ++ left ∧ ∀ left' : List Token,
    (left'.head? = some Token.arrow → left.head? = some Token.arrow) →
      reader (taken ++ left') = (.ok stmt, left')

section
variable {rest left : List Token} {stmt : Statement}

theorem stable_readMove (h : readMove rest = (.ok stmt, left)) :
    Stable readMove rest stmt left := by
  unfold readMove missingOperand at h
  split at h
  · cases h
    exact ⟨[_, _, _], rfl, fun _ _ => rfl⟩
  · cases h

theorem stable_readSection {directive : Token} (hc : stmt.IsComplete)
    (h : readSection directive rest = (.ok stmt, left)) :
    Stable (readSection directive) rest stmt left := by
  cases rest with
  | nil => cases h
  | cons kind rest =>
    rcases hb : Block.read rest with ⟨f | b, left'⟩
    · rw [readSection_error hb] at h; cases h; exact hc.elim
    · rw [readSection_ok hb] at h; cases h
      obtain ⟨hrest, htaken⟩ := Block.eq_of_read_closed hb hc
      refine ⟨kind :: (Token.lbrace :: b.tokens ++ [Token.rbrace]), by simp [hrest], ?_⟩
      intro left' _
      rw [List.cons_append, readSection_ok (htaken left')]

theorem stable_readLabel {directive : Token} (hc : stmt.IsComplete)
    (h : readLabel directive rest = (.ok stmt, left)) :
    Stable (readLabel directive) rest stmt left := by
  cases rest with
  | nil => cases h
  | cons name rest =>
    rcases hb : Block.read rest with ⟨f | b, left'⟩
    · rw [readLabel_error hb] at h; cases h
    · rw [readLabel_ok hb] at h; cases h
      obtain ⟨hrest, htaken⟩ := Block.eq_of_read_closed hb hc
      refine ⟨name :: (Token.lbrace :: b.tokens ++ [Token.rbrace]), by simp [hrest], ?_⟩
      intro left' _
      rw [List.cons_append, readLabel_ok (htaken left')]

theorem stable_readComment {tok : Token} (h : readComment tok rest = (.ok stmt, left)) :
    Stable (readComment tok) rest stmt left := by
  unfold readComment at h
  split at h
  · cases h
  · rename_i inside ht
    split at h
    · rename_i hi
      cases h
      exact ⟨[], rfl, fun left' _ => by simp [readComment, ht, hi]⟩
    · rename_i hi
      split at h
      · rename_i taken left' hu
        cases h
        exact ⟨taken, (Token.append_of_upTo hu).symm, fun left' _ => by
          simp [readComment, ht, hi, Token.upTo_taken hu]⟩
      · cases h

theorem stable_readString {tok : Token} (h : readString tok rest = (.ok stmt, left)) :
    Stable (readString tok) rest stmt left := by
  unfold readString at h
  split at h
  · cases h
  · rename_i quote inside
    split at h
    · rename_i hi
      cases h
      exact ⟨[], rfl, fun left' _ => by simp [readString, hi]⟩
    · rename_i hi
      split at h
      · rename_i taken left' hu
        cases h
        exact ⟨taken, (Token.append_of_upTo hu).symm, fun left' _ => by
          simp [readString, hi, Token.upTo_taken hu]⟩
      · cases h

theorem stable_readCall {tok : Token} (h : readCall tok rest = (.ok stmt, left)) :
    Stable (readCall tok) rest stmt left := by
  unfold readCall at h
  split at h
  · rename_i taken left' hu
    obtain ⟨h1, rfl⟩ := Prod.mk.inj h
    -- the first token opens the call, so it is the first one taken
    obtain ⟨tok', taken', rfl⟩ := Token.exists_of_upTo hu
    have happ := Token.append_of_upTo hu
    obtain ⟨rfl, hrest⟩ := List.cons.inj happ
    refine ⟨taken', hrest.symm, fun behind _ => ?_⟩
    have hu' := Token.upTo_taken hu behind
    rw [List.cons_append] at hu'
    rw [readCall, hu']
    exact Prod.ext h1 rfl
  · cases h

section
variable {m : Macros} {tok : Token}

theorem readGeneric_move (rest : List Token)
    (h : m.resolveOperand tok.dropTerminator = Form.moveWord ∧ ¬ tok.isTerminated) :
    readGeneric m tok rest = readMove rest := if_pos h

variable (h : ¬ (m.resolveOperand tok.dropTerminator = Form.moveWord ∧ ¬ tok.isTerminated))
include h

theorem readGeneric_arrow (rest : List Token) : readGeneric m tok (Token.arrow :: rest) =
    (.ok (.destination (m.resolveOperand tok.dropTerminator)), rest) := by
  rw [readGeneric.eq_def]
  simp only [if_neg h, if_true]

theorem readGeneric_word {rest : List Token} (ha : rest.head? ≠ some Token.arrow) :
    readGeneric m tok rest =
      (.ok (ofCore (m.resolveOperand tok.dropTerminator) tok.isTerminated), rest) := by
  rw [readGeneric.eq_def]
  simp only [if_neg h]
  cases rest with
  | nil => rfl
  | cons next rest => exact if_neg fun hn => ha (congrArg some hn)

end

theorem stable_readGeneric {m : Macros} {tok : Token}
    (h : readGeneric m tok rest = (.ok stmt, left)) :
    Stable (readGeneric m tok) rest stmt left := by
  by_cases hm : m.resolveOperand tok.dropTerminator = Form.moveWord ∧ ¬ tok.isTerminated
  · rw [readGeneric_move rest hm] at h
    obtain ⟨taken, hrest, htaken⟩ := stable_readMove h
    exact ⟨taken, hrest, fun left' ha => (readGeneric_move _ hm).trans (htaken left' ha)⟩
  · by_cases ha : rest.head? = some Token.arrow
    · obtain ⟨behind, rfl⟩ := List.head?_eq_some_iff.1 ha
      rw [readGeneric_arrow hm] at h
      cases h
      exact ⟨[Token.arrow], rfl, fun left' _ => readGeneric_arrow hm left'⟩
    · rw [readGeneric_word hm ha] at h
      cases h
      exact ⟨[], rfl, fun left' ha' => readGeneric_word hm fun he => ha (ha' he)⟩

end

/-- **A complete statement is read off its own tokens,** whatever stands behind them. -/
theorem stable_read {m : Macros} {tok : Token} {rest left : List Token} {stmt : Statement}
    (h : read m tok rest = (.ok stmt, left)) (hc : stmt.IsComplete) :
    Stable (read m tok) rest stmt left := by
  have hof : ∀ {reader : List Token → Reading}, (∀ toks, read m tok toks = reader toks) →
      Stable reader rest stmt left → Stable (read m tok) rest stmt left := by
    rintro reader he ⟨taken, hrest, htaken⟩
    exact ⟨taken, hrest, fun left' ha => (he _).trans (htaken left' ha)⟩
  unfold read at h
  split at h
  case h_1 hf =>
    unfold missingOperand at h
    split at h <;> cases h
    exact ⟨[_, _], rfl, fun _ _ => by simp [read, hf]⟩
  case h_2 hf | h_3 hf =>
    unfold missingOperand at h
    split at h <;> cases h
    exact ⟨[_], rfl, fun _ _ => by simp [read, hf]⟩
  case h_4 hf => exact hof (fun toks => by simp [read, hf]) (stable_readSection hc h)
  case h_5 hf => exact hof (fun toks => by simp [read, hf]) (stable_readLabel hc h)
  case h_6 hf => exact hof (fun toks => by simp [read, hf]) (stable_readLabel hc h)
  case h_10 hf => exact hof (fun toks => by simp [read, hf]) (stable_readComment h)
  case h_11 hf => exact hof (fun toks => by simp [read, hf]) (stable_readString h)
  case h_12 hf => exact hof (fun toks => by simp [read, hf]) (stable_readMove h)
  case h_13 hf => exact hof (fun toks => by simp [read, hf]) (stable_readCall h)
  case h_14 hf => exact hof (fun toks => by simp [read, hf]) (stable_readGeneric h)
  case h_7 hf | h_8 hf | h_9 hf =>
    cases h
    exact ⟨[], rfl, fun _ _ => by simp [read, hf]⟩

/-- A complete statement takes the same tokens when more follow. -/
theorem read_append {m : Macros} {tok : Token} {rest left : List Token} {stmt : Statement}
    (h : read m tok rest = (.ok stmt, left)) (hc : stmt.IsComplete) {extra : List Token}
    (ha : extra.head? ≠ some Token.arrow) :
    read m tok (rest ++ extra) = (.ok stmt, left ++ extra) := by
  obtain ⟨taken, rfl, htaken⟩ := stable_read h hc
  rw [List.append_assoc]
  refine htaken _ fun he => ?_
  cases left with
  | nil => exact absurd he ha
  | cons next left => exact he

/-- A statement that is not complete, and does not fail, has an open block, which takes all the
    tokens. -/
theorem exists_of_not_isComplete {opts : Options} {r : Except Error Text} {s s' : State}
    {stmt : Statement} {m : Macros} {tok : Token} {rest left : List Token}
    (hr : read m tok rest = (.ok stmt, left)) (hx : stmt.execute opts r s = (s', none))
    (hc : ¬ stmt.IsComplete) : ∃ b, stmt.block? = some b ∧ b.closed = false ∧ left = [] := by
  have hblock : ∃ b, stmt.block? = some b ∧ b.closed = false := by
    cases stmt with
    | sectionBlock kind b => exact ⟨b, rfl, Bool.eq_false_iff.2 hc⟩
    | label name b => exact ⟨b, rfl, Bool.eq_false_iff.2 hc⟩
    | sectionHeader kind f => cases hx
    | _ => exact absurd trivial hc
  obtain ⟨b, hb, hopen⟩ := hblock
  obtain ⟨name, behind, -, hread, -⟩ := exists_of_read_block hr hb
  exact ⟨b, hb, hopen, (Block.read_eq_ok_iff.1 hread).2.2 hopen⟩

end Statement

end BlockAsm
