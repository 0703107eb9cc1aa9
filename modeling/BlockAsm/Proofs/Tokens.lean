/-
  BlockAsm: how a source is cut into tokens.

  An ASCII byte belongs to no encoding of another character, so the reading of a
  text can be cut in front of it (`runes_append_cons`).  Hence the tokens of a text are
  those on either side of a blank (`tokens_append_blank`), and tokens that are put
  together with spaces come apart again (`tokens_unwords`).  A part of a text, cut at its
  units, is read as it is in the whole (`runes_flatMap_bytes`), so a token of a source is
  also one when it stands alone (`isToken_of_mem_tokens`).
-/
import BlockAsm.Token
import Mathlib.Data.Nat.Bitwise

namespace BlockAsm

/-! ## The reading in front of an ASCII byte -/

/-- The character of an ASCII byte. -/
def Byte.char (b : UInt8) : Char := Char.ofNat b.toNat

/-- The unit of an ASCII byte. -/
def Byte.rune (b : UInt8) : Rune := .scalar (Byte.char b)

theorem Byte.char_toNat {b : UInt8} (h : b < 0x80) : (Byte.char b).toNat = b.toNat := by
  have hb : b.toNat < 0x80 := h
  have hv : b.toNat.isValidChar := Or.inl (by omega)
  rw [Byte.char, Char.ofNat, dif_pos hv]
  rfl

theorem Byte.utf8EncodeChar_char {b : UInt8} (h : b < 0x80) :
    String.utf8EncodeChar (Byte.char b) = [b] := by
  have hb : b.toNat < 0x80 := h
  have hn := Byte.char_toNat h
  have hs : (Byte.char b).utf8Size = 1 := by
    rw [Char.utf8Size_eq_one_iff, UInt32.le_iff_toNat_le]
    show (Byte.char b).toNat ≤ 127
    omega
  rw [String.utf8EncodeChar_eq_singleton hs]
  congr 1
  apply UInt8.toNat_inj.1
  show (Byte.char b).toNat % 256 = b.toNat
  omega

theorem Byte.isUTF8FirstByte {b : UInt8} (h : b < 0x80) : b.IsUTF8FirstByte := by
  left
  have hbit : b.toNat.testBit 7 = false := Nat.testBit_lt_two_pow h
  apply UInt8.toNat_inj.1
  rw [UInt8.toNat_and]
  show b.toNat &&& 2 ^ 7 = 0
  rw [Nat.and_two_pow, hbit]; rfl

/-- The bytes of an encoding behind its first start no encoding. -/
theorem not_isUTF8FirstByte_of_utf8EncodeChar {c : Char} {front behind : Text} {b : UInt8}
    (h : String.utf8EncodeChar c = front ++ b :: behind) (hf : front ≠ []) :
    ¬ b.IsUTF8FirstByte := by
  intro hb
  have hlen : front.length < (String.utf8EncodeChar c).length := by rw [h]; simp
  have hget : (String.utf8EncodeChar c)[front.length] = b := by simp [h]
  rw [← hget, UInt8.isUTF8FirstByte_getElem_utf8EncodeChar] at hb
  exact hf (List.length_eq_zero_iff.1 hb)

theorem frontChar?_cons_ascii {b : UInt8} (h : b < 0x80) (t : Text) :
    Text.frontChar? (b :: t) = some (Byte.char b) := by
  rw [Text.frontChar?_eq_some_iff, Byte.utf8EncodeChar_char h]
  exact List.prefix_append [b] t

section
variable {b : UInt8} (h : b.IsUTF8FirstByte) (t : Text)
include h

/-- A byte that starts an encoding does not change the character at the front of a text that it
    stands behind. -/
theorem frontChar?_append_cons {a : Text} (ha : a ≠ []) :
    Text.frontChar? (a ++ b :: t) = Text.frontChar? a := by
  ext c
  rw [Text.frontChar?_eq_some_iff, Text.frontChar?_eq_some_iff]
  constructor
  · rintro ⟨behind, hc⟩
    rcases List.append_eq_append_iff.1 hc with ⟨mid, hmid, -⟩ | ⟨mid, hmid, hb⟩
    · exact ⟨mid, hmid.symm⟩
    · cases mid with
      | nil => exact ⟨[], by simpa using hmid⟩
      | cons x mid =>
        obtain ⟨rfl, -⟩ := List.cons.inj hb
        exact absurd h (not_isUTF8FirstByte_of_utf8EncodeChar hmid ha)
  · intro hc
    exact hc.trans (List.prefix_append a (b :: t))

theorem runesFrom_append_cons : ∀ (skip : Nat) (a : Text), skip ≤ a.length →
      Text.runesFrom skip (a ++ b :: t) = Text.runesFrom skip a ++ Text.runes (b :: t)
  | skip, [], hs => by
    obtain rfl : skip = 0 := by simpa using hs
    rfl
  | skip + 1, _ :: a, hs => runesFrom_append_cons skip a (by simpa using hs)
  | 0, x :: a, _ => by
    have hf := frontChar?_append_cons h t (List.cons_ne_nil x a)
    rw [List.cons_append] at hf ⊢
    rw [Text.runesFrom, Text.runesFrom, hf]
    cases hc : Text.frontChar? (x :: a) with
    | none => simp only [runesFrom_append_cons 0 a (Nat.zero_le _), List.cons_append]
    | some c =>
      -- the character lies inside the text, so its bytes are skipped there
      have hle : c.utf8Size ≤ a.length + 1 := by
        have := (Text.frontChar?_eq_some_iff.1 hc).length_le
        simpa using this
      simp only [runesFrom_append_cons (c.utf8Size - 1) a (by omega), List.cons_append]

end

/-- **The reading can be cut in front of an ASCII byte.** -/
theorem runes_append_cons {b : UInt8} (h : b < 0x80) (a t : Text) :
    Text.runes (a ++ b :: t) = Text.runes a ++ Text.runes (b :: t) :=
  runesFrom_append_cons (Byte.isUTF8FirstByte h) t 0 a (Nat.zero_le _)

theorem runes_cons {b : UInt8} (h : b < 0x80) (t : Text) :
    Text.runes (b :: t) = Byte.rune b :: Text.runes t := by
  have hs : (Byte.char b).utf8Size = 1 := by
    rw [← String.length_utf8EncodeChar, Byte.utf8EncodeChar_char h]; rfl
  rw [Text.runes, Text.runesFrom, frontChar?_cons_ascii h]
  simp only [hs]
  rfl

theorem mem_runes_of_mem {b : UInt8} (h : b < 0x80) {t : Text} (hb : b ∈ t) :
    Byte.rune b ∈ t.runes := by
  obtain ⟨front, behind, rfl⟩ := List.append_of_mem hb
  rw [runes_append_cons h, runes_cons h]
  simp

/-! ## The reading of a part of a text -/

theorem runesFrom_eq_runes_drop : ∀ (skip : Nat) (t : Text),
    Text.runesFrom skip t = Text.runes (t.drop skip)
  | _, [] => by simp [Text.runes, Text.runesFrom]
  | 0, _ :: _ => rfl
  | skip + 1, _ :: t => runesFrom_eq_runes_drop skip t

theorem runes_scalar_append (c : Char) (t : Text) :
    Text.runes (String.utf8EncodeChar c ++ t) = .scalar c :: t.runes := by
  have hf : Text.frontChar? (String.utf8EncodeChar c ++ t) = some c :=
    Text.frontChar?_eq_some_iff.2 (List.prefix_append _ t)
  have hlen := String.length_utf8EncodeChar c
  have hpos := c.utf8Size_pos
  cases hc : String.utf8EncodeChar c with
  | nil => rw [hc, List.length_nil] at hlen; omega
  | cons b front =>
    rw [hc, List.length_cons] at hlen
    rw [hc, List.cons_append] at hf
    rw [List.cons_append, Text.runes, Text.runesFrom, hf]
    simp only [runesFrom_eq_runes_drop]
    rw [show c.utf8Size - 1 = front.length by omega, List.drop_left]

/-- The reading can be cut in front of a character. -/
theorem runes_append_scalar (a : Text) (c : Char) (t : Text) :
    Text.runes (a ++ (String.utf8EncodeChar c ++ t)) = a.runes ++ .scalar c :: t.runes := by
  have hne := String.utf8EncodeChar_ne_nil (c := c)
  have hlen : 0 < (String.utf8EncodeChar c).length := List.length_pos_iff.2 hne
  rw [← runes_scalar_append]
  obtain ⟨b, front, hc⟩ := List.exists_cons_of_ne_nil hne
  have hb : b.IsUTF8FirstByte := by
    have hget : (String.utf8EncodeChar c)[0] = b := by simp [hc]
    rw [← hget, UInt8.isUTF8FirstByte_getElem_utf8EncodeChar]
  rw [hc, List.cons_append]
  exact runesFrom_append_cons hb (front ++ t) 0 a (Nat.zero_le _)

theorem runes_stray_cons {b : UInt8} {t : Text} (h : Text.frontChar? (b :: t) = none) :
    Text.runes (b :: t) = .stray b :: t.runes := by
  rw [Text.runes, Text.runesFrom, h]
  rfl

/-- Behind the first unit the reading goes on as the reading of what is left. -/
theorem exists_of_runes_cons {t : Text} {r : Rune} {rs : List Rune} (h : t.runes = r :: rs) :
    ∃ t', t = r.bytes ++ t' ∧ t'.runes = rs := by
  cases t with
  | nil => cases h
  | cons b t =>
    cases hc : Text.frontChar? (b :: t) with
    | none =>
      rw [runes_stray_cons hc] at h
      cases h
      exact ⟨t, rfl, rfl⟩
    | some c =>
      obtain ⟨t', ht⟩ := Text.frontChar?_eq_some_iff.1 hc
      rw [← ht, runes_scalar_append] at h
      cases h
      exact ⟨t', ht.symm, rfl⟩

theorem exists_of_runes_append {rs rs' : List Rune} : ∀ {t : Text}, t.runes = rs ++ rs' →
    ∃ t', t = rs.flatMap Rune.bytes ++ t' ∧ t'.runes = rs' := by
  induction rs with
  | nil => intro t h; exact ⟨t, rfl, h⟩
  | cons r rs ih =>
    intro t h
    obtain ⟨u, rfl, hu⟩ := exists_of_runes_cons h
    obtain ⟨t', rfl, ht'⟩ := ih hu
    exact ⟨t', by simp, ht'⟩

/-- The first units of a text are read the same when nothing stands behind them. -/
theorem runes_flatMap_bytes {rs rs' : List Rune} : ∀ {t : Text}, t.runes = rs ++ rs' →
    Text.runes (rs.flatMap Rune.bytes) = rs := by
  induction rs with
  | nil => intro t _; rfl
  | cons r rs ih =>
    intro t h
    obtain ⟨u, rfl, hu⟩ := exists_of_runes_cons h
    rw [List.flatMap_cons]
    cases r with
    | scalar c => rw [Rune.bytes, runes_scalar_append, ih hu]
    | stray b =>
      -- a character here would be one in the whole text as well
      have hnone : Text.frontChar? (b :: rs.flatMap Rune.bytes) = none := by
        obtain ⟨t', ht', -⟩ := exists_of_runes_append hu
        rw [Option.eq_none_iff_forall_ne_some]
        intro c hc
        have hpre := Text.frontChar?_eq_some_iff.1 hc
        have hfront : Text.frontChar? (b :: u) = some c := by
          rw [ht', Text.frontChar?_eq_some_iff]
          exact hpre.trans ⟨t', rfl⟩
        obtain ⟨v, hv⟩ := Text.frontChar?_eq_some_iff.1 hfront
        rw [Rune.bytes, List.singleton_append, ← hv, runes_scalar_append] at h
        cases h
      rw [Rune.bytes, List.singleton_append, runes_stray_cons hnone, ih hu]

/-! ## Tokens on either side of a blank or a brace -/

namespace Token

/-- The tokens that the units of a source are cut into. -/
def ofRunes (rs : List Rune) : List Token := consWord (cut rs).1 (cut rs).2

theorem consWord_append (word : Text) (toks toks' : List Token) :
    consWord word (toks ++ toks') = consWord word toks ++ toks' := by
  unfold consWord; split <;> rfl

theorem cut_append_sep {r : Rune} (h : r.isBlank = true ∨ r.isBrace = true) (rs' : List Rune) :
    ∀ rs : List Rune, cut (rs ++ r :: rs') =
      ((cut rs).1, (cut rs).2 ++ ((if r.isBlank then [] else [r.bytes]) ++ ofRunes rs'))
  | [] => by
    rw [List.nil_append, cut]
    by_cases hb : r.isBlank = true
    · simp [hb, cut, ofRunes]
    · simp [hb, h.resolve_left hb, cut, ofRunes]
  | x :: rs => by
    rw [List.cons_append, cut, cut, cut_append_sep h rs' rs]
    dsimp only
    split
    · rw [consWord_append]
    · split
      · rw [consWord_append]; rfl
      · rfl

/-- A blank or a brace parts the tokens, and a brace is a token itself. -/
theorem ofRunes_append_sep {r : Rune} (h : r.isBlank = true ∨ r.isBrace = true)
    (rs rs' : List Rune) : ofRunes (rs ++ r :: rs') =
      ofRunes rs ++ ((if r.isBlank then [] else [r.bytes]) ++ ofRunes rs') := by
  rw [ofRunes, cut_append_sep h, consWord_append]; rfl

theorem cut_of_forall {rs : List Rune} (h : ∀ r ∈ rs, r.isBlank = false ∧ r.isBrace = false) :
    cut rs = (rs.flatMap Rune.bytes, []) := by
  induction rs with
  | nil => rfl
  | cons r rs ih =>
    obtain ⟨h1, h2⟩ := h r (by simp)
    simp [cut, h1, h2, ih fun x hx => h x (by simp [hx])]

theorem ofRunes_of_forall {rs : List Rune}
    (h : ∀ r ∈ rs, r.isBlank = false ∧ r.isBrace = false) :
    ofRunes rs = consWord (rs.flatMap Rune.bytes) [] := by
  rw [ofRunes, cut_of_forall h]

end Token

theorem tokens_eq (t : Text) : t.tokens = Token.ofRunes t.runes := rfl

/-- The tokens on either side of an ASCII blank. -/
theorem tokens_append_blank {b : UInt8} (h : b < 0x80) (hb : (Byte.rune b).isBlank = true)
    (s t : Text) : (s ++ b :: t).tokens = s.tokens ++ t.tokens := by
  rw [tokens_eq, runes_append_cons h, runes_cons h, Token.ofRunes_append_sep (Or.inl hb), if_pos hb]
  rfl

/-- The tokens on either side of a brace. -/
theorem tokens_append_brace {b : UInt8} (hb : b = Byte.lbrace ∨ b = Byte.rbrace) (s t : Text) :
    (s ++ b :: t).tokens = s.tokens ++ [b] :: t.tokens := by
  have h : b < 0x80 ∧ (Byte.rune b).isBlank = false ∧ (Byte.rune b).isBrace = true := by
    rcases hb with rfl | rfl <;> decide
  obtain ⟨h, hblank, hbrace⟩ := h
  rw [tokens_eq, runes_append_cons h, runes_cons h, Token.ofRunes_append_sep (Or.inr hbrace),
    hblank, Byte.rune, Rune.bytes, Byte.utf8EncodeChar_char h]
  rfl

/-! ## Words of solid units -/

/-- An ASCII byte that is neither a blank nor a brace. -/
def Byte.IsSolid (b : UInt8) : Prop :=
  b < 0x80 ∧ (Byte.rune b).isBlank = false ∧ (Byte.rune b).isBrace = false

/-- An ASCII byte that is a blank or a brace. -/
def Byte.IsBreak (b : UInt8) : Prop :=
  b < 0x80 ∧ ((Byte.rune b).isBlank || (Byte.rune b).isBrace) = true

instance (b : UInt8) : Decidable (Byte.IsSolid b) :=
  inferInstanceAs (Decidable (b < 0x80 ∧ _ = false ∧ _ = false))

instance (b : UInt8) : Decidable (Byte.IsBreak b) :=
  inferInstanceAs (Decidable (b < 0x80 ∧ _ = true))

/-- A text without blanks and braces. -/
def Text.IsSolid (t : Text) : Prop := ∀ r ∈ t.runes, r.isBlank = false ∧ r.isBrace = false

instance (t : Text) : Decidable t.IsSolid :=
  inferInstanceAs (Decidable (∀ r ∈ t.runes, r.isBlank = false ∧ r.isBrace = false))

namespace Text.IsSolid

theorem nil : Text.IsSolid [] := by intro r hr; exact absurd hr List.not_mem_nil

/-- Two solid texts with a solid ASCII byte between them are solid. -/
theorem append_cons {a t : Text} (ha : a.IsSolid) (ht : t.IsSolid) {b : UInt8}
    (hb : Byte.IsSolid b) : Text.IsSolid (a ++ b :: t) := by
  intro r hr
  rw [runes_append_cons hb.1, runes_cons hb.1] at hr
  rcases List.mem_append.1 hr with hr | hr
  · exact ha r hr
  · rcases List.mem_cons.1 hr with rfl | hr
    · exact hb.2
    · exact ht r hr

theorem of_ascii {t : Text} (h : ∀ b ∈ t, Byte.IsSolid b) : t.IsSolid := by
  induction t with
  | nil => exact nil
  | cons b t ih =>
    exact Text.IsSolid.append_cons nil (ih fun x hx => h x (by simp [hx])) (h b (by simp))

/-- A solid text has no ASCII byte that is a blank or a brace. -/
theorem not_mem {t : Text} (ht : t.IsSolid) {b : UInt8} (hb : Byte.IsBreak b) : b ∉ t := by
  intro hm
  obtain ⟨h1, h2⟩ := ht _ (mem_runes_of_mem hb.1 hm)
  have := hb.2
  rw [h1, h2] at this
  cases this

theorem tokens {t : Text} (ht : t.IsSolid) (hne : t ≠ []) : t.tokens = [t] := by
  rw [tokens_eq, Token.ofRunes_of_forall ht, Text.flatMap_bytes_runes, Token.consWord, if_neg hne]

end Text.IsSolid

namespace Token

/-- The texts that a source can have as tokens. -/
def IsToken (t : Text) : Prop := t = lbrace ∨ t = rbrace ∨ t ≠ [] ∧ t.IsSolid

theorem IsToken.tokens {t : Text} (h : IsToken t) : Text.tokens t = [t] := by
  rcases h with rfl | rfl | ⟨hne, hs⟩
  · decide
  · decide
  · exact hs.tokens hne

/-- A run of units of `rs` without blanks and braces, and its bytes. -/
def IsRun (rs : List Rune) (t : Text) : Prop :=
  ∃ ws, ws <:+: rs ∧ (∀ r ∈ ws, r.isBlank = false ∧ r.isBrace = false) ∧
    t = ws.flatMap Rune.bytes

theorem IsRun.isSolid {source t : Text} (h : IsRun source.runes t) : t.IsSolid := by
  obtain ⟨ws, ⟨front, back, hw⟩, hs, rfl⟩ := h
  rw [List.append_assoc] at hw
  obtain ⟨u, -, hu⟩ := exists_of_runes_append hw.symm
  rwa [Text.IsSolid, runes_flatMap_bytes hu]

theorem IsRun.cons {rs : List Rune} {t : Text} (h : IsRun rs t) (r : Rune) : IsRun (r :: rs) t := by
  obtain ⟨ws, hi, h⟩ := h
  exact ⟨ws, hi.trans (List.suffix_cons r rs).isInfix, h⟩

theorem bytes_of_isBrace {r : Rune} (h : r.isBrace = true) :
    r.bytes = lbrace ∨ r.bytes = rbrace := by
  simp only [Rune.isBrace, Bool.or_eq_true, beq_iff_eq] at h
  rcases h with rfl | rfl
  · exact Or.inl (by decide)
  · exact Or.inr (by decide)

/-- What the units `rs` can be cut into. -/
def IsPiece (rs : List Rune) (tok : Token) : Prop :=
  tok = lbrace ∨ tok = rbrace ∨ tok ≠ [] ∧ IsRun rs tok

theorem isPiece_of_mem_consWord {rs : List Rune} {word : Text} {toks : List Token}
    (hw : IsRun rs word) (ht : ∀ tok ∈ toks, IsPiece rs tok) :
    ∀ tok ∈ consWord word toks, IsPiece rs tok := by
  intro tok h
  unfold consWord at h
  split at h
  · exact ht tok h
  · rename_i hne
    rcases List.mem_cons.1 h with rfl | h
    · exact Or.inr (Or.inr ⟨hne, hw⟩)
    · exact ht tok h

/-- The first word is a run from the first unit on, and the tokens behind it are pieces. -/
theorem isPiece_of_mem_cut (rs : List Rune) :
    (∃ ws, ws <+: rs ∧ (∀ r ∈ ws, r.isBlank = false ∧ r.isBrace = false) ∧
      (cut rs).1 = ws.flatMap Rune.bytes) ∧ ∀ tok ∈ (cut rs).2, IsPiece rs tok := by
  induction rs with
  | nil => exact ⟨⟨[], by simp [cut]⟩, by simp [cut]⟩
  | cons r rs ih =>
    obtain ⟨⟨ws, hp, hs, hw⟩, htoks⟩ := ih
    have hrun : IsRun rs (cut rs).1 := ⟨ws, hp.isInfix, hs, hw⟩
    have htoks' : ∀ tok ∈ (cut rs).2, IsPiece (r :: rs) tok := fun tok ht =>
      (htoks tok ht).imp_right (Or.imp_right fun h => ⟨h.1, h.2.cons r⟩)
    have hcons := isPiece_of_mem_consWord (hrun.cons r) htoks'
    rw [cut]
    dsimp only
    split
    · exact ⟨⟨[], by simp⟩, hcons⟩
    · rename_i hb
      split
      · rename_i hc
        refine ⟨⟨[], by simp⟩, fun tok ht => ?_⟩
        rcases List.mem_cons.1 ht with rfl | ht
        · exact (bytes_of_isBrace hc).imp_right Or.inl
        · exact hcons tok ht
      · rename_i hc
        refine ⟨⟨r :: ws, (List.prefix_cons_inj r).2 hp, ?_, by simp [hw]⟩, htoks'⟩
        intro x hx
        rcases List.mem_cons.1 hx with rfl | hx
        · exact ⟨by simpa using hb, by simpa using hc⟩
        · exact hs x hx

/-- The tokens of a source are such texts. -/
theorem isToken_of_mem_tokens {source : Text} {tok : Token} (h : tok ∈ source.tokens) :
    IsToken tok := by
  obtain ⟨⟨ws, hp, hs, hw⟩, htoks⟩ := isPiece_of_mem_cut source.runes
  have hpiece := isPiece_of_mem_consWord ⟨ws, hp.isInfix, hs, hw⟩ htoks tok h
  exact hpiece.imp_right (Or.imp_right fun h => ⟨h.1, h.2.isSolid⟩)

theorem unwords_cons_cons (w w' : Token) (ws : List Token) :
    unwords (w :: w' :: ws) = w ++ Byte.space :: unwords (w' :: ws) := by
  simp [unwords, Text.join]

/-- **Tokens put together with spaces come apart again.** -/
theorem tokens_unwords : ∀ {ws : List Token}, (∀ w ∈ ws, IsToken w) → (unwords ws).tokens = ws
  | [], _ => by decide
  | [w], h => (h w (by simp)).tokens
  | w :: w' :: ws, h => by
    rw [unwords_cons_cons, tokens_append_blank (by decide) (by decide), (h w (by simp)).tokens,
      tokens_unwords fun v hv => h v (by simp [hv])]
    rfl

end Token

end BlockAsm
