/-
  BlockAsm: what layout does to the tokens of a text.

  Line ends, spacing and blank indentation part tokens and are none themselves, so the tokens of
  a text are those of its lines (`tokens_lines`), and indenting keeps them (`tokens_indent`).
  Tidying keeps them where no brace and no terminator is deleted (`tokens_tidy`).
-/
import BlockAsm.Proofs.Layout
import BlockAsm.Proofs.Tokens

namespace BlockAsm

open Layout
open Output (Closed)

/-! ## Blanks -/

theorem Token.flatten_consWord (word : Text) (toks : List Token) :
    (consWord word toks).flatten = word ++ toks.flatten := by
  unfold consWord
  split
  · rename_i h; simp [h]
  · simp

/-- The tokens have all bytes of a text but those of its blanks. -/
theorem flatten_tokens (t : Text) :
    t.tokens.flatten = (t.runes.filter fun r => !r.isBlank).flatMap Rune.bytes := by
  have hcut : ∀ rs : List Rune, (Token.cut rs).1 ++ (Token.cut rs).2.flatten =
      (rs.filter fun r => !r.isBlank).flatMap Rune.bytes := by
    intro rs
    induction rs with
    | nil => rfl
    | cons r rs ih =>
      rw [Token.cut]
      dsimp only
      split
      · rename_i hb
        rw [Token.flatten_consWord, List.nil_append, ih, List.filter_cons_of_neg (by simp [hb])]
      · rename_i hb
        rw [List.filter_cons_of_pos (by simp [hb]), List.flatMap_cons, ← ih]
        split
        · rw [List.flatten_cons, Token.flatten_consWord, List.nil_append]
        · rw [List.append_assoc]
  rw [tokens_eq, Token.ofRunes, Token.flatten_consWord, hcut]

/-- An ASCII byte that is no blank stands in a token. -/
theorem exists_mem_tokens {b : UInt8} (hb : b < 0x80) (hn : (Byte.rune b).isBlank = false)
    {t : Text} (h : b ∈ t) : ∃ tok ∈ t.tokens, b ∈ tok := by
  rw [← List.mem_flatten, flatten_tokens, List.mem_flatMap]
  refine ⟨Byte.rune b, List.mem_filter.2 ⟨mem_runes_of_mem hb h, by simp [hn]⟩, ?_⟩
  rw [Byte.rune, Rune.bytes, Byte.utf8EncodeChar_char hb]
  exact List.mem_singleton.2 rfl

/-- A text of blanks. -/
def Text.IsBlank (t : Text) : Prop := ∀ r ∈ t.runes, r.isBlank = true

instance (t : Text) : Decidable t.IsBlank :=
  inferInstanceAs (Decidable (∀ r ∈ t.runes, r.isBlank = true))

theorem Token.ofRunes_append_of_blank {rs : List Rune} (h : ∀ r ∈ rs, r.isBlank = true)
    (rs' : List Rune) : ofRunes (rs ++ rs') = ofRunes rs' := by
  induction rs with
  | nil => rfl
  | cons r rs ih =>
    have hb := h r (by simp)
    have hcut := ofRunes_append_sep (Or.inl hb) [] (rs ++ rs')
    rw [List.nil_append, if_pos hb] at hcut
    rw [List.cons_append, hcut, ih fun x hx => h x (by simp [hx])]
    rfl

namespace Text.IsBlank

variable {w : Text} (h : w.IsBlank)
include h

theorem runes_append (t : Text) : (w ++ t).runes = w.runes ++ t.runes := by
  have hrunes : ∀ rs : List Rune, (∀ r ∈ rs, r.isBlank = true) →
      Text.runes (rs.flatMap Rune.bytes ++ t) = rs ++ t.runes := by
    intro rs hrs
    induction rs with
    | nil => rfl
    | cons r rs ih =>
      cases r with
      | stray b => cases hrs (.stray b) (by simp)
      | scalar c =>
        rw [List.flatMap_cons, List.append_assoc, Rune.bytes, runes_scalar_append,
          ih fun x hx => hrs x (by simp [hx]), List.cons_append]
  rw [← hrunes _ h, Text.flatMap_bytes_runes]

/-- Blanks in front of a text add no token. -/
theorem tokens_append (t : Text) : (w ++ t).tokens = t.tokens := by
  rw [tokens_eq, h.runes_append, Token.ofRunes_append_of_blank h]
  rfl

/-- Blanks begin with a blank character. -/
theorem exists_append (hne : w ≠ []) :
    ∃ c w', w = String.utf8EncodeChar c ++ w' ∧ BlockAsm.isBlank c = true ∧ IsBlank w' := by
  cases hr : w.runes with
  | nil =>
    have := Text.flatMap_bytes_runes w
    rw [hr] at this
    exact absurd this.symm hne
  | cons r rs =>
    have hb := h r (by simp [hr])
    obtain ⟨w', hw, hr'⟩ := exists_of_runes_cons hr
    cases r with
    | stray b => cases hb
    | scalar c => exact ⟨c, w', hw, hb, fun x hx => h x (by simp [hr, ← hr', hx])⟩

theorem append_runes (a : Text) : (a ++ w).runes = a.runes ++ w.runes := by
  by_cases hne : w = []
  · rw [hne]
    simp [Text.runes, Text.runesFrom]
  · obtain ⟨c, w', rfl, -, -⟩ := h.exists_append hne
    rw [runes_append_scalar, runes_scalar_append]

/-- The tokens on either side of blanks. -/
theorem tokens_between (hne : w ≠ []) (a t : Text) :
    (a ++ (w ++ t)).tokens = a.tokens ++ t.tokens := by
  obtain ⟨c, w', rfl, hc, hw'⟩ := h.exists_append hne
  have hb : (Rune.scalar c).isBlank = true := hc
  rw [List.append_assoc, tokens_eq, runes_append_scalar, Token.ofRunes_append_sep (Or.inl hb),
    if_pos hb, List.nil_append, ← tokens_eq, ← tokens_eq, hw'.tokens_append]

/-- An ASCII byte that is no blank does not stand in blanks. -/
theorem not_mem {b : UInt8} (hb : b < 0x80) (hn : (Byte.rune b).isBlank = false) : b ∉ w := by
  intro hm
  rw [h _ (mem_runes_of_mem hb hm)] at hn
  cases hn

end Text.IsBlank

/-! ## Lines -/

@[simp]
theorem tokens_nil : Text.tokens [] = [] := rfl

theorem tokens_append_newline (a b : Text) :
    (a ++ Byte.newline :: b).tokens = a.tokens ++ b.tokens :=
  tokens_append_blank (by decide) (by decide) a b

theorem tokens_append_space (a b : Text) :
    (a ++ Byte.space :: b).tokens = a.tokens ++ b.tokens :=
  tokens_append_blank (by decide) (by decide) a b

theorem tokens_unlines : ∀ ls : List Text, (unlines ls).tokens = ls.flatMap Text.tokens
  | [] => by decide
  | [l] => by simp [unlines, Text.join]
  | l :: k :: ls => by
    have hcons : unlines (l :: k :: ls) = l ++ Byte.newline :: unlines (k :: ls) := by
      simp [unlines, Text.join]
    rw [hcons, tokens_append_newline, tokens_unlines (k :: ls)]
    rfl

/-- The tokens of a text are those of its lines. -/
theorem tokens_lines (t : Text) : t.tokens = (lines t).flatMap Text.tokens := by
  rw [← tokens_unlines, unlines_lines]

theorem tokens_finished (ls : List Text) : (finished ls).tokens = ls.flatMap Text.tokens := by
  induction ls with
  | nil => decide
  | cons l ls ih => rw [finished_cons, tokens_append_newline, ih, List.flatMap_cons]

theorem Output.Closed.tokens_append {a : Text} (h : Closed a) (b : Text) :
    (a ++ b).tokens = a.tokens ++ b.tokens := by
  rcases Output.closed_iff.1 h with rfl | ⟨front, rfl⟩
  · rfl
  · have hf := tokens_append_newline front []
    rw [List.append_assoc, List.singleton_append, tokens_append_newline, hf]
    simp

theorem tokens_dropEnd_newline (t : Text) : (t.dropEnd Byte.newline).tokens = t.tokens := by
  by_cases h : t.endsIn Byte.newline = true
  · obtain ⟨front, rfl⟩ := Text.endsIn_iff.1 h
    rw [Text.dropEnd_append_singleton, tokens_append_newline, tokens_nil, List.append_nil]
  · rw [Text.dropEnd, if_neg h]

theorem tokens_closeLine (t : Text) : (Output.closeLine t).tokens = t.tokens := by
  unfold Output.closeLine
  split
  · rfl
  · rw [tokens_append_newline, tokens_nil, List.append_nil]

/-! ## Tidying and indenting -/

theorem tokens_append_spacing {t : Text} : ∀ {s : Text}, IsSpacing s →
    (t ++ s).tokens = t.tokens := by
  have hblank : ∀ b, Byte.isSpacing b = true → b < 0x80 ∧ (Byte.rune b).isBlank = true := by
    intro b hb
    rcases Bool.or_eq_true _ _ ▸ hb with h | h <;> rw [beq_iff_eq.1 h] <;> decide
  intro s h
  induction s generalizing t with
  | nil => rw [List.append_nil]
  | cons b s ih =>
    obtain ⟨hlt, hb⟩ := hblank b (h b (by simp))
    have hs := @ih [] fun x hx => h x (by simp [hx])
    rw [List.nil_append] at hs
    rw [tokens_append_blank hlt hb, hs, tokens_nil, List.append_nil]

theorem tokens_trimRight (t : Text) : t.trimRight.tokens = t.tokens := by
  obtain ⟨-, gap, ht, hgap⟩ := trimRight_eq_iff.1 (Eq.refl t.trimRight)
  conv_rhs => rw [ht]
  exact (tokens_append_spacing hgap).symm

/-- A byte that tidying deletes wherever it stands, or at the end of a line. -/
def Layout.isLoose (b : UInt8) : Bool := Byte.isBrace b || b == Byte.semicolon

theorem tokens_tidied {l : Text} (h : ∀ b ∈ l, isLoose b = false) :
    (tidied l).tokens = l.tokens := by
  have hd : dropBraces l = l := dropBraces_of_forall fun b hb => (Bool.or_eq_false_iff.1 (h b hb)).1
  have ht : ¬ Terminated l := by
    rintro ⟨front, gap, rfl, -⟩
    exact absurd (h Byte.semicolon (by simp)) (by decide)
  rw [tidied, hd, tidyLine_of_not_terminated ht, tokens_trimRight]

/-- Tidying a text without braces and terminators keeps its tokens. -/
theorem tokens_tidy {t : Text} (h : ∀ b ∈ t, isLoose b = false) : (tidy t).tokens = t.tokens := by
  have hmem : ∀ l ∈ lines t, ∀ b ∈ l, isLoose b = false := by
    intro l hl b hb
    have hf : b ∈ finished (lines t) := List.mem_flatMap.2 ⟨l, hl, List.mem_append_left _ hb⟩
    rw [finished_lines, List.mem_append, List.mem_singleton] at hf
    rcases hf with hf | rfl
    · exact h b hf
    · decide
  rw [tokens_lines (tidy t), lines_tidy, tokens_lines t, List.flatMap_map, List.flatMap_def,
    List.flatMap_def, List.map_congr_left fun l hl => tokens_tidied (hmem l hl)]

theorem tokens_indent {i : Text} (hi : i.IsBlank) (t : Text) : (indent i t).tokens = t.tokens := by
  have hline : ∀ l, (indentLine i l).tokens = l.tokens := by
    intro l
    unfold indentLine
    split
    · rename_i h; rw [h]
    · exact hi.tokens_append l
  rw [indent, tokens_unlines, List.flatMap_map, tokens_lines t]
  simp only [hline]

end BlockAsm
