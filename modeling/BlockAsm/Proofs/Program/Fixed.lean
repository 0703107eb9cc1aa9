/-
  BlockAsm: texts that are lowered to their own tokens.

  * `IsFixed`: a token that is read as a word of the target and is its own target form;
  * `IsPlain.append_singleton`, `isPlain_cons`, `Atom.isFixed_direct`: what names, operands and
    kinds become is fixed;
  * `IsFixedText.lower_eq`: a text of fixed tokens is lowered to these tokens on one line.
-/
import BlockAsm.Proofs.Program.Correctness
import BlockAsm.Proofs.Spacing

namespace BlockAsm

open Layout Lowering

namespace Program

/-! ## Fixed tokens -/

/-- A token that is passed on as it is: `equ`, or an atom that is its own target form. -/
def IsFixed (tok : Token) : Prop := tok = Form.equWord ∨ ∃ a : Atom, a.text = tok ∧ a.direct = tok

theorem IsPlain.isFixed {t : Text} (h : IsPlain t) : IsFixed t := Or.inr ⟨.word ⟨t, h⟩, rfl, rfl⟩

namespace IsFixed

variable {tok : Token} (h : IsFixed tok)
include h

theorem solid : tok ≠ [] ∧ tok.IsSolid := by
  rcases h with rfl | ⟨a, rfl, -⟩
  · decide
  · exact ⟨a.bare.ne_nil, a.bare.solid⟩

theorem isToken : Token.IsToken tok := Or.inr (Or.inr h.solid)

theorem ne_arrow : tok ≠ Token.arrow := by
  rcases h with rfl | ⟨a, rfl, -⟩
  · decide
  · rintro he
    exact a.bare.notReserved (he ▸ by decide)

theorem not_isLoose : ∀ b ∈ tok, isLoose b = false := by
  intro b hb
  rcases h with rfl | ⟨a, rfl, -⟩
  · have hequ : Form.equWord.all (fun b => !isLoose b) = true := by decide
    simpa using List.all_eq_true.1 hequ b hb
  · have hne : ∀ x : UInt8, x ∉ a.text → b ≠ x := fun x hx he => hx (he ▸ hb)
    have h1 := hne Byte.lbrace (a.bare.solid.not_mem (by decide))
    have h2 := hne Byte.rbrace (a.bare.solid.not_mem (by decide))
    have h3 := hne Byte.semicolon (a.bare.not_mem (by decide))
    simp [isLoose, Byte.isBrace, h1, h2, h3]

theorem isNeat : IsNeat tok := by
  rcases h with rfl | ⟨a, rfl, -⟩
  · decide
  · exact a.bare.isNeat

end IsFixed

/-! ## What operands and names become -/

theorem IsPlain.not_mark {t : Text} (h : IsPlain t) (r : Radix) : ¬ r.mark <+: t :=
  (Literal.isNumeric_eq_false_iff.1 h.notNumeric).1 r

theorem isNumeric_eq_false {t : Text} {b : UInt8} (hb : b ∈ t) (hp : Numeral.isPart b = false)
    (hm : ∀ r : Radix, ¬ r.mark <+: t) : Literal.isNumeric t = false := by
  refine Literal.isNumeric_eq_false_iff.2 ⟨hm, fun v hv => ?_⟩
  have hpart := (Number.mk t v (Literal.value_eq_ok_iff.2 hv)).isPart_text.2 b hb
  rw [hp] at hpart
  cases hpart

theorem not_prefix_append_singleton {t p : Text} {b : UInt8} (hp : b ∉ p) (ht : ¬ p <+: t) :
    ¬ p <+: t ++ [b] := by
  rw [List.prefix_concat_iff, not_or]
  exact ⟨fun he => hp (by rw [he]; simp), ht⟩

section
variable {t : Text} {b : UInt8} (hb : b = Byte.comma ∨ b = 0x3A)
include hb

theorem IsBare.append_singleton (h : IsBare t) : IsBare (t ++ [b]) := by
  have hsolid : Byte.IsSolid b := by rcases hb with rfl | rfl <;> decide
  refine ⟨by simp, h.solid.append_cons .nil hsolid, ?_, ?_, ?_⟩
  · intro x hx
    rcases List.mem_append.1 hx with hx | hx
    · exact h.unmarked x hx
    · rw [List.mem_singleton.1 hx]
      rcases hb with rfl | rfl <;> decide
  · have hn := h.notComment
    rw [Bool.eq_false_iff, ne_eq, List.isPrefixOf_iff_prefix] at hn ⊢
    exact not_prefix_append_singleton (by rcases hb with rfl | rfl <;> decide) hn
  · have hr : ∀ r ∈ reserved, b ∉ r := by rcases hb with rfl | rfl <;> decide
    exact fun hm => hr _ hm (by simp)

/-- A bare text with a comma or a colon behind it is plain, unless it has a base mark. -/
theorem IsBare.isPlain_append (h : IsBare t) (ha : Byte.ampersand ∉ t)
    (hm : ∀ r : Radix, ¬ r.mark <+: t) : IsPlain (t ++ [b]) := by
  refine ⟨h.append_singleton hb, ?_, isNumeric_eq_false (b := b) (by simp) ?_ fun r => ?_⟩
  · have hne : Byte.ampersand ≠ b := by rcases hb with rfl | rfl <;> decide
    simp [ha, hne]
  · rcases hb with rfl | rfl <;> decide
  · exact not_prefix_append_singleton (by rcases hb with rfl | rfl <;> cases r <;> decide) (hm r)

/-- A plain text with a comma or a colon behind it is plain. -/
theorem IsPlain.append_singleton (h : IsPlain t) : IsPlain (t ++ [b]) :=
  h.toIsBare.isPlain_append hb h.noAmpersand h.not_mark

end

/-- An opening bracket or a dot makes a plain text of any text without marks. -/
theorem isPlain_cons {b : UInt8} (hb : b = 0x5B ∨ b = 0x2E) {t : Text} (hs : t.IsSolid)
    (hu : ∀ x ∈ t, x ∉ marks ∧ x ≠ Byte.ampersand) : IsPlain (b :: t) := by
  have hsolid : Byte.IsSolid b := by rcases hb with rfl | rfl <;> decide
  have hmem : ∀ x ∈ b :: t, x ∉ marks ∧ x ≠ Byte.ampersand := by
    intro x hx
    rcases List.mem_cons.1 hx with rfl | hx
    · rcases hb with rfl | rfl <;> decide
    · exact hu x hx
  refine ⟨⟨by simp, .append_cons .nil hs hsolid, fun x hx => (hmem x hx).1, ?_, ?_⟩, ?_, ?_⟩
  · rcases hb with rfl | rfl <;> rfl
  · have hr : ∀ r ∈ reserved, r.head? ≠ some b := by rcases hb with rfl | rfl <;> decide
    exact fun hm => hr _ hm rfl
  · exact fun hm => (hmem _ hm).2 rfl
  · refine isNumeric_eq_false (b := b) (by simp) ?_ ?_
    · rcases hb with rfl | rfl <;> decide
    · intro r hm
      have hr : r.mark.head? ≠ some b := by rcases hb with rfl | rfl <;> cases r <;> decide
      obtain ⟨digits, hd⟩ := hm
      refine hr ?_
      cases r <;> exact congrArg List.head? hd

theorem Number.value_decimal (n : Number) : Literal.value n.decimal = .ok n.value :=
  Literal.value_ofInt n.value

/-- The target form of an operand is fixed: a number is in base ten, and the brackets
    of a memory operand mean nothing. -/
theorem Atom.isFixed_direct : ∀ a : Atom, IsFixed a.direct
  | word w => w.plain.isFixed
  | number n => Or.inr ⟨.number ⟨n.decimal, n.value, n.value_decimal⟩, rfl, rfl⟩
  | address w => by
    refine IsPlain.isFixed (isPlain_cons (Or.inl rfl) (t := w.text ++ utf8 "]") ?_ ?_)
    · exact w.plain.solid.append_cons .nil (by decide)
    · intro x hx
      rcases List.mem_append.1 hx with hx | hx
      · exact ⟨w.plain.unmarked x hx, fun he => w.plain.noAmpersand (he ▸ hx)⟩
      · rw [List.mem_singleton.1 hx]; decide

theorem Atom.target_empty : ∀ a : Atom, a.target .empty = a.direct
  | word _ | number _ | address _ => rfl

theorem Atom.isFixed_target (a : Atom) : IsFixed (a.target .empty) :=
  a.target_empty ▸ a.isFixed_direct

theorem Env.child_empty (opts : Options) : Env.empty.child opts = .empty := ite_self _

/-! ### Kinds -/

/-- No run of the lower-case mapping ends in a blank or a brace. -/
theorem solid_toLowerChar {c : Char} (hb : isBlank c = false)
    (hc : (Rune.scalar c).isBrace = false) :
    isBlank (toLowerChar c) = false ∧ (Rune.scalar (toLowerChar c)).isBrace = false := by
  have hruns : ∀ r ∈ CaseRun.lowerRuns, ∀ n ∈ ([(0x09, 0x0D), (0x20, 0x20), (0x7B, 0x7D),
      (0x85, 0x85), (0xA0, 0xA0), (0x1680, 0x1680), (0x2000, 0x200A), (0x2028, 0x2029),
      (0x202F, 0x202F), (0x205F, 0x205F), (0x3000, 0x3000)] : List (Int × Int)),
      r.last + r.shift < n.1 ∨ n.2 < r.first + r.shift := by decide +kernel
  have hbrace : ∀ d : Char, d.toNat ≠ 0x7B → d.toNat ≠ 0x7D → (Rune.scalar d).isBrace = false := by
    intro d hl hr
    rw [Rune.isBrace, Bool.or_eq_false_iff, beq_eq_false_iff_ne, beq_eq_false_iff_ne]
    exact ⟨fun he => hl (Rune.scalar.inj he ▸ rfl), fun he => hr (Rune.scalar.inj he ▸ rfl)⟩
  rcases toLowerChar_cases c with h | h | ⟨r, hr, h⟩
  · rw [h]; exact ⟨hb, hc⟩
  · exact ⟨by simp [isBlank, h], hbrace _ (by omega) (by omega)⟩
  · have hout := hruns r hr
    simp only [List.forall_mem_cons, List.not_mem_nil, false_imp_iff, implies_true] at hout
    refine ⟨?_, hbrace _ (by omega) (by omega)⟩
    simp only [isBlank, Bool.or_eq_false_iff, Bool.and_eq_false_iff, decide_eq_false_iff_not,
      beq_eq_false_iff_ne]
    omega

theorem runes_toLower (t : Text) : t.toLower.runes = t.runes.map Rune.toLower := by
  have h : ∀ rs : List Rune, Text.runes (rs.flatMap fun r => r.toLower.bytes) =
      rs.map Rune.toLower := by
    intro rs
    induction rs with
    | nil => rfl
    | cons r rs ih =>
      rw [List.flatMap_cons, List.map_cons, ← ih]
      obtain ⟨c, hc⟩ : ∃ c, r.toLower = .scalar c := by cases r <;> exact ⟨_, rfl⟩
      rw [hc]
      exact runes_scalar_append c _
  exact h t.runes

/-- Lower case makes no blank and no brace. -/
theorem solid_toLower {t : Text} (h : t.IsSolid) : t.toLower.IsSolid := by
  intro r' hr'
  rw [runes_toLower] at hr'
  obtain ⟨r, hr, rfl⟩ := List.mem_map.1 hr'
  obtain ⟨hb, hc⟩ := h r hr
  cases r with
  | stray x =>
    have hx : (Rune.scalar (Char.ofNat 0xFFFD)).isBlank = false ∧
        (Rune.scalar (Char.ofNat 0xFFFD)).isBrace = false := by decide
    exact hx
  | scalar c => exact solid_toLowerChar hb hc

theorem Word.isFixed_kind (w : Word) : IsFixed (utf8 "." ++ w.text.toLower) := by
  have hlow : ∀ b : UInt8, b.toNat = 0 ∨ 0x61 ≤ b.toNat ∧ b.toNat ≤ 0x7A →
      b ∉ marks ∧ b ≠ Byte.ampersand := Byte.forall_of_lt (by decide +kernel)
  have hhigh : ∀ b : UInt8, ¬ b < 0x80 → b ∉ marks ∧ b ≠ Byte.ampersand :=
    Byte.forall_of_lt (by decide +kernel)
  refine IsPlain.isFixed (isPlain_cons (Or.inr rfl) (solid_toLower w.plain.solid) ?_)
  intro b hb
  by_cases hA : b < 0x80
  · rcases cases_of_mem_toLower hA hb with hm | h
    · exact ⟨w.plain.unmarked b hm, fun he => w.plain.noAmpersand (he ▸ hm)⟩
    · exact hlow b h
  · exact hhigh b hA

/-! ## Texts of fixed tokens -/

/-- A text of fixed tokens. -/
def IsFixedText (t : Text) : Prop := ∀ tok ∈ t.tokens, IsFixed tok

theorem flatMap_space : ∀ {ws : List Text}, ws ≠ [] →
    ws.flatMap (· ++ [Byte.space]) = Token.unwords ws ++ [Byte.space]
  | [], h => absurd rfl h
  | [w], _ => by simp [Token.unwords, Text.join]
  | w :: w' :: ws, _ => by
    rw [List.flatMap_cons, flatMap_space (by simp), Token.unwords_cons_cons]
    simp

namespace IsFixedText

theorem of_unwords {ws : List Token} (h : ∀ w ∈ ws, IsFixed w) :
    IsFixedText (Token.unwords ws) := by
  rw [IsFixedText, Token.tokens_unwords fun w hw => (h w hw).isToken]
  exact h

theorem of_flatMap {ws : List Token} (h : ∀ w ∈ ws, IsFixed w) :
    IsFixedText (ws.flatMap (· ++ [Byte.space])) := by
  by_cases hn : ws = []
  · subst hn
    intro tok ht
    cases ht
  · rw [flatMap_space hn, IsFixedText, tokens_append_space, tokens_nil, List.append_nil]
    exact of_unwords h

variable {t : Text} (h : IsFixedText t)
include h

theorem append_space {u : Text} (hu : IsFixedText u) : IsFixedText (t ++ Byte.space :: u) := by
  intro tok ht
  rw [tokens_append_space, List.mem_append] at ht
  exact ht.elim (h tok) (hu tok)

theorem finished : IsFixedText (finished [t]) := by
  rw [IsFixedText, tokens_finished]
  simpa [IsFixedText] using h

/-- Tidying a text of fixed tokens keeps them. -/
theorem tidy : IsFixedText (tidy t) := by
  have hloose : ∀ b : UInt8, isLoose b = true → b < 0x80 ∧ (Byte.rune b).isBlank = false :=
    Byte.forall_of_lt (by decide +kernel)
  rw [IsFixedText, tokens_tidy]
  · exact h
  · intro b hb
    rw [Bool.eq_false_iff]
    intro hl
    obtain ⟨tok, ht, hm⟩ := exists_mem_tokens (hloose b hl).1 (hloose b hl).2 hb
    rw [(h tok ht).not_isLoose b hm] at hl
    cases hl

end IsFixedText

theorem IsFixed.isFixedText {tok : Token} (h : IsFixed tok) : IsFixedText tok := by
  rw [IsFixedText, h.isToken.tokens]
  simpa using h

theorem IsPlain.isFixedText {t : Text} (h : IsPlain t) : IsFixedText t := h.isFixed.isFixedText

/-! ## Lowering fixed tokens -/

theorem head?_append_ne_arrow {toks rest : List Token} (h : ∀ tok ∈ toks, IsFixed tok)
    (hr : rest.head? ≠ some Token.arrow) : (toks ++ rest).head? ≠ some Token.arrow := by
  cases toks with
  | nil => exact hr
  | cons tok toks => exact fun he => (h tok (by simp)).ne_arrow (Option.some.inj he)

/-- Fixed tokens are written with a space behind each. -/
theorem Represents.run_fixed {opts : Options} {m : Macros} (hm : Represents m .empty)
    {toks rest : List Token} (h : ∀ tok ∈ toks, IsFixed tok)
    (hr : rest.head? ≠ some Token.arrow) : ∀ out : Text,
    run opts (toks ++ rest) ⟨m, out⟩ =
      run opts rest ⟨m, out ++ toks.flatMap (· ++ [Byte.space])⟩ := by
  induction toks with
  | nil => intro out; simp
  | cons tok toks ih =>
    intro out
    have hrest : ∀ t ∈ toks, IsFixed t := fun t ht => h t (by simp [ht])
    have hstep : run opts (tok :: (toks ++ rest)) ⟨m, out⟩ =
        run opts (toks ++ rest) ⟨m, out ++ tok ++ [Byte.space]⟩ := by
      rcases h tok (by simp) with rfl | ⟨a, ht, hd⟩
      · exact hm.run_equ (head?_append_ne_arrow hrest hr) out
      · have hatom : run opts (a.text :: (toks ++ rest)) ⟨m, out⟩ = _ :=
          hm.run_atom (head?_append_ne_arrow hrest hr) a out
        rwa [a.target_empty, ht, hd] at hatom
    rw [List.cons_append, hstep, ih hrest]
    simp

theorem tidy_append_space {l : Text} (h : IsNeat l) : tidy (l ++ [Byte.space]) = l := by
  have hn : Byte.newline ∉ l ++ [Byte.space] := (h.inert.append (by decide)).noNewline
  have hb : dropBraces [Byte.space] = [Byte.space] := by decide
  have ht : (l ++ [Byte.space]).trimRight = l.trimRight := by
    simp [Text.trimRight, Byte.isSpacing]
  have hl := h.tidy_eq
  rw [tidy_of_not_mem h.inert.noNewline, tidied, tidyLine] at hl
  rw [tidy_of_not_mem hn, tidied, tidyLine, dropBraces_append, hb,
    dropBraces_of_forall fun x hx => (h.inert x hx).2, ht]
  rwa [dropBraces_of_forall fun x hx => (h.inert x hx).2] at hl

/-- A text of fixed tokens is lowered to these tokens, whatever the options. -/
theorem IsFixedText.lower_eq {t : Text} (h : IsFixedText t) (opts : Options) :
    lower opts t = .ok (Token.unwords t.tokens) := by
  have hrun : run opts (t.tokens ++ []) ⟨.empty, []⟩ = _ :=
    Represents.empty.run_fixed h (by simp) []
  rw [List.append_nil, run_nil, List.nil_append] at hrun
  rw [lower, State.initial, hrun]
  refine congrArg Except.ok ?_
  show Layout.tidy (t.tokens.flatMap (· ++ [Byte.space])) = _
  by_cases hn : t.tokens = []
  · rw [hn]; rfl
  · rw [flatMap_space hn]
    exact tidy_append_space (isNeat_unwords hn fun w hw => (h w hw).isNeat)

end Program

end BlockAsm
