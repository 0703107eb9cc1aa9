/-
  BlockAsm: the lines of programs stay as they are when texts are tidied.

  * `Atom.isNeat_target`, `IsBare.isNeat_toLower`: what operands and kinds become;
  * `Stmt.isNeat_of_mem_lines`: the lines of a statement without a block;
  * `settled_lines`, `tidy_indent_finished`: the lines of a block, behind its indentation.
-/
import BlockAsm.Proofs.Program.Meaning
import BlockAsm.Proofs.Program.Words

namespace BlockAsm

open Layout

namespace Program

/-! ## Operands -/

theorem inert_of_solid {t : Text} (ht : t.IsSolid) : Inert t := by
  intro b hb
  have hne : ∀ x : UInt8, x ∉ t → b ≠ x := fun x hx he => hx (he ▸ hb)
  have hl := hne Byte.lbrace (ht.not_mem (by decide))
  have hr := hne Byte.rbrace (ht.not_mem (by decide))
  exact ⟨hne Byte.newline (ht.not_mem (by decide)), by simp [Byte.isBrace, hl, hr]⟩

theorem isInk_of_solid {t : Text} (ht : t.IsSolid) (hs : Byte.semicolon ∉ t) :
    ∀ b ∈ t, isInk b = true := by
  intro b hb
  have hne : ∀ x : UInt8, x ∉ t → b ≠ x := fun x hx he => hx (he ▸ hb)
  obtain ⟨hn, hbrace⟩ := inert_of_solid ht b hb
  have hspace := hne Byte.space (ht.not_mem (by decide))
  have htab := hne Byte.tab (ht.not_mem (by decide))
  simp [isInk, Byte.isSpacing, hn, hbrace, hspace, htab, hne _ hs]

theorem IsBare.isNeat {t : Text} (h : IsBare t) : IsNeat t :=
  isNeat_of_ink h.ne_nil (isInk_of_solid h.solid (h.not_mem (by decide)))

theorem isNeat_ofInt (v : Int) : IsNeat (Numeral.ofInt v) := by
  have hink : ∀ b : UInt8, Numeral.isPart b = true → isInk b = true :=
    Byte.forall_of_lt (by decide +kernel)
  have hspells := Numeral.spells_ofInt v
  exact isNeat_of_ink hspells.ne_nil fun b hb => hink b (hspells.isPart hb)

theorem isNeat_memory {t : Text} (h : Inert t) : IsNeat (memory t) :=
  .append (.append (by decide) h) (by decide)

theorem Atom.isNeat_target (e : Env) : ∀ a : Atom, IsNeat (a.target e)
  | number n => isNeat_ofInt _
  | address w => isNeat_memory (e.value w).bare.isNeat.inert
  | word w => by
    rw [target]
    cases e.value w with
    | word v => exact v.plain.toIsBare.isNeat
    | number n => exact isNeat_ofInt _
    | address v => exact isNeat_memory v.plain.toIsBare.isNeat.inert

theorem isNeat_of_mem_targets {e : Env} {words : List Atom} :
    ∀ t ∈ words.map (Atom.target e), IsNeat t := by
  intro t ht
  obtain ⟨a, -, rfl⟩ := List.mem_map.1 ht
  exact a.isNeat_target e

theorem isNeat_unwords : ∀ {ws : List Text}, ws ≠ [] → (∀ w ∈ ws, IsNeat w) →
    IsNeat (Token.unwords ws)
  | [], h, _ => absurd rfl h
  | [w], _, h => h w (by simp)
  | w :: w' :: ws, _, h => by
    have hw : Inert (w ++ [Byte.space]) := (h w (by simp)).inert.append (by decide)
    exact .append hw (isNeat_unwords (by simp) fun v hv => h v (by simp [hv]))

/-! ## Lower case -/

/-- An ASCII byte in the encoding of a character is that character. -/
theorem eq_char_of_mem_utf8EncodeChar {c : Char} {b : UInt8} (hb : b < 0x80)
    (h : b ∈ String.utf8EncodeChar c) : c = Byte.char b := by
  obtain ⟨front, behind, hc⟩ := List.append_of_mem h
  obtain rfl : front = [] := by
    by_contra hf
    exact not_isUTF8FirstByte_of_utf8EncodeChar hc hf (Byte.isUTF8FirstByte hb)
  have h1 : Text.frontChar? (String.utf8EncodeChar c) = some c :=
    Text.frontChar?_eq_some_iff.2 (List.prefix_refl _)
  rw [hc, List.nil_append, frontChar?_cons_ascii hb] at h1
  exact (Option.some.inj h1).symm

/-- A character that has a lower case is moved into the image of a run.  (No run moves one
    off the code points; the second case spares the proof.) -/
theorem toLowerChar_cases (c : Char) : toLowerChar c = c ∨ (toLowerChar c).toNat = 0 ∨
    ∃ r ∈ CaseRun.lowerRuns, r.first + r.shift ≤ (toLowerChar c).toNat ∧
      (toLowerChar c).toNat ≤ r.last + r.shift := by
  have hpos : ∀ r ∈ CaseRun.lowerRuns, 0 ≤ r.first + r.shift := by decide +kernel
  unfold toLowerChar
  split
  · rename_i r hr
    right
    have hc := List.find?_some hr
    simp only [CaseRun.covers, Bool.and_eq_true, decide_eq_true_eq] at hc
    have hm := List.mem_of_find?_eq_some hr
    have h0 := hpos r hm
    by_cases hv : (c.toNat + r.shift).toNat.isValidChar
    · right
      have : (Char.ofNat (c.toNat + r.shift).toNat).toNat = (c.toNat + r.shift).toNat := by
        rw [Char.ofNat, dif_pos hv]; rfl
      rw [this]
      exact ⟨r, hm, by omega, by omega⟩
    · left
      rw [Char.ofNat, dif_neg hv]; rfl
  · exact Or.inl rfl

/-- Lower case adds no ASCII byte but letters. -/
theorem cases_of_mem_toLower {t : Text} {b : UInt8} (hA : b < 0x80) (hb : b ∈ t.toLower) :
    b ∈ t ∨ b.toNat = 0 ∨ 0x61 ≤ b.toNat ∧ b.toNat ≤ 0x7A := by
  have hruns : ∀ r ∈ CaseRun.lowerRuns, (0x61 ≤ r.first + r.shift ∧ r.last + r.shift ≤ 0x7A) ∨
      0x80 ≤ r.first + r.shift := by decide +kernel
  have hlt : b.toNat < 0x80 := hA
  obtain ⟨r, hr, hb⟩ := List.mem_flatMap.1 hb
  cases r with
  | stray x =>
    have hx : (Rune.scalar (Char.ofNat 0xFFFD)).bytes.all (0x80 ≤ ·.toNat) = true := by decide
    have := of_decide_eq_true (List.all_eq_true.1 hx b hb)
    omega
  | scalar c =>
    have hn : (toLowerChar c).toNat = b.toNat := by
      rw [eq_char_of_mem_utf8EncodeChar hA hb, Byte.char_toNat hA]
    rcases toLowerChar_cases c with h | h | ⟨run, hrun, h⟩
    · -- the character was not moved, so the byte stands in the text
      left
      rw [← Text.flatMap_bytes_runes t]
      rw [Rune.toLower, h] at hb
      exact List.mem_flatMap.2 ⟨_, hr, hb⟩
    · omega
    · have := hruns run hrun
      omega

theorem isInk_toLower {t : Text} (ht : t.IsSolid) (hs : Byte.semicolon ∉ t) :
    ∀ b ∈ t.toLower, isInk b = true := by
  have hhigh : ∀ b : UInt8, ¬ b < 0x80 → isInk b = true := Byte.forall_of_lt (by decide +kernel)
  have hlow : ∀ b : UInt8, b.toNat = 0 ∨ 0x61 ≤ b.toNat ∧ b.toNat ≤ 0x7A → isInk b = true :=
    Byte.forall_of_lt (by decide +kernel)
  intro b hb
  by_cases hA : b < 0x80
  · rcases cases_of_mem_toLower hA hb with hm | h
    · exact isInk_of_solid ht hs b hm
    · exact hlow b h
  · exact hhigh b hA

theorem toLower_ne_nil {t : Text} (ht : t ≠ []) : t.toLower ≠ [] := by
  intro h
  have hb : ∀ r : Rune, r.bytes ≠ [] := by
    rintro (c | b)
    · intro hn
      have hl := String.length_utf8EncodeChar c
      have := c.utf8Size_pos
      rw [show String.utf8EncodeChar c = [] from hn, List.length_nil] at hl
      omega
    · simp [Rune.bytes]
  have hr : t.runes = [] := by
    rw [Text.toLower, List.flatMap_eq_nil_iff] at h
    exact List.eq_nil_iff_forall_not_mem.2 fun r hr => hb _ (h r hr)
  rw [← Text.flatMap_bytes_runes t, hr] at ht
  exact ht rfl

theorem IsBare.isNeat_toLower {t : Text} (h : IsBare t) : IsNeat t.toLower :=
  isNeat_of_ink (toLower_ne_nil h.ne_nil) (isInk_toLower h.solid (h.not_mem (by decide)))

end Program

open Program

/-! ## Lines of programs -/

namespace Program

/-- A line that stays one line, and also stays as it is behind a plain indentation. -/
structure Settled (opts : Options) (l : Text) : Prop where
  noNewline : Byte.newline ∉ l
  neat : Inert opts.indentation → IsNeat l

variable {opts : Options}

theorem settled_of_isNeat {l : Text} (h : IsNeat l) : Settled opts l :=
  ⟨h.inert.noNewline, fun _ => h⟩

theorem settled_of_mem_indented {l k : Text} (h : Settled opts l)
    (hk : k ∈ indented opts.indentation l) : Settled opts k := by
  rw [indented] at hk
  split at hk
  · rename_i hi
    rw [List.mem_singleton.1 hk]
    exact settled_of_isNeat ((h.neat hi).append hi)
  · rename_i hi
    exact ⟨not_mem_of_mem_lines hk, fun h => absurd h hi⟩

theorem finished_indented {l : Text} (h : Settled opts l) :
    finished (indented opts.indentation l) =
      tidy (indentLine opts.indentation l) ++ [Byte.newline] := by
  rw [indented]
  split
  · rename_i hi
    have hn := h.neat hi
    rw [indentLine, if_neg hn.ne_nil, (hn.append hi).tidy_eq]
    simp [finished]
  · exact finished_lines _

/-- The block of a finished text becomes the indented lines. -/
theorem tidy_indent_finished {ls : List Text} (h : ∀ l ∈ ls, Settled opts l) :
    tidy (indent opts.indentation (finished ls)) =
      finished (ls.flatMap (indented opts.indentation)) := by
  rw [indent_finished _ fun l hl => (h l hl).noNewline, tidy_finished]
  induction ls with
  | nil => rfl
  | cons l ls ih =>
    rw [List.map_cons, List.map_cons, finished_cons, ih fun k hk => h k (by simp [hk]),
      List.flatMap_cons, finished_append, finished_indented (h l (by simp)), List.append_assoc]
    rfl

end Program

/-- The statements of the block of a statement, if it has one. -/
def Stmt.body? : Stmt → Option Program
  | sectionOf _ body | label _ body => some body
  | _ => none

theorem Stmt.isNeat_of_mem_lines {opts : Options} {e : Env} {s : Stmt} (h : s.body? = none) :
    ∀ l ∈ s.lines opts e, IsNeat l := by
  have hword : ∀ w : Word, IsNeat (e.value w).text := fun w => (e.value w).bare.isNeat
  intro l hl
  cases s with
  | define name value | undefine name => simp [Stmt.lines] at hl
  | sectionOf kind body | label name body => cases h
  | global name =>
    rw [Stmt.lines, List.mem_singleton] at hl
    exact hl ▸ .append (by decide) name.plain.isNeat
  | constant name words =>
    rw [Stmt.lines, List.mem_singleton] at hl
    rw [hl]
    refine isNeat_unwords (by simp) fun t ht => ?_
    rcases List.mem_cons.1 ht with rfl | ht
    · exact name.plain.isNeat
    · rcases List.mem_cons.1 ht with rfl | ht
      · decide
      · exact isNeat_of_mem_targets t ht
  | move dest src =>
    rw [Stmt.lines, List.mem_singleton] at hl
    rw [hl]
    exact .append (.append (.append (by decide) (hword dest).inert) (by decide))
      (src.isNeat_target e)
  | call callee args =>
    rw [Stmt.lines, List.mem_append, List.mem_singleton] at hl
    rcases hl with hl | rfl
    · obtain ⟨a, -, rfl⟩ := List.mem_map.1 hl
      exact .append (by decide) (a.atom.isNeat_target e)
    · exact .append (by decide) (hword callee.word)
  | directive d =>
    rw [Stmt.lines] at hl
    revert l
    cases d <;> decide
  | instr first others =>
    rw [Stmt.lines, List.mem_singleton] at hl
    rw [hl]
    exact isNeat_unwords (by simp) isNeat_of_mem_targets

namespace Program

theorem settled_lines (opts : Options) : ∀ (p : Program) (e : Env),
    ∀ l ∈ p.lines opts e, Settled opts l
  | [], e, l, hl => by simp at hl
  | s :: p, e, l, hl => by
    rw [lines_cons, List.mem_append] at hl
    rcases hl with hl | hl
    · -- the block of a statement is a program of its own
      have hblock : ∀ {header : Text} {body : Program}, sizeOf body < sizeOf (s :: p) →
          IsNeat header →
          l ∈ header :: (lines opts (e.child opts) body).flatMap (indented opts.indentation) →
          Settled opts l := by
        intro header body hsize hh hl
        rcases List.mem_cons.1 hl with rfl | hl
        · exact settled_of_isNeat hh
        · obtain ⟨k, hk, hl⟩ := List.mem_flatMap.1 hl
          exact settled_of_mem_indented (settled_lines opts body _ k hk) hl
      cases s with
      | sectionOf kind body =>
        rw [Stmt.lines] at hl
        refine hblock (by simp; omega) (.append (by decide) kind.plain.isNeat_toLower) hl
      | label name body =>
        rw [Stmt.lines] at hl
        refine hblock (by simp; omega) (.append name.plain.isNeat.inert (by decide)) hl
      | _ => exact settled_of_isNeat (Stmt.isNeat_of_mem_lines rfl l hl)
    · exact settled_lines opts p _ l hl

end Program

end BlockAsm
