/-
  BlockAsm: the words of programs.

  * `Atom.bare`: every atom is a text that can only be read as a word of the target;
  * `IsBare.ofToken`: which is how the reader takes it, with a terminator or without.
-/
import BlockAsm.Proofs.Classification
import BlockAsm.Proofs.Program.Syntax

namespace BlockAsm

/-! ## Spellings of numbers -/

namespace Numeral

/-- A digit of some base, or a sign. -/
def isPart (b : UInt8) : Bool := (digitValue? b).isSome || b == 0x2B || b == 0x2D

theorem isPart_of_digit? {base : Nat} {b : UInt8} (h : (digit? base b).isSome = true) :
    isPart b = true := by
  obtain ⟨d, hd⟩ := Option.isSome_iff_exists.1 h
  rw [digit?, Option.filter_eq_some_iff] at hd
  simp [isPart, hd.1]

theorem Spells.isPart {t : Text} {k : Int} (h : Spells t k) {b : UInt8} (hb : b ∈ t) :
    isPart b = true := by
  rcases h.isSome_digit? hb with rfl | rfl | hd
  · decide
  · decide
  · exact isPart_of_digit? hd

theorem Spells.ne_nil {t : Text} {k : Int} (h : Spells t k) : t ≠ [] := by
  cases h with
  | unsigned h => exact h.1
  | plus h => exact List.cons_ne_nil _ _
  | minus h => exact List.cons_ne_nil _ _

end Numeral

namespace Program

/-- A number is spelled with digits and signs. -/
theorem Number.isPart_text (n : Number) : n.text ≠ [] ∧ ∀ b ∈ n.text, Numeral.isPart b = true := by
  obtain ⟨t, v, hspells⟩ := n
  cases Literal.value_eq_ok_iff.1 hspells with
  | marked r h _ _ =>
    have hm : r.mark ≠ [] ∧ r.mark.all Numeral.isPart = true := by cases r <;> decide
    refine ⟨by simp [hm.1], fun b hb => ?_⟩
    rcases List.mem_append.1 hb with hb | hb
    · exact List.all_eq_true.1 hm.2 b hb
    · exact Numeral.isPart_of_digit? (h.isSome_digit? r.base_le hb)
  | decimal h => exact ⟨h.ne_nil, fun b hb => h.isPart hb⟩

theorem Number.bare (n : Number) : IsBare n.text := by
  obtain ⟨hne, hp⟩ := n.isPart_text
  have hb : ∀ b : UInt8, Numeral.isPart b = true →
      Byte.IsSolid b ∧ b ∉ marks ∧ b ≠ 0x2F :=
    Byte.forall_of_lt (by decide +kernel)
  refine ⟨hne, .of_ascii fun b hm => (hb b (hp b hm)).1, fun b hm => (hb b (hp b hm)).2.1, ?_, ?_⟩
  · rw [Bool.eq_false_iff, ne_eq, List.isPrefixOf_iff_prefix]
    intro h
    exact (hb 0x2F (hp _ (h.subset (by decide)))).2.2 rfl
  · have hr : ∀ t ∈ reserved, (Literal.value t).isOk = false := by decide +kernel
    intro hm
    have := hr _ hm
    rw [n.spells] at this
    cases this

theorem Number.isNumeric (n : Number) : Literal.isNumeric n.text = true := by
  have h := n.spells
  rw [Literal.value] at h
  rw [Literal.isNumeric]
  split at h
  · rename_i hc; rw [hc]; rfl
  · split at h
    · rename_i hv; rw [hv]; simp [Except.isOk, Except.toBool]
    · cases h

theorem IsPlain.address {t : Text} (h : IsPlain t) : IsBare (Byte.ampersand :: t) := by
  refine ⟨by simp, Text.IsSolid.append_cons .nil h.solid (by decide), ?_, rfl, ?_⟩
  · intro b hb
    rcases List.mem_cons.1 hb with rfl | hb
    · decide
    · exact h.unmarked b hb
  · have hr : ∀ r ∈ reserved, r.head? ≠ some Byte.ampersand := by decide
    exact fun hm => hr _ hm rfl

/-- An atom can only be read as a word of the target. -/
theorem Atom.bare : ∀ a : Atom, IsBare a.text
  | word w => w.plain.toIsBare
  | number n => n.bare
  | address w => w.plain.address

/-! ## How the reader takes a bare text -/

theorem mem_reserved {p : Token × Form} (h : p ∈ Form.directives) : p.1 ∈ reserved :=
  List.mem_cons_of_mem _ (List.mem_cons_of_mem _ (List.mem_map_of_mem h))

namespace IsBare

variable {t : Text} (h : IsBare t)
include h

theorem not_mem {b : UInt8} (hb : b ∈ marks) : b ∉ t := fun hm => h.unmarked b hm hb

theorem isTerminated : t.isTerminated = false := by
  rw [Bool.eq_false_iff]
  intro he
  obtain ⟨front, rfl⟩ := Text.endsIn_iff.1 he
  exact h.not_mem (by decide) (by simp : Byte.semicolon ∈ _)

theorem dropTerminator : t.dropTerminator = t := by
  rw [Text.dropTerminator, Text.dropEnd, if_neg]
  exact Bool.eq_false_iff.1 h.isTerminated

section
variable {tok : Token} (ht : Ended t tok)
include ht

theorem ended_solid : tok ≠ [] ∧ tok.IsSolid := by
  rcases ht with rfl | rfl
  · exact ⟨h.ne_nil, h.solid⟩
  · exact ⟨by simp, h.solid.append_cons .nil (by decide)⟩

theorem ended_dropTerminator : tok.dropTerminator = t := by
  rcases ht with rfl | rfl
  · exact h.dropTerminator
  · exact Text.dropEnd_append_singleton t _

theorem ended_not_mem {b : UInt8} (hb : b ∈ marks) (hs : b ≠ Byte.semicolon) : b ∉ tok := by
  rcases ht with rfl | rfl
  · exact h.not_mem hb
  · simp [h.not_mem hb, hs]

theorem ended_notReserved : tok ∉ reserved := by
  rcases ht with rfl | rfl
  · exact h.notReserved
  · intro hr
    have hl : ∀ r ∈ reserved, r.isTerminated = false := by decide
    have := hl _ hr
    simp [Text.isTerminated] at this

theorem ended_notComment : Form.commentOpen.isPrefixOf tok = false := by
  rcases ht with rfl | rfl
  · exact h.notComment
  · have hn := h.notComment
    rw [Bool.eq_false_iff, ne_eq, List.isPrefixOf_iff_prefix] at hn ⊢
    rw [List.prefix_concat_iff, not_or]
    refine ⟨fun he => ?_, hn⟩
    have : Byte.semicolon ∈ Form.commentOpen := by rw [he]; simp
    exact absurd this (by decide)

/-- The reader takes a bare text as a word of the target. -/
theorem ofToken : Form.ofToken tok = .generic := by
  refine Form.ofToken_of_not_tells fun c f hc => ?_
  cases hc with
  | directive hd => exact h.ended_notReserved ht (mem_reserved hd)
  | @terminated word _ hd =>
    have hcore : word = t := by
      rw [← h.ended_dropTerminator ht, Text.dropTerminator, Text.dropEnd_append_singleton]
    have hwords : ∀ p ∈ Form.terminables, p ∈ Form.directives := by decide
    exact h.notReserved (hcore ▸ mem_reserved (hwords _ hd))
  | comment behind =>
    have hfront := h.ended_notComment ht
    rw [Bool.eq_false_iff, ne_eq, List.isPrefixOf_iff_prefix] at hfront
    exact hfront (List.prefix_append _ behind)
  | quote hq behind =>
    refine h.ended_not_mem ht ?_ ?_ List.mem_cons_self <;> rcases hq with rfl | rfl <;> decide
  | call _ behind => exact h.ended_not_mem ht (b := Byte.lparen) (by decide) (by decide) (by simp)

end

end IsBare

end Program

end BlockAsm
