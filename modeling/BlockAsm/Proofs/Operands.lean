/-
  BlockAsm: operands are lowered once.

  * `Numeral.IsCanonical`: the base-ten texts of integers, with no plus, no zeros in front and no
    minus before zero.  Every integer has one, and it is the one that is written
    (`isCanonical_iff`);
  * `Operand.lower_eq_error_iff`: an operand is refused for bad digits behind a base mark and for
    nothing else;
  * `Operand.Renders.self`: a target form is its own target form.
-/
import BlockAsm.Proofs.Failures
import BlockAsm.Proofs.Moves
import Mathlib.Data.Nat.Digits.Lemmas

namespace BlockAsm

namespace Numeral

/-! ## Base ten -/

/-- The byte of a decimal digit. -/
def digitByte (d : Nat) : UInt8 := UInt8.ofNat d.digitChar.toNat

theorem eq_digitByte {b : UInt8} {d : Nat} (h : IsDigit 10 b d) : b = digitByte d := by
  have hdigits : ∀ d < 10, (utf8 "0123456789abcdef")[d]? = some (digitByte d) ∧
      (utf8 "0123456789ABCDEF")[d]? = some (digitByte d) := by decide +kernel
  obtain ⟨hlower, hupper⟩ := hdigits d h.1
  rcases h.2 with hb | hb
  · exact Option.some.inj (hb.symm.trans hlower)
  · exact Option.some.inj (hb.symm.trans hupper)

theorem digitByte_eq_zero {d : Nat} (hd : d < 10) (h : digitByte d = 0x30) : d = 0 := by
  have hdigits : ∀ d < 10, digitByte d = 0x30 → d = 0 := by decide +kernel
  exact hdigits d hd h

theorem eq_map_of_forall₂ {t : Text} {ds : List Nat} (h : List.Forall₂ (IsDigit 10) t ds) :
    t = ds.map digitByte ∧ ∀ d ∈ ds, d < 10 := by
  induction h with
  | nil => exact ⟨rfl, by simp⟩
  | cons hd _ ih =>
    refine ⟨by rw [List.map_cons, ← eq_digitByte hd, ← ih.1], fun d hm => ?_⟩
    rcases List.mem_cons.1 hm with rfl | hm
    · exact hd.1
    · exact ih.2 d hm

theorem ofNat_eq_digits {n : Nat} (hn : 0 < n) :
    ofNat n = (Nat.digits 10 n).reverse.map digitByte := by
  induction n using Nat.strong_induction_on with
  | _ n ih =>
    rw [ofNat, Nat.toDigits_eq_if (by decide), Nat.digits_def' (by decide) hn, List.reverse_cons,
      List.map_append]
    split
    · rename_i hlt
      rw [Nat.div_eq_of_lt hlt, Nat.mod_eq_of_lt hlt, Nat.digits_zero]
      rfl
    · rename_i hge
      rw [← ih (n / 10) (by omega) (by omega), ofNat, List.map_append]
      rfl

theorem head?_ofNat_ne {n : Nat} (hn : 0 < n) : (ofNat n).head? ≠ some 0x30 := by
  intro h
  -- the first digit is the last one of `Nat.digits`, which is not zero
  have hne : Nat.digits 10 n ≠ [] := Nat.digits_ne_nil_iff_ne_zero.2 hn.ne'
  rw [ofNat_eq_digits hn, List.head?_map, List.head?_reverse, List.getLast?_eq_some_getLast hne,
    Option.map_some, Option.some.injEq] at h
  have hlt := Nat.digits_lt_base (by decide) (List.getLast_mem hne)
  exact Nat.getLast_digit_ne_zero 10 hn.ne' (digitByte_eq_zero hlt h)

/-- No zero stands in front of other digits. -/
def NoZeros (digits : Text) : Prop := digits.head? = some 0x30 → digits = utf8 "0"

theorem noZeros_ofNat (n : Nat) : NoZeros (ofNat n) := by
  intro h
  rcases Nat.eq_zero_or_pos n with rfl | hn
  · rfl
  · exact absurd h (head?_ofNat_ne hn)

/-- Digits without zeros in front are the ones that their number is written with. -/
theorem Denotes.eq_ofNat {t : Text} {n : Nat} (h : Denotes 10 t n) (hz : NoZeros t) :
    t = ofNat n := by
  obtain ⟨hne, ds, hds, rfl⟩ := h
  obtain ⟨rfl, hlt⟩ := eq_map_of_forall₂ hds
  cases ds with
  | nil => exact absurd rfl hne
  | cons d ds =>
    by_cases hd : d = 0
    · subst hd
      obtain rfl : ds = [] := List.map_eq_nil_iff.1 (List.cons.inj (hz rfl)).2
      rfl
    · have hdigits : Nat.digits 10 (Nat.ofDigits 10 (d :: ds).reverse) = (d :: ds).reverse :=
        Nat.digits_ofDigits 10 (by decide) _ (fun l hl => hlt l (List.mem_reverse.1 hl))
          (by simpa using hd)
      have hpos : 0 < Nat.ofDigits 10 (d :: ds).reverse := by
        refine Nat.pos_of_ne_zero ((Nat.digits_ne_nil_iff_ne_zero (b := 10)).1 ?_)
        simp only [hdigits, ne_eq, List.reverse_eq_nil_iff, List.cons_ne_nil, not_false_eq_true]
      rw [ofNat_eq_digits hpos, hdigits, List.reverse_reverse]

/-- The text spells the integer without a plus, without zeros in front and without a minus before
    zero. -/
structure IsCanonical (t : Text) (k : Int) : Prop where
  spells : Spells t k
  noPlus : ¬ utf8 "+" <+: t
  noZeros : ∀ digits, t = digits ∨ t = utf8 "-" ++ digits → NoZeros digits
  noMinusZero : t ≠ utf8 "-0"

theorem isCanonical_ofInt (k : Int) : IsCanonical (ofInt k) k := by
  cases k with
  | ofNat n =>
    -- a sign is no digit
    have hsign : ∀ {b : UInt8}, (digit? 10 b).isSome = false → b ∉ ofNat n := by
      intro b hb hm
      have hd : Denotes 10 (ofNat n) n := denotes_inBase (by decide) (by decide) n
      rw [hd.isSome_digit? (by decide) hm] at hb
      cases hb
    have hminus : ∀ digits, ofNat n ≠ utf8 "-" ++ digits := fun digits h =>
      hsign (b := 0x2D) (by decide) (by rw [h]; exact List.mem_cons_self)
    refine ⟨spells_ofInt _, fun h => ?_, fun digits h => ?_, hminus (utf8 "0")⟩
    · exact hsign (b := 0x2B) (by decide) (h.subset List.mem_cons_self)
    · rcases h with rfl | h
      · exact noZeros_ofNat n
      · exact absurd h (hminus digits)
  | negSucc n =>
    refine ⟨spells_ofInt _, fun h => ?_, fun digits h => ?_, fun h => ?_⟩
    · obtain ⟨rest, h⟩ := h
      cases h
    · rcases h with rfl | h
      · exact fun hz => by cases hz
      · obtain rfl : ofNat (n + 1) = digits := (List.cons.inj h).2
        exact noZeros_ofNat (n + 1)
    · have hzero : ofNat (n + 1) = utf8 "0" := (List.cons.inj h).2
      exact head?_ofNat_ne (Nat.succ_pos n) (by rw [hzero]; rfl)

/-- **There is one base-ten text for every integer,** and it is the one that is written. -/
theorem isCanonical_iff {t : Text} {k : Int} : IsCanonical t k ↔ t = ofInt k := by
  constructor
  · intro h
    cases h.spells with
    | unsigned hd => exact hd.eq_ofNat (h.noZeros t (.inl rfl))
    | plus hd => exact absurd (List.prefix_append _ _) h.noPlus
    | @minus digits n hd =>
      have hdigits := hd.eq_ofNat (h.noZeros digits (.inr rfl))
      cases n with
      | zero => exact absurd (congrArg (utf8 "-" ++ ·) hdigits) h.noMinusZero
      | succ n => exact congrArg (utf8 "-" ++ ·) hdigits
  · rintro rfl
    exact isCanonical_ofInt k

end Numeral

/-! ## Literals -/

namespace Literal

theorem normalize_of_value {t : Text} {v : Int64} (h : value t = .ok v) :
    normalize t = .ok (Numeral.ofInt v.toInt) := by
  rw [normalize, h]
  rfl

theorem ofInt_inj {v v' : Int64} : Numeral.ofInt v.toInt = Numeral.ofInt v'.toInt ↔ v = v' := by
  refine ⟨fun h => ?_, fun h => by rw [h]⟩
  have hv := value_ofInt v
  rw [h, value_ofInt v'] at hv
  exact (Except.ok.inj hv).symm

end Literal

/-! ## Operands -/

namespace Operand

/-- A text with a base mark is lowered as a number, whatever stands behind the mark. -/
theorem lower_of_mark {t : Text} {r : Radix} (h : r.mark <+: t) : lower t = Literal.normalize t := by
  obtain ⟨digits, rfl⟩ := h
  have hfront : ¬ [Byte.ampersand] <+: r.mark ++ digits := by
    cases r <;> rintro ⟨rest, hr⟩ <;> cases hr
  have hnumeric : Literal.isNumeric (r.mark ++ digits) = true := by
    rw [Literal.isNumeric, Radix.cut?_eq_some_iff.2 rfl]
    rfl
  rw [lower, Text.dropFront?_eq_none_iff.2 hfront]
  exact if_pos hnumeric

/-- An operand is refused for bad digits behind a base mark, and for nothing else. -/
theorem lower_eq_error_iff {t : Text} {f : Literal.Fault} :
    lower t = .error f ↔ (∃ r : Radix, r.mark <+: t) ∧ Literal.value t = .error f := by
  have hvalue : ∀ {r : Radix}, r.mark <+: t → (lower t = .error f ↔ Literal.value t = .error f) := by
    intro r hr
    rw [lower_of_mark hr, Literal.normalize]
    cases Literal.value t with
    | ok v => exact ⟨fun h => (by cases h), fun h => (by cases h)⟩
    | error f' => exact ⟨fun h => (by cases h; rfl), fun h => (by cases h; rfl)⟩
  constructor
  · intro h
    obtain ⟨r, hr⟩ := mark_prefix_of_lower h
    exact ⟨⟨r, hr⟩, (hvalue hr).1 h⟩
  · rintro ⟨⟨r, hr⟩, h⟩
    exact (hvalue hr).2 h

/-- A target form is its own target form: memory is in brackets, which start no address and no
    number, and a number is in base ten. -/
theorem Renders.self {t u : Text} (h : Renders t u) : Renders u u := by
  cases h with
  | memory name =>
    refine .word (fun h => by cases h) (fun r hr => ?_) fun v hv => ?_
    · obtain ⟨digits, hd⟩ := hr
      cases r <;> cases hd
    · -- no part of a number is a bracket
      have hpart := (Program.Number.mk _ v (Literal.value_eq_ok_iff.2 hv)).isPart_text.2
      exact absurd (hpart 0x5B List.mem_cons_self) (by decide)
  | @number _ v _ => exact .number (.decimal (Numeral.spells_ofInt v.toInt))
  | word ha hm hn => exact .word ha hm hn

/-- **Operands are lowered once and keep their value.**  An operand is refused only if it has a base
    mark and no value.  What it is lowered to is lowered to itself.  A number is lowered to the one
    text that spells its value in base ten without a plus, without zeros in front and without a minus
    before zero, and that text has the same value.  So two literals are written alike in base ten if
    and only if they have the same value. -/
theorem lower_canonical :
    (∀ t f, lower t = .error f ↔ (∃ r : Radix, r.mark <+: t) ∧ Literal.value t = .error f) ∧
    (∀ t u, lower t = .ok u → lower u = .ok u) ∧
    (∀ t v, Literal.isNumeric t = true → Literal.value t = .ok v → ∃ u, lower t = .ok u ∧
      Numeral.IsCanonical u v.toInt ∧ (∀ u', Numeral.IsCanonical u' v.toInt → u' = u) ∧
      Literal.value u = .ok v) ∧
    ∀ t t' v v', Literal.value t = .ok v → Literal.value t' = .ok v' →
      ∃ u u', Literal.normalize t = .ok u ∧ Literal.normalize t' = .ok u' ∧ (u = u' ↔ v = v') := by
  refine ⟨fun t f => lower_eq_error_iff, fun t u h => ?_, fun t v _ hv => ?_, fun t t' v v' h h' => ?_⟩
  · exact lower_eq_ok_iff.2 (lower_eq_ok_iff.1 h).self
  · exact ⟨_, lower_eq_ok_iff.2 (.number (Literal.value_eq_ok_iff.1 hv)),
      Numeral.isCanonical_ofInt v.toInt, fun u' => Numeral.isCanonical_iff.1, Literal.value_ofInt v⟩
  · exact ⟨_, _, Literal.normalize_of_value h, Literal.normalize_of_value h', Literal.ofInt_inj⟩

/-- The least word, as a bit pattern and with zeros in front; a decimal numeral that is no word, and
    an address; and bad digits behind a mark. -/
theorem lower_canonical_least :
    let pattern := utf8 "0x008000000000000000"
    let padded := utf8 "-09223372036854775808"
    let least := utf8 "-9223372036854775808"
    let f : Literal.Fault := .badDigits (utf8 "0b12") .binary
    (Literal.isNumeric pattern = true ∧ Literal.value pattern = .ok Int64.minValue ∧
      Literal.value padded = .ok Int64.minValue ∧ lower (utf8 "&0x1") = .ok (utf8 "[0x1]") ∧
      Literal.value (utf8 "0b12") = .error f) ∧
    (lower pattern = .ok least ∧ Numeral.IsCanonical least Int64.minValue.toInt ∧
      Literal.value least = .ok Int64.minValue) ∧
    Literal.normalize pattern = Literal.normalize padded ∧
    lower (utf8 "[0x1]") = .ok (utf8 "[0x1]") ∧
    lower (utf8 "9223372036854775808") = .ok (utf8 "9223372036854775808") ∧
    lower (utf8 "0b12") = .error f := by
  intro pattern padded least f
  have hn : Literal.isNumeric pattern = true := by decide +kernel
  have hv : Literal.value pattern = .ok Int64.minValue := by decide +kernel
  have hv' : Literal.value padded = .ok Int64.minValue := by decide +kernel
  have hm : lower (utf8 "&0x1") = .ok (utf8 "[0x1]") := by decide +kernel
  have hf : Literal.value (utf8 "0b12") = .error f := by decide +kernel
  have hl : lower pattern = .ok least := by decide +kernel
  obtain ⟨herror, hself, hnumber, hnormal⟩ := lower_canonical
  obtain ⟨u, hu, hcanonical, -, hvalue⟩ := hnumber pattern _ hn hv
  obtain rfl : u = least := Except.ok.inj (hu.symm.trans hl)
  obtain ⟨w, w', hw, hw', hiff⟩ := hnormal pattern padded _ _ hv hv'
  refine ⟨⟨hn, hv, hv', hm, hf⟩, ⟨hl, hcanonical, hvalue⟩, ?_, hself _ _ hm, by decide +kernel,
    (herror _ f).2 ⟨⟨.binary, by decide⟩, hf⟩⟩
  rw [hw, hw', hiff.2 rfl]

end Operand

end BlockAsm
