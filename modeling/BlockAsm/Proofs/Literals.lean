/-
  BlockAsm: what literals denote.

  * `Numeral.Denotes`: digits of a base and their number; reading takes those whose number is
    below `2 ^ 64`, however many there are (`readUnsigned_eq_ok_iff`);
  * `Numeral.Spells`: decimal digits with an optional sign; reading takes those whose number is a
    signed word (`readSigned_eq_ok_iff`);
  * `Literal.Denotes`: the words that literals stand for (`value_eq_ok_iff`);
  * `Numeral.inBase`: numbers are written in digits that denote them (`denotes_inBase`).
-/
import BlockAsm.Error
import Mathlib.Data.List.Forall2
import Mathlib.Data.Nat.Digits.Defs

namespace BlockAsm

theorem Byte.forall_of_lt {P : UInt8 → Prop} (h : ∀ n < 256, P (UInt8.ofNat n)) (b : UInt8) :
    P b := by
  have := h b.toNat b.toNat_lt
  rwa [UInt8.ofNat_toNat] at this

namespace Numeral

/-! ## Digits -/

/-- The byte is the digit of the base that counts `d`.  From ten on the digits are letters, of
    either case. -/
def IsDigit (base : Nat) (b : UInt8) (d : Nat) : Prop :=
  d < base ∧ ((utf8 "0123456789abcdef")[d]? = some b ∨ (utf8 "0123456789ABCDEF")[d]? = some b)

theorem digit?_eq_some_iff {base : Nat} (hbase : base ≤ 16) {b : UInt8} {d : Nat} :
    digit? base b = some d ↔ IsDigit base b d := by
  have hbytes : ∀ b : UInt8, ∀ d ∈ digitValue? b, d < 16 →
      (utf8 "0123456789abcdef")[d]? = some b ∨ (utf8 "0123456789ABCDEF")[d]? = some b :=
    Byte.forall_of_lt (by decide +kernel)
  have hdigits : ∀ d < 16, (utf8 "0123456789abcdef")[d]?.bind digitValue? = some d ∧
      (utf8 "0123456789ABCDEF")[d]?.bind digitValue? = some d := by decide +kernel
  rw [digit?, Option.filter_eq_some_iff, decide_eq_true_iff, IsDigit, and_comm]
  refine and_congr_right fun hd => ⟨fun h => hbytes b d h (by omega), ?_⟩
  obtain ⟨hlower, hupper⟩ := hdigits d (by omega)
  rintro (h | h)
  · rwa [h] at hlower
  · rwa [h] at hupper

theorem isDigit_digitChar {base d : Nat} (hbase : base ≤ 16) (hd : d < base) :
    IsDigit base (UInt8.ofNat d.digitChar.toNat) d := by
  have hlower : ∀ d < 16,
      (utf8 "0123456789abcdef")[d]? = some (UInt8.ofNat d.digitChar.toNat) := by decide +kernel
  exact ⟨hd, .inl (hlower d (by omega))⟩

/-- The number that digits make behind a number. -/
def extend (base n : Nat) (ds : List Nat) : Nat := ds.foldl (fun n d => n * base + d) n

theorem extend_zero (base : Nat) (ds : List Nat) :
    extend base 0 ds = Nat.ofDigits base ds.reverse := by
  rw [Nat.ofDigits_eq_foldr, List.foldr_reverse, extend]
  congr
  funext n d
  rw [Nat.mul_comm, Nat.add_comm]
  rfl

theorem le_extend {base : Nat} (hbase : 0 < base) : ∀ (n : Nat) (ds : List Nat),
    n ≤ extend base n ds
  | _, [] => Nat.le_refl _
  | n, d :: ds =>
    calc n ≤ n * base := Nat.le_mul_of_pos_right n hbase
      _ ≤ n * base + d := Nat.le_add_right _ _
      _ ≤ extend base (n * base + d) ds := le_extend hbase _ ds

/-- The text consists of digits of the base, the first of which counts most, and `n` is their
    number. -/
def Denotes (base : Nat) (t : Text) (n : Nat) : Prop :=
  t ≠ [] ∧ ∃ ds, List.Forall₂ (IsDigit base) t ds ∧ Nat.ofDigits base ds.reverse = n

theorem isSome_digit?_of_forall₂ {base : Nat} (hbase : base ≤ 16) {t : Text} {ds : List Nat}
    (h : List.Forall₂ (IsDigit base) t ds) {b : UInt8} (hb : b ∈ t) :
    (digit? base b).isSome = true := by
  induction h with
  | nil => cases hb
  | cons hd _ ih =>
    rcases List.mem_cons.1 hb with rfl | hb
    · rw [(digit?_eq_some_iff hbase).2 hd]
      rfl
    · exact ih hb

theorem Denotes.isSome_digit? {base n : Nat} {t : Text} (h : Denotes base t n)
    (hbase : base ≤ 16) {b : UInt8} (hb : b ∈ t) : (digit? base b).isSome = true := by
  obtain ⟨-, ds, hds, -⟩ := h
  exact isSome_digit?_of_forall₂ hbase hds hb

section
variable {base : Nat} (hpos : 0 < base) (hbase : base ≤ 16)
include hpos hbase

/-- A number over the bound stays over it, whatever digits follow, so that reading may stop. -/
theorem readFrom_eq_ok_iff : ∀ {t : Text} {n v : Nat}, n < UInt64.size →
    (readFrom base n t = .ok v ↔
      ∃ ds, List.Forall₂ (IsDigit base) t ds ∧ extend base n ds = v ∧ v < UInt64.size)
  | [], n, v, hn => by
    constructor
    · intro h
      cases h
      exact ⟨[], .nil, rfl, hn⟩
    · rintro ⟨ds, hds, rfl, -⟩
      cases hds
      rfl
  | b :: t, n, v, hn => by
    rw [readFrom]
    constructor
    · intro h
      split at h
      · cases h
      · rename_i d hd
        split at h
        · rename_i hlt
          obtain ⟨ds, hds, hv⟩ := (readFrom_eq_ok_iff hlt).1 h
          exact ⟨d :: ds, .cons ((digit?_eq_some_iff hbase).1 hd) hds, hv⟩
        · cases h
    · rintro ⟨ds, hds, hv, hsize⟩
      cases hds with
      | cons hd hds =>
        rename_i d ds
        -- the front of the digits makes no more than all of them
        have hlt : n * base + d < UInt64.size :=
          lt_of_le_of_lt (hv ▸ le_extend hpos (n * base + d) ds) hsize
        rw [(digit?_eq_some_iff hbase).2 hd]
        simp only [if_pos hlt]
        exact (readFrom_eq_ok_iff hlt).2 ⟨ds, hds, hv, hsize⟩

/-- **Unsigned numerals.** -/
theorem readUnsigned_eq_ok_iff {t : Text} {n : Nat} :
    readUnsigned base t = .ok n ↔ Denotes base t n ∧ n < UInt64.size := by
  by_cases ht : t = []
  · rw [readUnsigned, if_pos ht]
    exact ⟨nofun, fun h => absurd ht h.1.1⟩
  · rw [readUnsigned, if_neg ht, readFrom_eq_ok_iff hpos hbase (by decide)]
    simp only [extend_zero]
    constructor
    · rintro ⟨ds, hds, hn, hsize⟩
      exact ⟨⟨ht, ds, hds, hn⟩, hsize⟩
    · rintro ⟨⟨-, ds, hds, hn⟩, hsize⟩
      exact ⟨ds, hds, hn, hsize⟩

end

/-! ## Signs -/

/-- Decimal digits with an optional sign, and their number. -/
inductive Spells : Text → Int → Prop
  | unsigned {digits : Text} {n : Nat} (h : Denotes 10 digits n) : Spells digits n
  | plus {digits : Text} {n : Nat} (h : Denotes 10 digits n) : Spells (utf8 "+" ++ digits) n
  | minus {digits : Text} {n : Nat} (h : Denotes 10 digits n) : Spells (utf8 "-" ++ digits) (-n)

/-- A sign is no digit. -/
theorem Denotes.cutSign {t : Text} {n : Nat} (h : Denotes 10 t n) : cutSign t = (false, t) := by
  rw [Numeral.cutSign.eq_def]
  split
  · cases h.isSome_digit? (by decide) (List.mem_cons_self ..)
  · cases h.isSome_digit? (by decide) (List.mem_cons_self ..)
  · rfl

/-- All bytes are digits, except for a sign. -/
theorem Spells.isSome_digit? {t : Text} {k : Int} (h : Spells t k) {b : UInt8} (hb : b ∈ t) :
    b = 0x2B ∨ b = 0x2D ∨ (digit? 10 b).isSome = true := by
  cases h with
  | unsigned h => exact .inr (.inr (h.isSome_digit? (by decide) hb))
  | plus h =>
    rcases List.mem_cons.1 hb with rfl | hb
    · exact .inl rfl
    · exact .inr (.inr (h.isSome_digit? (by decide) hb))
  | minus h =>
    rcases List.mem_cons.1 hb with rfl | hb
    · exact .inr (.inl rfl)
    · exact .inr (.inr (h.isSome_digit? (by decide) hb))

theorem eq_of_cutSign {t digits : Text} {minus : Bool} (h : cutSign t = (minus, digits)) :
    minus = false ∧ (t = digits ∨ t = utf8 "+" ++ digits) ∨
      minus = true ∧ t = utf8 "-" ++ digits := by
  rw [cutSign.eq_def] at h
  split at h <;> cases h
  · exact .inl ⟨rfl, .inr rfl⟩
  · exact .inr ⟨rfl, rfl⟩
  · exact .inl ⟨rfl, .inl rfl⟩

theorem withSign_eq_ok_iff {minus : Bool} {n : Nat} {k : Int} :
    withSign minus n = .ok k ↔ (if minus then -(n : Int) else n) = k ∧
      -0x8000000000000000 ≤ k ∧ k < 0x8000000000000000 := by
  cases minus with
  | false => simp only [withSign]; grind
  | true => simp only [withSign]; grind

theorem readSigned_of_cutSign {t digits : Text} {minus : Bool} {k : Int}
    (hs : cutSign t = (minus, digits)) :
    readSigned t = .ok k ↔
      (∃ n : Nat, Denotes 10 digits n ∧ (if minus then -(n : Int) else n) = k) ∧
        -0x8000000000000000 ≤ k ∧ k < 0x8000000000000000 := by
  have hread : ∀ {n : Nat},
      readUnsigned 10 digits = .ok n ↔ Denotes 10 digits n ∧ n < UInt64.size :=
    readUnsigned_eq_ok_iff (by decide) (by decide)
  rw [readSigned, hs]
  constructor
  · intro h
    cases hr : readUnsigned 10 digits with
    | error f => simp only [hr] at h; cases h
    | ok n =>
      simp only [hr] at h
      obtain ⟨hk, hrange⟩ := withSign_eq_ok_iff.1 h
      exact ⟨⟨n, (hread.1 hr).1, hk⟩, hrange⟩
  · rintro ⟨⟨n, hn, hk⟩, hrange⟩
    have hsize : n < UInt64.size := by
      have : UInt64.size = 0x10000000000000000 := rfl
      split at hk <;> omega
    simp only [hread.2 ⟨hn, hsize⟩]
    exact withSign_eq_ok_iff.2 ⟨hk, hrange⟩

/-- **Signed numerals.** -/
theorem readSigned_eq_ok_iff {t : Text} {k : Int} :
    readSigned t = .ok k ↔ Spells t k ∧ -0x8000000000000000 ≤ k ∧ k < 0x8000000000000000 := by
  constructor
  · intro h
    rcases hs : cutSign t with ⟨minus, digits⟩
    obtain ⟨⟨n, hn, rfl⟩, hrange⟩ := (readSigned_of_cutSign hs).1 h
    refine ⟨?_, hrange⟩
    rcases eq_of_cutSign hs with ⟨rfl, rfl | rfl⟩ | ⟨rfl, rfl⟩
    · exact .unsigned hn
    · exact .plus hn
    · exact .minus hn
  · rintro ⟨h, hrange⟩
    cases h with
    | unsigned hn => exact (readSigned_of_cutSign hn.cutSign).2 ⟨⟨_, hn, rfl⟩, hrange⟩
    | plus hn => exact (readSigned_of_cutSign rfl).2 ⟨⟨_, hn, rfl⟩, hrange⟩
    | minus hn => exact (readSigned_of_cutSign rfl).2 ⟨⟨_, hn, rfl⟩, hrange⟩

/-! ## Writing numbers -/

/-- A natural number in a base. -/
def inBase (base n : Nat) : Text := (Nat.toDigits base n).map fun c => UInt8.ofNat c.toNat

theorem Denotes.of_isDigit {base d : Nat} {b : UInt8} (h : IsDigit base b d) :
    Denotes base [b] d :=
  ⟨List.cons_ne_nil _ _, [d], .cons h .nil, Nat.ofDigits_singleton⟩

theorem Denotes.concat {base n d : Nat} {t : Text} {b : UInt8} (h : Denotes base t n)
    (hd : IsDigit base b d) : Denotes base (t ++ [b]) (base * n + d) := by
  obtain ⟨-, ds, hds, rfl⟩ := h
  refine ⟨by simp, ds ++ [d], List.rel_append hds (.cons hd .nil), ?_⟩
  rw [List.reverse_concat, Nat.ofDigits_cons, Nat.add_comm]

/-- Zeros in front count nothing. -/
theorem Denotes.zeros {base n : Nat} {t : Text} (hbase : 0 < base) (h : Denotes base t n) :
    ∀ k, Denotes base (List.replicate k 0x30 ++ t) n
  | 0 => h
  | k + 1 => by
    obtain ⟨-, ds, hds, hn⟩ := h.zeros hbase k
    refine ⟨List.cons_ne_nil _ _, 0 :: ds, .cons ⟨hbase, .inl rfl⟩ hds, ?_⟩
    rw [Nat.ofDigits_reverse_zero_cons, hn]

theorem denotes_inBase {base : Nat} (hbase : 1 < base) (hle : base ≤ 16) (n : Nat) :
    Denotes base (inBase base n) n := by
  induction n using Nat.strong_induction_on with
  | _ n ih =>
    rw [inBase, Nat.toDigits_eq_if hbase]
    split
    · rename_i hlt
      exact .of_isDigit (isDigit_digitChar hle hlt)
    · rename_i hge
      have hquot : n / base < n := Nat.div_lt_self (by omega) hbase
      have hlast := isDigit_digitChar hle (Nat.mod_lt n (by omega))
      have h := (ih _ hquot).concat hlast
      rw [Nat.div_add_mod] at h
      rw [List.map_append]
      exact h

theorem spells_ofInt : ∀ k : Int, Spells (ofInt k) k
  | .ofNat n => .unsigned (denotes_inBase (by decide) (by decide) n)
  | .negSucc n => .minus (denotes_inBase (by decide) (by decide) (n + 1))

end Numeral

/-! ## Base marks -/

namespace Radix

theorem one_lt_base (r : Radix) : 1 < r.base := by cases r <;> decide

theorem base_le (r : Radix) : r.base ≤ 16 := by cases r <;> decide

theorem length_mark (r : Radix) : r.mark.length = 2 := by cases r <;> rfl

theorem eq_of_mark {r r' : Radix} (h : r.mark = r'.mark) : r = r' := by
  revert h
  cases r <;> cases r' <;> decide

theorem eq_of_cut? {t digits : Text} {r : Radix} (h : cut? t = some (r, digits)) :
    t = r.mark ++ digits := by
  rw [cut?, List.findSome?_eq_some_iff] at h
  obtain ⟨-, s, -, -, h, -⟩ := h
  obtain ⟨d, hd, he⟩ := Option.map_eq_some_iff.1 h
  cases he
  exact Text.dropFront?_eq_some_iff.1 hd

theorem cut?_eq_some_iff {t digits : Text} {r : Radix} :
    cut? t = some (r, digits) ↔ t = r.mark ++ digits := by
  refine ⟨eq_of_cut?, ?_⟩
  rintro rfl
  have hfound : (cut? (r.mark ++ digits)).isSome = true := by
    rw [cut?, List.findSome?_isSome_iff]
    refine ⟨r, by cases r <;> simp, ?_⟩
    rw [Text.dropFront?_eq_some_iff.2 rfl]
    rfl
  -- all marks have two bytes, so what is found is no other mark
  obtain ⟨⟨r', digits'⟩, h⟩ := Option.isSome_iff_exists.1 hfound
  obtain ⟨hmark, rfl⟩ := List.append_inj (eq_of_cut? h) (by rw [length_mark, length_mark])
  rw [h, eq_of_mark hmark]

theorem cut?_eq_none_iff {t : Text} : cut? t = none ↔ ∀ r : Radix, ¬ r.mark <+: t := by
  rw [Option.eq_none_iff_forall_ne_some]
  constructor
  · rintro h r ⟨digits, rfl⟩
    exact h (r, digits) (cut?_eq_some_iff.2 rfl)
  · rintro h ⟨r, digits⟩ hc
    exact h r ⟨digits, (eq_of_cut? hc).symm⟩

/-- The letter of a mark is no decimal digit. -/
theorem cut?_of_spells {t : Text} {k : Int} (h : Numeral.Spells t k) : cut? t = none := by
  cases hc : cut? t with
  | none => rfl
  | some found =>
    obtain ⟨r, digits⟩ := found
    have ht := eq_of_cut? hc
    obtain ⟨b, hb, hletter⟩ : ∃ b, b ∈ r.mark ∧
        ¬ (b = 0x2B ∨ b = 0x2D ∨ (Numeral.digit? 10 b).isSome = true) := by
      cases r with
      | binary => exact ⟨0x62, by decide, by decide⟩
      | octal => exact ⟨0x6F, by decide, by decide⟩
      | hexadecimal => exact ⟨0x78, by decide, by decide⟩
    exact absurd (h.isSome_digit? (ht ▸ List.mem_append_left digits hb)) hletter

end Radix

/-! ## Literals -/

namespace Literal

/-- What a literal stands for: digits behind a base mark for the word of that bit pattern, a decimal
    numeral for its number. -/
inductive Denotes : Text → Int64 → Prop
  | marked (radix : Radix) {digits : Text} {n : Nat} {v : Int64}
      (h : Numeral.Denotes radix.base digits n) (hn : n < UInt64.size)
      (hv : v.toInt = Int.bmod n UInt64.size) : Denotes (radix.mark ++ digits) v
  | decimal {t : Text} {v : Int64} (h : Numeral.Spells t v.toInt) : Denotes t v

theorem value_marked {radix : Radix} {digits : Text} {v : Int64} :
    value (radix.mark ++ digits) = .ok v ↔
      ∃ n, Numeral.Denotes radix.base digits n ∧ n < UInt64.size ∧
        v.toInt = Int.bmod n UInt64.size := by
  have hread : ∀ {n : Nat}, Numeral.readUnsigned radix.base digits = .ok n ↔
      Numeral.Denotes radix.base digits n ∧ n < UInt64.size :=
    Numeral.readUnsigned_eq_ok_iff (Nat.lt_of_succ_lt radix.one_lt_base) radix.base_le
  have hword : ∀ n : Nat, Int64.ofNat n = v ↔ v.toInt = Int.bmod n UInt64.size := by
    intro n
    rw [← Int64.toInt_inj, Int64.toInt_ofNat', eq_comm]
  rw [value, Radix.cut?_eq_some_iff.2 rfl]
  constructor
  · intro h
    cases hr : Numeral.readUnsigned radix.base digits with
    | error f => simp only [hr] at h; cases h
    | ok n =>
      simp only [hr] at h
      obtain ⟨hd, hsize⟩ := hread.1 hr
      exact ⟨n, hd, hsize, (hword n).1 (Except.ok.inj h)⟩
  · rintro ⟨n, hd, hsize, hv⟩
    simp only [hread.2 ⟨hd, hsize⟩, (hword n).2 hv]

theorem value_unmarked {t : Text} {v : Int64} (hc : Radix.cut? t = none) :
    value t = .ok v ↔ Numeral.Spells t v.toInt := by
  rw [value, hc]
  constructor
  · intro h
    cases hr : Numeral.readSigned t with
    | error f => simp only [hr] at h; cases h
    | ok k =>
      simp only [hr] at h
      obtain ⟨hs, hlo, hhi⟩ := Numeral.readSigned_eq_ok_iff.1 hr
      cases h
      rwa [Int64.toInt_ofInt_of_le hlo hhi]
  · intro h
    simp only [Numeral.readSigned_eq_ok_iff.2 ⟨h, v.le_toInt, v.toInt_lt⟩, Int64.ofInt_toInt]

/-- **The value of a literal is the word that it stands for.** -/
theorem value_eq_ok_iff {t : Text} {v : Int64} : value t = .ok v ↔ Denotes t v := by
  constructor
  · intro h
    cases hc : Radix.cut? t with
    | none => exact .decimal ((value_unmarked hc).1 h)
    | some found =>
      obtain ⟨radix, digits⟩ := found
      obtain rfl := Radix.eq_of_cut? hc
      obtain ⟨n, hd, hn, hv⟩ := value_marked.1 h
      exact .marked radix hd hn hv
  · intro h
    cases h with
    | marked radix hd hn hv => exact value_marked.2 ⟨_, hd, hn, hv⟩
    | decimal hs => exact (value_unmarked (Radix.cut?_of_spells hs)).2 hs

/-- A word is the value of its base-ten text. -/
theorem value_ofInt (v : Int64) : value (Numeral.ofInt v.toInt) = .ok v :=
  value_eq_ok_iff.2 (.decimal (Numeral.spells_ofInt v.toInt))

/-- What is not shaped like a number has no base mark and stands for no number. -/
theorem isNumeric_eq_false_iff {t : Text} :
    isNumeric t = false ↔ (∀ r : Radix, ¬ r.mark <+: t) ∧ ∀ v, ¬ Denotes t v := by
  rw [isNumeric, Bool.or_eq_false_iff, Option.isSome_eq_false_iff, Option.isNone_iff_eq_none,
    ← Radix.cut?_eq_none_iff]
  refine and_congr_right fun hc => ?_
  have hv : ∀ v, ¬ Denotes t v ↔ ¬ Numeral.Spells t v.toInt := fun v => by
    rw [← value_eq_ok_iff, value_unmarked hc]
  cases hr : Numeral.readSigned t with
  | error f =>
    refine iff_of_true rfl fun v => (hv v).2 fun hs => ?_
    rw [Numeral.readSigned_eq_ok_iff.2 ⟨hs, v.le_toInt, v.toInt_lt⟩] at hr
    cases hr
  | ok k =>
    obtain ⟨hs, hlo, hhi⟩ := Numeral.readSigned_eq_ok_iff.1 hr
    refine iff_of_false Bool.noConfusion fun h => (hv (Int64.ofInt k)).1 (h _) ?_
    rwa [Int64.toInt_ofInt_of_le hlo hhi]

/-- A text without a value is reported with the base that its mark announces. -/
theorem eq_of_value_error {t : Text} {f : Fault} (h : value t = .error f) :
    (∃ radix, radix.mark <+: t ∧ f = .badDigits t radix) ∨
      (∀ radix : Radix, ¬ radix.mark <+: t) ∧ f = .notDecimal t := by
  rw [value] at h
  split at h
  · rename_i radix digits hc
    refine .inl ⟨radix, ⟨digits, (Radix.eq_of_cut? hc).symm⟩, ?_⟩
    split at h
    · cases h
    · exact (Except.error.inj h).symm
  · rename_i hc
    refine .inr ⟨?_, ?_⟩
    · rintro radix ⟨digits, rfl⟩
      rw [Radix.cut?_eq_some_iff.2 rfl] at hc
      cases hc
    · split at h
      · cases h
      · exact (Except.error.inj h).symm

theorem Fault.announced (f : Fault) : utf8 "invalid literal: " <+: f.message := by
  cases f with
  | badDigits t radix =>
    simp only [message, List.append_assoc]
    exact List.prefix_append _ _
  | notDecimal t => exact List.prefix_append _ _

/-- The bit pattern of a word, written in any base behind its mark. -/
theorem value_pattern (v : Int64) (radix : Radix) {digits : Text}
    (h : Numeral.Denotes radix.base digits (v.toInt % UInt64.size).toNat) :
    value (radix.mark ++ digits) = .ok v := by
  have hsize : (0 : Int) < UInt64.size := by decide
  have hnonneg := Int.emod_nonneg v.toInt hsize.ne'
  have hlt := Int.emod_lt_of_pos v.toInt hsize
  refine value_marked.2 ⟨_, h, by omega, ?_⟩
  rw [Int.toNat_of_nonneg hnonneg, Int.emod_bmod]
  exact (Int64.toInt_bmod_size v).symm

/-- **Literals are read exactly.**  A text has a value if it is one or more digits of a base behind
    its mark, for a number below `2 ^ 64`, or one or more decimal digits with an optional sign, for
    a number that fits into a signed word, and then the value is the word with that bit pattern, or
    that number.  Any other text is reported as an invalid literal.  So every word is the value of
    its decimal text, and of its bit pattern in every base, with any number of zeros in front. -/
theorem value_exact :
    (∀ t v, value t = .ok v ↔ Denotes t v) ∧
    (∀ t, (∃ v, value t = .ok v) ↔
      (∃ (radix : Radix) (digits : Text) (n : Nat), t = radix.mark ++ digits ∧
        Numeral.Denotes radix.base digits n ∧ n < UInt64.size) ∨
      ∃ k, Numeral.Spells t k ∧ -0x8000000000000000 ≤ k ∧ k < 0x8000000000000000) ∧
    (∀ t f, value t = .error f →
      ((∃ radix, radix.mark <+: t ∧ f = .badDigits t radix) ∨
        (∀ radix : Radix, ¬ radix.mark <+: t) ∧ f = .notDecimal t) ∧
      (Error.ofFault (.badLiteral f)).category = .literal ∧
      utf8 "invalid literal: " <+: (Error.ofFault (.badLiteral f)).message) ∧
    ∀ v : Int64, value (Numeral.ofInt v.toInt) = .ok v ∧
      ∀ (radix : Radix) (zeros : Nat), value (radix.mark ++ (List.replicate zeros 0x30 ++
        Numeral.inBase radix.base (v.toInt % UInt64.size).toNat)) = .ok v := by
  refine ⟨fun t v => value_eq_ok_iff, fun t => ⟨?_, ?_⟩, fun t f h => ?_, fun v => ⟨?_, ?_⟩⟩
  · rintro ⟨v, h⟩
    cases value_eq_ok_iff.1 h with
    | marked radix hd hn hv => exact .inl ⟨radix, _, _, rfl, hd, hn⟩
    | decimal hs => exact .inr ⟨_, hs, v.le_toInt, v.toInt_lt⟩
  · rintro (⟨radix, digits, n, rfl, hd, hn⟩ | ⟨k, hs, hlo, hhi⟩)
    · exact ⟨Int64.ofNat n, value_marked.2 ⟨n, hd, hn, Int64.toInt_ofNat'⟩⟩
    · refine ⟨Int64.ofInt k, value_eq_ok_iff.2 (.decimal ?_)⟩
      rwa [Int64.toInt_ofInt_of_le hlo hhi]
  · exact ⟨eq_of_value_error h, rfl, f.announced⟩
  · exact value_eq_ok_iff.2 (.decimal (Numeral.spells_ofInt v.toInt))
  · intro radix zeros
    have hbase := radix.one_lt_base
    exact value_pattern v radix
      ((Numeral.denotes_inBase hbase radix.base_le _).zeros (by omega) zeros)

/-- The least word in base ten and in base sixteen.  One less is no literal in base ten, and in base
    sixteen `2 ^ 64` is none. -/
theorem value_exact_least :
    let t := utf8 "-9223372036854775809"
    let t' := utf8 "0x10000000000000000"
    (value t = .error (.notDecimal t) ∧ value t' = .error (.badDigits t' .hexadecimal)) ∧
    ((∃ radix, radix.mark <+: t' ∧ Fault.badDigits t' .hexadecimal = .badDigits t' radix) ∨
      (∀ radix : Radix, ¬ radix.mark <+: t') ∧
        Fault.badDigits t' .hexadecimal = .notDecimal t') ∧
    (Error.ofFault (.badLiteral (.notDecimal t))).category = .literal ∧
    utf8 "invalid literal: " <+: (Error.ofFault (.badLiteral (.notDecimal t))).message ∧
    value (utf8 "-9223372036854775808") = .ok Int64.minValue ∧
    value (utf8 "0x008000000000000000") = .ok Int64.minValue := by
  intro t t'
  have ht : value t = .error (.notDecimal t) := by decide +kernel
  have ht' : value t' = .error (.badDigits t' .hexadecimal) := by decide +kernel
  have hdecimal : Numeral.ofInt Int64.minValue.toInt = utf8 "-9223372036854775808" := by
    decide +kernel
  have hmarked : Radix.hexadecimal.mark ++ (List.replicate 2 0x30 ++
      Numeral.inBase Radix.hexadecimal.base (Int64.minValue.toInt % UInt64.size).toNat) =
      utf8 "0x008000000000000000" := by decide +kernel
  obtain ⟨-, -, herror, hwords⟩ := value_exact
  obtain ⟨hofInt, hpattern⟩ := hwords Int64.minValue
  exact ⟨⟨ht, ht'⟩, (herror t' _ ht').1, (herror t _ ht).2.1, (herror t _ ht).2.2,
    hdecimal ▸ hofInt, hmarked ▸ hpattern .hexadecimal 2⟩

end Literal

end BlockAsm
