/-
  BlockAsm: the UTF-8 reading of a text.

  Every text is read as a sequence of units (`Text.runes`): a scalar value
  where the bytes encode one, and otherwise a single stray byte.

  * `frontChar?_eq_some_iff`: the reading takes a character exactly where its
    encoding stands;
  * `flatMap_bytes_runes`: the bytes of the units, in order, are the text.
-/
import BlockAsm.Text.Basic

namespace BlockAsm

/-- A unit of the UTF-8 reading of a text. -/
inductive Rune where
  /-- a well-formed encoding of `c` -/
  | scalar (c : Char)
  /-- a byte that starts no well-formed encoding -/
  | stray (b : UInt8)
  deriving DecidableEq, Repr

/-- The bytes that a unit stands for. -/
def Rune.bytes : Rune → Text
  | scalar c => String.utf8EncodeChar c
  | stray b => [b]

namespace Text

/-- The character whose encoding the text starts with. -/
def frontChar? (t : Text) : Option Char := (t.take 4).toByteArray.utf8DecodeChar? 0

/-- The units of a text of which `skip` more bytes belong to the unit before. -/
def runesFrom : Nat → Text → List Rune
  | _, [] => []
  | skip + 1, _ :: rest => runesFrom skip rest
  | 0, b :: rest =>
    match frontChar? (b :: rest) with
    | some c => .scalar c :: runesFrom (c.utf8Size - 1) rest
    | none => .stray b :: runesFrom 0 rest

/-- The units of a text. -/
def runes (t : Text) : List Rune := runesFrom 0 t

/-! ## Nothing is lost -/

/-- The front character is the one whose encoding the text starts with. -/
theorem frontChar?_eq_some_iff {t : Text} {c : Char} :
    t.frontChar? = some c ↔ String.utf8EncodeChar c <+: t := by
  unfold frontChar?
  constructor
  · intro h
    obtain ⟨l, hl⟩ := ByteArray.exists_of_utf8DecodeChar?_eq_some h
    have hdata : l.data.toList.toByteArray = l := ByteArray.ext (by simp [List.data_toByteArray])
    have : t.take 4 = String.utf8EncodeChar c ++ l.data.toList := by
      apply List.toByteArray_inj.1
      rw [List.toByteArray_append, hl, hdata]
    exact ⟨l.data.toList ++ t.drop 4, by rw [← List.append_assoc, ← this, List.take_append_drop]⟩
  · rintro ⟨rest, rfl⟩
    have hlen : (String.utf8EncodeChar c).length ≤ 4 := by
      rw [String.length_utf8EncodeChar]; exact c.utf8Size_le_four
    rw [List.take_append, List.take_of_length_le hlen, List.toByteArray_append]
    exact ByteArray.utf8DecodeChar?_utf8EncodeChar_append

theorem flatMap_bytes_runesFrom (skip : Nat) (t : Text) :
    (runesFrom skip t).flatMap Rune.bytes = t.drop skip := by
  induction t generalizing skip with
  | nil => simp [runesFrom]
  | cons b rest ih =>
    cases skip with
    | succ skip => simpa [runesFrom] using ih skip
    | zero =>
      unfold runesFrom
      split
      · rename_i c hc
        obtain ⟨tail, ht⟩ := frontChar?_eq_some_iff.1 hc
        have hlen : (String.utf8EncodeChar c).length = c.utf8Size := String.length_utf8EncodeChar c
        have hpos := c.utf8Size_pos
        obtain ⟨a, l, hal⟩ : ∃ a l, String.utf8EncodeChar c = a :: l := by
          cases h : String.utf8EncodeChar c with
          | nil => simp [h] at hlen; omega
          | cons a l => exact ⟨a, l, rfl⟩
        rw [hal] at ht hlen
        simp only [List.cons_append, List.cons.injEq] at ht
        obtain ⟨rfl, rfl⟩ := ht
        simp only [List.flatMap_cons, Rune.bytes, hal, ih, List.cons_append, List.drop_zero]
        have : c.utf8Size - 1 = l.length := by simp at hlen; omega
        rw [this, List.drop_left]
      · simp [Rune.bytes, ih]

/-- The bytes of the units of a text are the text. -/
theorem flatMap_bytes_runes (t : Text) : t.runes.flatMap Rune.bytes = t := by
  rw [runes, flatMap_bytes_runesFrom, List.drop_zero]

end Text

end BlockAsm
