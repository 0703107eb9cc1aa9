/-
  BlockAsm: texts.

  A `Text` is a byte string, UTF-8 or not; sources, tokens, operands, messages
  and output are all texts.  This file holds the literals of the library
  (`utf8`), the bytes that its rules name, and the ways a text is cut:

  * `split` and `join`: at every occurrence of a byte, and back;
  * `cutFirst?` and `cutLast?`: at the first or the last occurrence of a byte;
  * `dropFront?` and `dropTerminator`: a given front, one terminator at the end;
  * `trimRight`: blanks at the end of a line.
-/
namespace BlockAsm

/-- A byte string. -/
abbrev Text := List UInt8

/-- The UTF-8 encoding of a string. -/
def utf8 (s : String) : Text := s.toList.flatMap String.utf8EncodeChar

namespace Byte

/-- The tabulator. -/
abbrev tab : UInt8 := 0x09

/-- The line end. -/
abbrev newline : UInt8 := 0x0A

/-- The ASCII space. -/
abbrev space : UInt8 := 0x20

/-- The double quote. -/
abbrev doubleQuote : UInt8 := 0x22

/-- The ampersand, which marks a memory operand. -/
abbrev ampersand : UInt8 := 0x26

/-- The single quote. -/
abbrev singleQuote : UInt8 := 0x27

/-- The opening parenthesis of a call. -/
abbrev lparen : UInt8 := 0x28

/-- The closing parenthesis of a call. -/
abbrev rparen : UInt8 := 0x29

/-- The comma between the arguments of a call. -/
abbrev comma : UInt8 := 0x2C

/-- The terminator of a statement. -/
abbrev semicolon : UInt8 := 0x3B

/-- The opening brace of a block. -/
abbrev lbrace : UInt8 := 0x7B

/-- The closing brace of a block. -/
abbrev rbrace : UInt8 := 0x7D

/-- A brace of either kind. -/
def isBrace (b : UInt8) : Bool := b == lbrace || b == rbrace

/-- A space or a tabulator: what is trimmed at the end of a line. -/
def isSpacing (b : UInt8) : Bool := b == space || b == tab

end Byte

namespace Text

/-- Whether `needle` stands somewhere in the text. -/
def includes (t needle : Text) : Bool :=
  match t with
  | [] => needle.isEmpty
  | b :: rest => needle.isPrefixOf (b :: rest) || includes rest needle

/-- The text behind `front`, if the text starts with it. -/
def dropFront? (t front : Text) : Option Text :=
  match t, front with
  | rest, [] => some rest
  | b :: rest, a :: front => if b = a then dropFront? rest front else none
  | [], _ :: _ => none

/-- The pieces between the occurrences of `sep`: one more than there are occurrences. -/
def split (sep : UInt8) : Text → List Text
  | [] => [[]]
  | b :: rest =>
    if b = sep then [] :: split sep rest
    else match split sep rest with
      | [] => [[b]]
      | piece :: pieces => (b :: piece) :: pieces

/-- The pieces with `sep` between them. -/
def join (sep : Text) : List Text → Text
  | [] => []
  | [piece] => piece
  | piece :: pieces => piece ++ sep ++ join sep pieces

/-- What stands before and behind the first `sep`. -/
def cutFirst? (sep : UInt8) : Text → Option (Text × Text)
  | [] => none
  | b :: rest =>
    if b = sep then some ([], rest)
    else (cutFirst? sep rest).map fun (before, behind) => (b :: before, behind)

/-- What stands before and behind the last `sep`. -/
def cutLast? (sep : UInt8) : Text → Option (Text × Text)
  | [] => none
  | b :: rest =>
    match cutLast? sep rest with
    | some (before, behind) => some (b :: before, behind)
    | none => if b = sep then some ([], rest) else none

/-- Whether the last byte is `b`. -/
def endsIn (b : UInt8) (t : Text) : Bool := t.getLast? == some b

/-- The text without one last `b`, or as it is if it ends otherwise. -/
def dropEnd (b : UInt8) (t : Text) : Text := if t.endsIn b then t.dropLast else t

/-- The text without one terminator at its end. -/
def dropTerminator (t : Text) : Text := t.dropEnd Byte.semicolon

/-- Whether the text ends in a terminator. -/
def isTerminated (t : Text) : Bool := t.endsIn Byte.semicolon

/-- The text without the spaces and tabulators at its end. -/
def trimRight (t : Text) : Text := (t.reverse.dropWhile Byte.isSpacing).reverse

/-! ## What the cuts say -/

theorem includes_iff {t needle : Text} : t.includes needle ↔ needle <:+: t := by
  induction t with
  | nil => simp [includes]
  | cons b rest ih => simp [includes, ih, List.infix_cons_iff]

theorem dropFront?_eq_some_iff {t front rest : Text} :
    t.dropFront? front = some rest ↔ t = front ++ rest := by
  induction front generalizing t with
  | nil => simp [dropFront?]
  | cons a front ih =>
    cases t with
    | nil => simp [dropFront?]
    | cons b t =>
      by_cases h : b = a
      · simp [dropFront?, h, ih]
      · simp [dropFront?, h]

theorem dropFront?_eq_none_iff {t front : Text} : t.dropFront? front = none ↔ ¬ front <+: t := by
  rw [Option.eq_none_iff_forall_ne_some]
  exact ⟨fun h ⟨rest, hr⟩ => h rest (dropFront?_eq_some_iff.2 hr.symm),
    fun h rest hr => h ⟨rest, (dropFront?_eq_some_iff.1 hr).symm⟩⟩

theorem split_ne_nil (sep : UInt8) (t : Text) : split sep t ≠ [] := by
  cases t with
  | nil => simp [split]
  | cons b rest =>
    unfold split
    split
    · simp
    · split <;> simp

/-- Joining the pieces of a split gives the text back. -/
theorem join_split (sep : UInt8) (t : Text) : join [sep] (split sep t) = t := by
  induction t with
  | nil => rfl
  | cons b rest ih =>
    unfold split
    split
    · rename_i h
      subst h
      obtain ⟨piece, pieces, hs⟩ := List.exists_cons_of_ne_nil (split_ne_nil b rest)
      rw [hs] at ih ⊢
      simp [join, ih]
    · split
      · rename_i hs; exact absurd hs (split_ne_nil sep rest)
      · rename_i piece pieces hs
        rw [hs] at ih
        cases pieces with
        | nil => simpa [join] using ih
        | cons p ps => simpa [join] using ih

theorem eq_of_cutFirst? {sep : UInt8} {t before behind : Text}
    (h : t.cutFirst? sep = some (before, behind)) :
    t = before ++ sep :: behind ∧ sep ∉ before := by
  induction t generalizing before with
  | nil => cases h
  | cons b rest ih =>
    by_cases hb : b = sep
    · simp only [cutFirst?, hb, ↓reduceIte, Option.some.injEq, Prod.mk.injEq] at h
      obtain ⟨rfl, rfl⟩ := h
      simp [hb]
    · simp only [cutFirst?, hb, ↓reduceIte, Option.map_eq_some_iff, Prod.exists] at h
      obtain ⟨before', behind', h', he⟩ := h
      obtain ⟨rfl, rfl⟩ := Prod.mk.inj he
      obtain ⟨rfl, hn⟩ := ih h'
      exact ⟨rfl, by simp [hn, Ne.symm hb]⟩

theorem cutLast?_eq_none_iff {sep : UInt8} {t : Text} : t.cutLast? sep = none ↔ sep ∉ t := by
  induction t with
  | nil => simp [cutLast?]
  | cons b rest ih =>
    cases hc : cutLast? sep rest with
    | none =>
      have := ih.1 hc
      by_cases hb : b = sep
      · simp [cutLast?, hc, hb]
      · simp [cutLast?, hc, hb, this, Ne.symm hb]
    | some p =>
      have : sep ∈ rest := by
        by_cases hm : sep ∈ rest
        · exact hm
        · rw [ih.2 hm] at hc; cases hc
      simp [cutLast?, hc, this]

theorem eq_of_cutLast? {sep : UInt8} {t before behind : Text}
    (h : t.cutLast? sep = some (before, behind)) :
    t = before ++ sep :: behind ∧ sep ∉ behind := by
  induction t generalizing before with
  | nil => cases h
  | cons b rest ih =>
    cases hc : cutLast? sep rest with
    | none =>
      simp only [cutLast?, hc] at h
      split at h
      · rename_i hb
        obtain ⟨rfl, rfl⟩ := Prod.mk.inj (Option.some.inj h)
        exact ⟨by simp [hb], cutLast?_eq_none_iff.1 hc⟩
      · cases h
    | some p =>
      simp only [cutLast?, hc] at h
      obtain ⟨rfl, rfl⟩ := Prod.mk.inj (Option.some.inj h)
      obtain ⟨hr, hn⟩ := ih hc
      exact ⟨by rw [hr]; rfl, hn⟩

end Text

end BlockAsm
