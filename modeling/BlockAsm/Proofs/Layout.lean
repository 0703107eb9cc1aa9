/-
  BlockAsm: what tidying and indenting do to a text.

  Both go line by line.  From the end of a line tidying takes what `IsTidied` says, and this leaves
  one text only (`tidyLine_eq_iff`).  So tidying a text once more takes something if a line ends in
  two terminators, and only then (`isTerminated_tidied_iff`).  Indenting puts the same in front of
  every line that is not empty, and does so once for all when it is done level by level
  (`indent_indent`, `indent_iterate`).
-/
import BlockAsm.Proofs.Lines
import Mathlib.Data.List.DropRight
import Mathlib.Logic.Function.Iterate

namespace BlockAsm.Layout

/-! ## Spacing at the end of a text -/

/-- Spaces and tabulators only. -/
def IsSpacing (i : Text) : Prop := ∀ b ∈ i, Byte.isSpacing b = true

theorem isSpacing_nil : IsSpacing [] := by intro b hb; exact absurd hb List.not_mem_nil

theorem IsSpacing.append {gap gap' : Text} (h : IsSpacing gap) (h' : IsSpacing gap') :
    IsSpacing (gap ++ gap') := by
  intro b hb
  rcases List.mem_append.1 hb with hb | hb
  · exact h b hb
  · exact h' b hb

theorem IsSpacing.not_mem {i : Text} (hi : IsSpacing i) {b : UInt8}
    (hb : Byte.isSpacing b = false) : b ∉ i := by
  intro h; rw [hi b h] at hb; cases hb

/-- The text does not end in spacing. -/
def Trimmed (t : Text) : Prop := ∀ b, t.getLast? = some b → Byte.isSpacing b = false

theorem trimmed_concat (t : Text) {b : UInt8} (h : Byte.isSpacing b = false) :
    Trimmed (t ++ [b]) := by
  intro c hc
  rw [List.getLast?_concat] at hc
  cases hc
  exact h

theorem trimRight_append_spacing (t : Text) {gap : Text} (h : IsSpacing gap) :
    (t ++ gap).trimRight = t.trimRight := by
  have hgap : gap.reverse.dropWhile Byte.isSpacing = [] :=
    List.dropWhile_eq_nil_iff.2 fun b hb => h b (List.mem_reverse.1 hb)
  rw [Text.trimRight, List.reverse_append, List.dropWhile_append, hgap]
  rfl

/-- Trimming splits a text into a trimmed front and spacing, in the one way there is. -/
theorem trimRight_eq_iff {t p : Text} :
    t.trimRight = p ↔ Trimmed p ∧ ∃ gap, t = p ++ gap ∧ IsSpacing gap := by
  constructor
  · rintro rfl
    refine ⟨fun b hb => ?_, t.rtakeWhile Byte.isSpacing,
      List.rdropWhile_append_rtakeWhile.symm, fun b => List.mem_rtakeWhile_imp⟩
    have hne : t.trimRight ≠ [] := by rintro hn; rw [hn] at hb; cases hb
    rw [List.getLast?_eq_some_getLast hne] at hb
    cases hb
    exact eq_false_of_ne_true (List.rdropWhile_last_not Byte.isSpacing t hne)
  · rintro ⟨hp, gap, rfl, hgap⟩
    rw [trimRight_append_spacing p hgap]
    refine List.rdropWhile_eq_self_iff.2 fun hne => ?_
    rw [hp _ (List.getLast?_eq_some_getLast hne)]
    exact Bool.false_ne_true

theorem trimRight_trimRight (t : Text) : t.trimRight.trimRight = t.trimRight :=
  List.rdropWhile_idempotent Byte.isSpacing t

/-! ## Tidying a line -/

/-- The text ends in a terminator, with nothing but spacing behind it. -/
def Terminated (m : Text) : Prop :=
  ∃ front gap, m = front ++ Byte.semicolon :: gap ∧ IsSpacing gap

/-- The text ends in two terminators, with nothing but spacing between and behind them. -/
def TwiceTerminated (m : Text) : Prop :=
  ∃ front gap gap', m = front ++ Byte.semicolon :: (gap ++ Byte.semicolon :: gap') ∧
    IsSpacing gap ∧ IsSpacing gap'

/-- The line `m` is `p`, which does not end in spacing, and an end that is taken from it: spacing,
    if the line is not terminated; or a terminator, with spacing before and behind it. -/
def IsTidied (m p : Text) : Prop :=
  Trimmed p ∧ ∃ s, m = p ++ s ∧
    (IsSpacing s ∧ ¬ Terminated m ∨
      ∃ gap gap', s = gap ++ Byte.semicolon :: gap' ∧ IsSpacing gap ∧ IsSpacing gap')

theorem Terminated.append {m gap : Text} (h : Terminated m) (hgap : IsSpacing gap) :
    Terminated (m ++ gap) := by
  obtain ⟨front, gap', rfl, hgap'⟩ := h
  exact ⟨front, gap' ++ gap, by simp, hgap'.append hgap⟩

theorem tidyLine_of_terminator (front : Text) {gap : Text} (h : IsSpacing gap) :
    tidyLine (front ++ Byte.semicolon :: gap) = front.trimRight := by
  have htrim : (front ++ Byte.semicolon :: gap).trimRight = front ++ [Byte.semicolon] :=
    trimRight_eq_iff.2 ⟨trimmed_concat front (by decide), gap, by simp, h⟩
  rw [tidyLine, htrim, Text.dropTerminator, Text.dropEnd_append_singleton]

theorem tidyLine_of_not_terminated {m : Text} (h : ¬ Terminated m) : tidyLine m = m.trimRight := by
  obtain ⟨-, gap, hm, hgap⟩ := trimRight_eq_iff.1 (Eq.refl m.trimRight)
  have hdrop : m.trimRight.dropTerminator = m.trimRight := by
    refine if_neg fun he => h ?_
    obtain ⟨front, hfront⟩ := Text.endsIn_iff.1 he
    rw [hm]
    exact Terminated.append ⟨front, [], hfront, isSpacing_nil⟩ hgap
  rw [tidyLine, hdrop, trimRight_trimRight]

/-- A tidied line is what is left of the line, in the one way there is. -/
theorem tidyLine_eq_iff {m p : Text} : tidyLine m = p ↔ IsTidied m p := by
  constructor
  · rintro rfl
    -- the terminator hides the spacing before it from the first trimming, not from the second
    by_cases h : Terminated m
    · obtain ⟨front, gap', rfl, hgap'⟩ := h
      obtain ⟨hp, gap, hfront, hgap⟩ := trimRight_eq_iff.1 (Eq.refl front.trimRight)
      rw [tidyLine_of_terminator front hgap']
      refine ⟨hp, gap ++ Byte.semicolon :: gap', ?_, .inr ⟨gap, gap', rfl, hgap, hgap'⟩⟩
      rw [← List.append_assoc, ← hfront]
    · obtain ⟨hp, gap, hm, hgap⟩ := trimRight_eq_iff.1 (Eq.refl m.trimRight)
      rw [tidyLine_of_not_terminated h]
      exact ⟨hp, gap, hm, .inl ⟨hgap, h⟩⟩
  · rintro ⟨hp, s, rfl, ⟨hs, h⟩ | ⟨gap, gap', rfl, hgap, hgap'⟩⟩
    · rw [tidyLine_of_not_terminated h]
      exact trimRight_eq_iff.2 ⟨hp, s, rfl, hs⟩
    · rw [← List.append_assoc, tidyLine_of_terminator _ hgap']
      exact trimRight_eq_iff.2 ⟨hp, gap, rfl, hgap⟩

/-! ## Tidying once more -/

theorem Trimmed.isTerminated_iff {p : Text} (hp : Trimmed p) :
    p.isTerminated = true ↔ Terminated p := by
  rw [Text.isTerminated, Text.endsIn_iff]
  constructor
  · rintro ⟨front, rfl⟩
    exact ⟨front, [], rfl, isSpacing_nil⟩
  · rintro ⟨front, gap, rfl, hgap⟩
    rcases List.eq_nil_or_concat gap with rfl | ⟨gap, b, rfl⟩
    · exact ⟨front, rfl⟩
    · -- spacing behind the terminator would be the end of a trimmed text
      have hb := hp b (by simp [List.getLast?_cons])
      rw [hgap b (by simp)] at hb
      cases hb

/-- A line is tidy if it ends neither in spacing nor in a terminator. -/
theorem tidyLine_eq_self_iff {p : Text} : tidyLine p = p ↔ Trimmed p ∧ ¬ Terminated p := by
  rw [tidyLine_eq_iff]
  constructor
  · rintro ⟨hp, s, hs, ⟨-, h⟩ | ⟨gap, gap', rfl, -⟩⟩
    · exact ⟨hp, h⟩
    · simp at hs
  · rintro ⟨hp, h⟩
    exact ⟨hp, [], (List.append_nil p).symm, .inl ⟨isSpacing_nil, h⟩⟩

theorem tidied_tidied_eq_iff (l : Text) :
    tidied (tidied l) = tidied l ↔ (tidied l).isTerminated = false := by
  have hbraces : dropBraces (tidied l) = tidied l :=
    dropBraces_of_forall fun b hb => (mem_of_mem_tidied hb).2
  have htrimmed : Trimmed (tidied l) := (tidyLine_eq_iff.1 rfl).1
  rw [tidied, hbraces, tidyLine_eq_self_iff, ← htrimmed.isTerminated_iff, Bool.not_eq_true]
  exact and_iff_right htrimmed

theorem tidy_eq_self_iff (t : Text) : tidy t = t ↔ ∀ l ∈ lines t, tidied l = l := by
  constructor
  · intro h
    have hl := lines_tidy t
    rw [h] at hl
    exact List.map_eq_map_iff.1 (hl.symm.trans (List.map_id _).symm)
  · intro h
    rw [← unlines_lines (tidy t), lines_tidy, List.map_congr_left h, List.map_id', unlines_lines]

theorem isTerminated_tidied_iff {l : Text} :
    (tidied l).isTerminated = true ↔ TwiceTerminated (dropBraces l) := by
  rw [Text.isTerminated, Text.endsIn_iff]
  constructor
  · rintro ⟨front, hfront⟩
    obtain ⟨-, s, hl, ⟨hs, h⟩ | ⟨gap, gap', rfl, hgap, hgap'⟩⟩ := tidyLine_eq_iff.1 hfront
    · exact absurd ⟨front, s, by simp [hl], hs⟩ h
    · exact ⟨front, gap, gap', by simp [hl], hgap, hgap'⟩
  · rintro ⟨front, gap, gap', hl, hgap, hgap'⟩
    refine ⟨front, tidyLine_eq_iff.2 ⟨trimmed_concat front (by decide), _, ?_,
      .inr ⟨gap, gap', rfl, hgap, hgap'⟩⟩⟩
    simp [hl]

/-- **Tidying trims line by line.**  A text is tidied on both sides of any of its line ends; of a
    line, without its braces, is left what stands before its end, and nothing else could be.  Tidying
    once more changes nothing if no line, without its braces, ends in two terminators, and only
    then. -/
theorem tidy_trims_lines :
    (∀ a b, tidy (a ++ Byte.newline :: b) = tidy a ++ Byte.newline :: tidy b) ∧
    (∀ l, Byte.newline ∉ l → ∀ p, p = tidy l ↔ IsTidied (dropBraces l) p) ∧
    ∀ t, tidy (tidy t) = tidy t ↔ ∀ l ∈ lines t, ¬ TwiceTerminated (dropBraces l) := by
  refine ⟨tidy_append_newline, fun l hl p => ?_, fun t => ?_⟩
  · rw [tidy_of_not_mem hl, eq_comm]
    exact tidyLine_eq_iff
  · rw [tidy_eq_self_iff, lines_tidy]
    simp only [List.forall_mem_map, tidied_tidied_eq_iff, ← isTerminated_tidied_iff,
      Bool.not_eq_true]

/-- Two terminators with braces around them, and blanks on all sides. -/
theorem tidy_trims_lines_twice_terminated :
    let l := utf8 "mov \x7b;\x7d \t; \x7d\t"
    let p := utf8 "mov ;"
    (Byte.newline ∉ l ∧ p = tidy l) ∧ IsTidied (dropBraces l) p ∧
    tidy (l ++ Byte.newline :: l) = tidy l ++ Byte.newline :: tidy l ∧
    (tidy p = utf8 "mov" ∧ (tidy (tidy l) = tidy l ↔
      ∀ k ∈ lines l, ¬ TwiceTerminated (dropBraces k))) := by
  intro l p
  have hl : Byte.newline ∉ l := by decide
  have hp : p = tidy l := by decide +kernel
  obtain ⟨happend, hline, htwice⟩ := tidy_trims_lines
  exact ⟨⟨hl, hp⟩, (hline l hl p).1 hp, happend l l, by decide +kernel, htwice l⟩

/-! ## Indenting -/

theorem lines_indent {i : Text} (hi : Byte.newline ∉ i) (t : Text) :
    lines (indent i t) = (lines t).map (indentLine i) := by
  refine lines_unlines (by simp [lines_ne_nil]) fun l hl => ?_
  obtain ⟨k, hk, rfl⟩ := List.mem_map.1 hl
  unfold indentLine; split
  · exact List.not_mem_nil
  · intro hm
    rcases List.mem_append.1 hm with hm | hm
    · exact hi hm
    · exact not_mem_of_mem_lines hk hm

theorem indentLine_nil (l : Text) : indentLine [] l = l := by
  unfold indentLine; split
  · rename_i h; exact h.symm
  · rfl

theorem indent_nil_left (t : Text) : indent [] t = t := by
  rw [indent, List.map_congr_left fun l _ => indentLine_nil l, List.map_id', unlines_lines]

theorem indentLine_indentLine (a b l : Text) :
    indentLine a (indentLine b l) = indentLine (a ++ b) l := by
  by_cases hl : l = []
  · subst hl; rfl
  · have hne : b ++ l ≠ [] := fun h => hl (List.append_eq_nil_iff.1 h).2
    rw [indentLine, indentLine, indentLine, if_neg hl, if_neg hne, if_neg hl, List.append_assoc]

/-- Indenting an indented text is indenting it once, by both. -/
theorem indent_indent (a : Text) {b : Text} (hb : Byte.newline ∉ b) (t : Text) :
    indent a (indent b t) = indent (a ++ b) t := by
  have hlines : (indentLine a ∘ indentLine b) = indentLine (a ++ b) :=
    funext (indentLine_indentLine a b)
  rw [indent, lines_indent hb, List.map_map, hlines, indent]

theorem mem_of_mem_levels {i : Text} {depth : Nat} {b : UInt8}
    (h : b ∈ (List.replicate depth i).flatten) : b ∈ i := by
  obtain ⟨l, hl, hb⟩ := List.mem_flatten.1 h
  rwa [List.eq_of_mem_replicate hl] at hb

/-- Indenting level by level is indenting once, by all levels together. -/
theorem indent_iterate {b : Text} (hb : Byte.newline ∉ b) (t : Text) :
    ∀ depth, (indent b)^[depth] t = indent (List.replicate depth b).flatten t
  | 0 => (indent_nil_left t).symm
  | depth + 1 => by
    have hlevels : Byte.newline ∉ (List.replicate depth b).flatten := fun h =>
      hb (mem_of_mem_levels h)
    rw [Function.iterate_succ_apply', indent_iterate hb t depth, indent_indent b hlevels]
    rfl

/-- **Indentation composes.**  Indenting an indented text is indenting it by both, the outer one
    first, if the inner one has no line end.  An indentation without a line end keeps the number of
    lines; it leaves an empty line empty and stands once in front of every other one, the last line
    included; it is put on both sides of a line end; and level by level it adds up. -/
theorem indentation_composes :
    (∀ a b t, Byte.newline ∉ b → indent a (indent b t) = indent (a ++ b) t) ∧
    ∀ b, Byte.newline ∉ b →
      (∀ t, (lines (indent b t)).length = (lines t).length ∧ ∀ (k : Nat) l, (lines t)[k]? = some l →
        (lines (indent b t))[k]? = some (if l = [] then [] else b ++ l)) ∧
      (∀ s t, indent b (s ++ Byte.newline :: t) = indent b s ++ Byte.newline :: indent b t) ∧
      ∀ depth t, (indent b)^[depth] t = indent (List.replicate depth b).flatten t := by
  refine ⟨fun a b t hb => indent_indent a hb t, fun b hb => ⟨fun t => ?_, indent_append_newline b,
    fun depth t => indent_iterate hb t depth⟩⟩
  rw [lines_indent hb]
  refine ⟨List.length_map .., fun k l hl => ?_⟩
  rw [List.getElem?_map, hl]
  rfl

/-- An indentation with a line end around one without, and a last line that is not finished. -/
theorem indentation_composes_open_line :
    let a := utf8 "\n> "
    let b := utf8 "\t"
    let t := utf8 "x\n\ny;"
    (Byte.newline ∉ b ∧ (lines t)[1]? = some [] ∧ (lines t)[2]? = some (utf8 "y;")) ∧
    indent a (indent b t) = indent (a ++ b) t ∧
    ((lines (indent b t)).length = (lines t).length ∧ (lines (indent b t))[1]? = some [] ∧
      (lines (indent b t))[2]? = some (utf8 "\ty;")) ∧
    indent b (t ++ Byte.newline :: t) = indent b t ++ Byte.newline :: indent b t ∧
    (indent b)^[3] t = indent (utf8 "\t\t\t") t := by
  intro a b t
  have hb : Byte.newline ∉ b := by decide
  have h1 : (lines t)[1]? = some [] := by decide +kernel
  have h2 : (lines t)[2]? = some (utf8 "y;") := by decide +kernel
  obtain ⟨hcomp, hrest⟩ := indentation_composes
  obtain ⟨hlines, happend, hlevels⟩ := hrest b hb
  obtain ⟨hlen, hline⟩ := hlines t
  exact ⟨⟨hb, h1, h2⟩, hcomp a b t hb, ⟨hlen, hline 1 _ h1, hline 2 _ h2⟩, happend t t, hlevels 3 t⟩

end BlockAsm.Layout
