/-
  BlockAsm: texts line by line.

  * `lines_append_newline`, `lines_tidy`: the lines of a text cut at a line end, and of a
    tidied one;
  * `tidy_append_newline`, `indent_append_newline`: tidying and indenting go line by line;
  * `finished`: the text of lines that all have their line end;
  * `IsNeat`: the lines that tidying leaves as they are.
-/
import BlockAsm.Lowering.Output

namespace BlockAsm

/-! ## Cutting and joining -/

namespace Text

theorem split_append_sep (sep : UInt8) (a b : Text) :
    split sep (a ++ sep :: b) = split sep a ++ split sep b := by
  induction a with
  | nil => simp [split]
  | cons x a ih =>
    by_cases hx : x = sep
    · simp [split, hx, ih]
    · obtain ⟨piece, pieces, hs⟩ := List.exists_cons_of_ne_nil (split_ne_nil sep a)
      simp [split, hx, ih, hs]

theorem split_of_not_mem {sep : UInt8} {t : Text} (h : sep ∉ t) : split sep t = [t] := by
  induction t with
  | nil => rfl
  | cons x t ih =>
    rw [List.mem_cons, not_or] at h
    simp [split, Ne.symm h.1, ih h.2]

theorem not_mem_of_mem_split {sep : UInt8} :
    ∀ {t piece : Text}, piece ∈ split sep t → sep ∉ piece
  | [], piece, h => by simp [split] at h; simp [h]
  | x :: t, piece, h => by
    by_cases hx : x = sep
    · rw [split, if_pos hx] at h
      rcases List.mem_cons.1 h with rfl | h
      · simp
      · exact not_mem_of_mem_split h
    · obtain ⟨p, ps, hs⟩ := List.exists_cons_of_ne_nil (split_ne_nil sep t)
      rw [split, if_neg hx, hs] at h
      rcases List.mem_cons.1 h with rfl | h
      · have := not_mem_of_mem_split (hs ▸ List.mem_cons_self : p ∈ split sep t)
        simp [Ne.symm hx, this]
      · exact not_mem_of_mem_split (hs ▸ List.mem_cons_of_mem _ h)

theorem cutFirst?_append {sep : UInt8} {a : Text} (h : sep ∉ a) (b : Text) :
    cutFirst? sep (a ++ sep :: b) = some (a, b) := by
  induction a with
  | nil => simp [cutFirst?]
  | cons x a ih =>
    rw [List.mem_cons, not_or] at h
    simp [cutFirst?, Ne.symm h.1, ih h.2]

theorem cutLast?_append {sep : UInt8} (a : Text) {b : Text} (h : sep ∉ b) :
    cutLast? sep (a ++ sep :: b) = some (a, b) := by
  induction a with
  | nil => simp [cutLast?, cutLast?_eq_none_iff.2 h]
  | cons x a ih => simp [cutLast?, ih]

theorem join_append (sep : Text) {ps qs : List Text} (hp : ps ≠ []) (hq : qs ≠ []) :
    join sep (ps ++ qs) = join sep ps ++ sep ++ join sep qs := by
  induction ps with
  | nil => exact absurd rfl hp
  | cons p ps ih =>
    cases ps with
    | nil =>
      obtain ⟨q, qs, rfl⟩ := List.exists_cons_of_ne_nil hq
      simp [join]
    | cons p' ps =>
      have := ih (by simp)
      simp only [List.cons_append, join, List.append_assoc] at this ⊢
      rw [this]

theorem join_concat (sep last : Text) : ∀ ps : List Text,
    join sep (ps ++ [last]) = ps.flatMap (· ++ sep) ++ last
  | [] => rfl
  | p :: ps => by
    rw [List.cons_append, List.flatMap_cons, List.append_assoc, ← join_concat sep last ps]
    cases ps <;> rfl

theorem infix_join_of_mem (sep : Text) {piece : Text} : ∀ {pieces : List Text}, piece ∈ pieces →
    piece <:+: join sep pieces
  | [_], h => by rw [List.mem_singleton.1 h]; exact List.infix_refl _
  | p :: q :: pieces, h => by
    rcases List.mem_cons.1 h with rfl | h
    · exact ⟨[], sep ++ join sep (q :: pieces), by simp [join]⟩
    · exact (infix_join_of_mem sep h).trans ⟨p ++ sep, [], by simp [join]⟩

end Text

namespace Layout

theorem lines_ne_nil (t : Text) : lines t ≠ [] := Text.split_ne_nil _ t

theorem lines_append_newline (a b : Text) :
    lines (a ++ Byte.newline :: b) = lines a ++ lines b := Text.split_append_sep _ a b

theorem lines_cons {b : UInt8} (hb : b ≠ Byte.newline) {t l : Text} {ls : List Text}
    (h : lines t = l :: ls) : lines (b :: t) = (b :: l) :: ls := by
  simp only [lines] at h
  simp [lines, Text.split, hb, h]

theorem lines_of_not_mem {l : Text} (h : Byte.newline ∉ l) : lines l = [l] :=
  Text.split_of_not_mem h

theorem not_mem_of_mem_lines {t l : Text} (h : l ∈ lines t) : Byte.newline ∉ l :=
  Text.not_mem_of_mem_split h

@[simp]
theorem unlines_lines (t : Text) : unlines (lines t) = t := Text.join_split _ t

theorem lines_unlines : ∀ {ls : List Text}, ls ≠ [] → (∀ l ∈ ls, Byte.newline ∉ l) →
    lines (unlines ls) = ls
  | [], h, _ => absurd rfl h
  | [l], _, hl => lines_of_not_mem (hl l (by simp))
  | l :: l' :: ls, _, hl => by
    have ih := @lines_unlines (l' :: ls) (by simp) fun k hk => hl k (by simp [hk])
    have hcons : unlines (l :: l' :: ls) = l ++ Byte.newline :: unlines (l' :: ls) := by
      simp [unlines, Text.join]
    rw [hcons, lines_append_newline, lines_of_not_mem (hl l (by simp)), ih]
    rfl

theorem unlines_append {ls ks : List Text} (hl : ls ≠ []) (hk : ks ≠ []) :
    unlines (ls ++ ks) = unlines ls ++ Byte.newline :: unlines ks := by
  rw [unlines, Text.join_append _ hl hk, List.append_assoc]
  rfl

/-! ## Tidying and indenting go line by line -/

theorem dropBraces_append (a b : Text) : dropBraces (a ++ b) = dropBraces a ++ dropBraces b :=
  List.filter_append ..

theorem dropBraces_of_forall {t : Text} (h : ∀ b ∈ t, Byte.isBrace b = false) :
    dropBraces t = t := by
  refine List.filter_eq_self.2 fun b hb => ?_
  rw [h b hb]; rfl

/-- What tidying makes of one line. -/
def tidied (l : Text) : Text := tidyLine (dropBraces l)

theorem mem_of_mem_trimRight {t : Text} {b : UInt8} (h : b ∈ t.trimRight) : b ∈ t := by
  rw [Text.trimRight, List.mem_reverse] at h
  exact List.mem_reverse.1 ((List.dropWhile_sublist _).subset h)

theorem mem_of_mem_dropEnd {t : Text} {b e : UInt8} (h : b ∈ t.dropEnd e) : b ∈ t := by
  unfold Text.dropEnd at h
  split at h
  · exact (List.dropLast_sublist t).subset h
  · exact h

theorem mem_of_mem_tidied {l : Text} {b : UInt8} (h : b ∈ tidied l) :
    b ∈ l ∧ Byte.isBrace b = false := by
  have := mem_of_mem_trimRight (mem_of_mem_dropEnd (mem_of_mem_trimRight h))
  simpa [dropBraces] using this

theorem lines_dropBraces (t : Text) : lines (dropBraces t) = (lines t).map dropBraces := by
  -- deleting a byte other than the line end does not move a cut
  induction t with
  | nil => rfl
  | cons x t ih =>
    obtain ⟨l, ls, hs⟩ := List.exists_cons_of_ne_nil (lines_ne_nil t)
    by_cases hx : x = Byte.newline
    · subst hx
      have hd : dropBraces (Byte.newline :: t) = Byte.newline :: dropBraces t := rfl
      rw [hd, show Byte.newline :: dropBraces t = [] ++ Byte.newline :: dropBraces t from rfl,
        lines_append_newline, ih, show Byte.newline :: t = [] ++ Byte.newline :: t from rfl,
        lines_append_newline]
      rfl
    · rw [hs] at ih
      rw [lines_cons hx hs]
      by_cases hb : Byte.isBrace x
      · have hd : ∀ u : Text, dropBraces (x :: u) = dropBraces u := by
          intro u; simp [dropBraces, hb]
        rw [hd, ih, List.map_cons, List.map_cons, hd]
      · have hd : ∀ u : Text, dropBraces (x :: u) = x :: dropBraces u := by
          intro u; simp [dropBraces, hb]
        rw [hd, lines_cons hx ih, List.map_cons, hd]

/-- The lines of a tidied text are the tidied lines. -/
theorem lines_tidy (t : Text) : lines (tidy t) = (lines t).map tidied := by
  rw [tidy, lines_dropBraces, List.map_map]
  refine lines_unlines (by simp [lines_ne_nil]) fun l hl => ?_
  obtain ⟨k, hk, rfl⟩ := List.mem_map.1 hl
  exact fun h => not_mem_of_mem_lines hk (mem_of_mem_tidied h).1

theorem tidy_append_newline (a b : Text) :
    tidy (a ++ Byte.newline :: b) = tidy a ++ Byte.newline :: tidy b := by
  simp only [tidy, lines_dropBraces, lines_append_newline, List.map_append]
  exact unlines_append (by simp [lines_ne_nil]) (by simp [lines_ne_nil])

theorem tidy_of_not_mem {l : Text} (h : Byte.newline ∉ l) : tidy l = tidied l := by
  simp [tidy, lines_dropBraces, lines_of_not_mem h, unlines, Text.join, tidied]

theorem indent_append_newline (i a b : Text) :
    indent i (a ++ Byte.newline :: b) = indent i a ++ Byte.newline :: indent i b := by
  simp only [indent, lines_append_newline, List.map_append]
  exact unlines_append (by simp [lines_ne_nil]) (by simp [lines_ne_nil])

theorem indent_of_not_mem {l : Text} (i : Text) (h : Byte.newline ∉ l) :
    indent i l = indentLine i l := by
  simp [indent, lines_of_not_mem h, unlines, Text.join]

@[simp]
theorem tidy_nil : tidy [] = [] := rfl

@[simp]
theorem indent_nil (i : Text) : indent i [] = [] := rfl

/-! ## Finished lines -/

/-- The text of the given lines, each with its line end. -/
def finished (ls : List Text) : Text := ls.flatMap (· ++ [Byte.newline])

@[simp]
theorem finished_nil : finished [] = [] := rfl

theorem finished_cons (l : Text) (ls : List Text) :
    finished (l :: ls) = l ++ Byte.newline :: finished ls := by simp [finished]

theorem finished_append (ls ks : List Text) :
    finished (ls ++ ks) = finished ls ++ finished ks := by simp [finished]

/-- The lines of a text, finished, are the text with its last line finished. -/
theorem finished_lines (t : Text) : finished (lines t) = t ++ [Byte.newline] := by
  have h : ∀ {ls : List Text}, ls ≠ [] → finished ls = unlines ls ++ [Byte.newline] := by
    intro ls hls
    induction ls with
    | nil => exact absurd rfl hls
    | cons l ls ih =>
      cases ls with
      | nil => simp [finished, unlines, Text.join]
      | cons k ks =>
        rw [finished_cons, ih (by simp), show l :: k :: ks = [l] ++ k :: ks from rfl,
          unlines_append (by simp) (by simp)]
        simp [unlines, Text.join]
  rw [h (lines_ne_nil t), unlines_lines]

theorem tidy_finished (ls : List Text) : tidy (finished ls) = finished (ls.map tidy) := by
  induction ls with
  | nil => rfl
  | cons l ls ih => rw [finished_cons, tidy_append_newline, ih, List.map_cons, finished_cons]

theorem indent_finished (i : Text) {ls : List Text} (h : ∀ l ∈ ls, Byte.newline ∉ l) :
    indent i (finished ls) = finished (ls.map (indentLine i)) := by
  induction ls with
  | nil => rfl
  | cons l ls ih =>
    rw [finished_cons, indent_append_newline, indent_of_not_mem i (h l (by simp)),
      ih fun k hk => h k (by simp [hk]), List.map_cons, finished_cons]

end Layout

namespace Text

theorem endsIn_iff {t : Text} {b : UInt8} : t.endsIn b ↔ ∃ front, t = front ++ [b] := by
  rw [endsIn, beq_iff_eq, List.getLast?_eq_some_iff]

@[simp]
theorem endsIn_append_singleton (t : Text) (a b : UInt8) : (t ++ [a]).endsIn b = (a == b) := by
  simp [endsIn]

theorem endsIn_append (a : Text) {t : Text} (ht : t ≠ []) (b : UInt8) :
    (a ++ t).endsIn b = t.endsIn b := by
  rw [endsIn, endsIn, List.getLast?_append, List.getLast?_eq_some_getLast ht]; rfl

@[simp]
theorem dropEnd_append_singleton (t : Text) (b : UInt8) : (t ++ [b]).dropEnd b = t := by
  simp [dropEnd]

theorem dropEnd_append (a : Text) {t : Text} (ht : t ≠ []) (b : UInt8) :
    (a ++ t).dropEnd b = a ++ t.dropEnd b := by
  rw [dropEnd, dropEnd, endsIn_append a ht]
  split
  · rw [List.dropLast_append_of_ne_nil ht]
  · rfl

end Text

namespace Output

/-- Every line of the text has its line end. -/
def Closed (t : Text) : Prop := t = [] ∨ t.endsIn Byte.newline

theorem closed_iff {t : Text} : Closed t ↔ t = [] ∨ ∃ front, t = front ++ [Byte.newline] := by
  rw [Closed, Text.endsIn_iff]

theorem Closed.append {a b : Text} (ha : Closed a) (hb : Closed b) : Closed (a ++ b) := by
  rcases closed_iff.1 hb with rfl | ⟨front, rfl⟩
  · rwa [List.append_nil]
  · exact closed_iff.2 (Or.inr ⟨a ++ front, by simp⟩)

theorem closed_finished (ls : List Text) : Closed (Layout.finished ls) := by
  induction ls with
  | nil => exact Or.inl rfl
  | cons l ls ih =>
    have hl : Closed (l ++ [Byte.newline]) := closed_iff.2 (Or.inr ⟨l, rfl⟩)
    rw [Layout.finished_cons, ← List.singleton_append, ← List.append_assoc]
    exact hl.append ih

theorem closeLine_of_closed {t : Text} (h : Closed t) : closeLine t = t := if_pos h

theorem line_of_closed {t : Text} (h : Closed t) (l : Text) :
    line t l = t ++ Layout.finished [l] := by
  simp [line, closeLine_of_closed h, Layout.finished]

theorem splice_of_ne_nil (i out : Text) {t : Text} (ht : t ≠ []) :
    splice i out t = out ++ Layout.indent i (t.dropEnd Byte.newline) ++ [Byte.newline] := by
  rw [splice, if_neg ht]
  by_cases he : t.endsIn Byte.newline = true
  · obtain ⟨front, rfl⟩ := Text.endsIn_iff.1 he
    rw [if_pos he, Layout.indent_append_newline, Text.dropEnd_append_singleton,
      Layout.indent_nil, List.append_nil, List.append_assoc]
  · rw [if_neg he, Text.dropEnd, if_neg he]

theorem Closed.tidy {t : Text} (h : Closed t) : Closed (Layout.tidy t) := by
  rcases closed_iff.1 h with rfl | ⟨front, rfl⟩
  · exact Or.inl rfl
  · exact closed_iff.2 (Or.inr ⟨_, Layout.tidy_append_newline front []⟩)

theorem tidy_append_of_closed {a : Text} (h : Closed a) (b : Text) :
    Layout.tidy (a ++ b) = Layout.tidy a ++ Layout.tidy b := by
  rcases closed_iff.1 h with rfl | ⟨front, rfl⟩
  · rfl
  · have hf := Layout.tidy_append_newline front []
    rw [Layout.tidy_nil] at hf
    rw [hf, List.append_assoc, List.append_assoc]
    exact Layout.tidy_append_newline front b

end Output

/-! ## Neat lines -/

namespace Layout

theorem trimRight_append {a b : Text} (h : b.trimRight ≠ []) :
    (a ++ b).trimRight = a ++ b.trimRight := by
  have hb : b.reverse.dropWhile Byte.isSpacing ≠ [] := by
    intro hn; exact h (by rw [Text.trimRight, hn]; rfl)
  rw [Text.trimRight, List.reverse_append, List.dropWhile_append, if_neg (by simpa using hb),
    List.reverse_append, List.reverse_reverse, Text.trimRight]

theorem trimRight_of_last {a : Text} {b : UInt8} (h : Byte.isSpacing b = false) :
    (a ++ [b]).trimRight = a ++ [b] := by
  simp [Text.trimRight, h]

theorem tidyLine_of_last {a : Text} {b : UInt8} (hs : Byte.isSpacing b = false)
    (ht : b ≠ Byte.semicolon) : tidyLine (a ++ [b]) = a ++ [b] := by
  have : (a ++ [b]).dropTerminator = a ++ [b] := by
    rw [Text.dropTerminator, Text.dropEnd, Text.endsIn_append_singleton, if_neg (by simpa using ht)]
  rw [tidyLine, trimRight_of_last hs, this, trimRight_of_last hs]

/-- A text without line ends and braces. -/
def Inert (t : Text) : Prop := ∀ b ∈ t, b ≠ Byte.newline ∧ Byte.isBrace b = false

instance (t : Text) : Decidable (Inert t) :=
  decidable_of_iff (t.all (fun b => b != Byte.newline && !Byte.isBrace b) = true) (by simp [Inert])

theorem Inert.append {a b : Text} (ha : Inert a) (hb : Inert b) : Inert (a ++ b) := by
  intro x hx
  rcases List.mem_append.1 hx with hx | hx
  · exact ha x hx
  · exact hb x hx

theorem Inert.noNewline {t : Text} (h : Inert t) : Byte.newline ∉ t :=
  fun hm => (h _ hm).1 rfl

/-- A line without line ends and braces whose last byte is neither spacing nor a terminator. -/
structure IsNeat (l : Text) : Prop where
  inert : Inert l
  last : ∃ front b, l = front ++ [b] ∧ Byte.isSpacing b = false ∧ b ≠ Byte.semicolon

theorem isNeat_iff {l : Text} : IsNeat l ↔ Inert l ∧
    l.getLast?.any (fun b => !Byte.isSpacing b && b != Byte.semicolon) = true := by
  simp only [Option.any_eq_true, Bool.and_eq_true, Bool.not_eq_true', bne_iff_ne]
  constructor
  · rintro ⟨hi, front, b, hl, hb⟩
    exact ⟨hi, b, by rw [hl]; simp, hb⟩
  · rintro ⟨hi, b, hl, hb⟩
    obtain ⟨front, hf⟩ := List.getLast?_eq_some_iff.1 hl
    exact ⟨hi, front, b, hf, hb⟩

instance (l : Text) : Decidable (IsNeat l) := decidable_of_iff _ isNeat_iff.symm

theorem IsNeat.append {a l : Text} (ha : Inert a) (h : IsNeat l) : IsNeat (a ++ l) := by
  obtain ⟨front, b, rfl, hb⟩ := h.last
  exact ⟨ha.append h.inert, a ++ front, b, (List.append_assoc ..).symm, hb⟩

theorem IsNeat.tidy_eq {l : Text} (h : IsNeat l) : tidy l = l := by
  obtain ⟨front, b, rfl, hs, ht⟩ := h.last
  rw [tidy_of_not_mem h.inert.noNewline, tidied, dropBraces_of_forall fun x hx => (h.inert x hx).2,
    tidyLine_of_last hs ht]

theorem IsNeat.ne_nil {l : Text} (h : IsNeat l) : l ≠ [] := by
  obtain ⟨front, b, rfl, -⟩ := h.last
  simp

theorem IsNeat.isTerminated {l : Text} (h : IsNeat l) : l.isTerminated = false := by
  obtain ⟨front, b, rfl, -, hb⟩ := h.last
  simpa [Text.isTerminated] using hb

theorem tidy_finished_of_neat {ls : List Text} (h : ∀ l ∈ ls, IsNeat l) :
    tidy (finished ls) = finished ls := by
  rw [tidy_finished, List.map_congr_left fun l hl => (h l hl).tidy_eq, List.map_id']

/-- A byte that is neither a line end, nor a brace, nor spacing, nor a terminator. -/
def isInk (b : UInt8) : Bool :=
  b != Byte.newline && !Byte.isBrace b && !Byte.isSpacing b && b != Byte.semicolon

theorem isNeat_of_ink {t : Text} (ht : t ≠ []) (h : ∀ b ∈ t, isInk b = true) : IsNeat t := by
  have hb : ∀ b ∈ t, (b ≠ Byte.newline ∧ Byte.isBrace b = false) ∧
      Byte.isSpacing b = false ∧ b ≠ Byte.semicolon := by
    intro b hm
    have := h b hm
    simp only [isInk, Bool.and_eq_true, bne_iff_ne, Bool.not_eq_true'] at this
    exact ⟨this.1.1, this.1.2, this.2⟩
  obtain ⟨front, b, hc⟩ := (List.eq_nil_or_concat t).resolve_left ht
  rw [List.concat_eq_append] at hc
  exact ⟨fun x hx => (hb x hx).1, front, b, hc, (hb b (by simp [hc])).2⟩

end Layout

end BlockAsm
