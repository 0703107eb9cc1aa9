/-
  BlockAsm: the tokens are the pieces of a source, each at its place.

  A text has exactly one reading (`isReading_iff`): units that spell it, with a character
  wherever the encoding of one stands.  In a reading a brace is a piece, and so is a run of
  solid units that a solid unit neither precedes nor follows (`Token.StandsAt`).  A unit that
  is not solid parts the pieces (`standsAt_append_cons`), as it parts the tokens, so the tokens
  are the pieces in their order (`exists_isLayout`).

  Putting spaces around every brace and cutting at the blanks comes to the same
  (`words_spaceBraces`), because the bytes that are put in are ASCII and leave the reading
  around them as it is.
-/
import BlockAsm.Proofs.Lookups
import BlockAsm.Proofs.Spacing

namespace BlockAsm

/-- What holds of a list without separators, and of two lists with a separator between them
    whenever it holds of both, holds of every list. -/
@[elab_as_elim]
theorem separator_induction {α : Type} {motive : List α → Prop} (IsSep : α → Prop)
    (solid : ∀ ws, (∀ x ∈ ws, ¬ IsSep x) → motive ws)
    (sep : ∀ ws x rest, IsSep x → motive ws → motive rest → motive (ws ++ x :: rest))
    (l : List α) : motive l := by
  have hgrow : ∀ l ws, (∀ x ∈ ws, ¬ IsSep x) → motive (ws ++ l) := by
    intro l
    induction l with
    | nil =>
      intro ws hws
      rw [List.append_nil]
      exact solid ws hws
    | cons x l ih =>
      intro ws hws
      by_cases hx : IsSep x
      · exact sep ws x l hx (solid ws hws) (ih [] (by simp))
      · rw [List.append_cons]
        refine ih (ws ++ [x]) fun y hy => ?_
        rcases List.mem_append.1 hy with hy | hy
        · exact hws y hy
        · exact List.mem_singleton.1 hy ▸ hx
  exact hgrow l [] (by simp)

/-! ## The reading of a text -/

/-- The units spell the text, and a unit is a character exactly where the encoding of that
    character stands. -/
structure Text.IsReading (t : Text) (rs : List Rune) : Prop where
  spells : rs.flatMap Rune.bytes = t
  scalar_iff : ∀ front r back, rs = front ++ r :: back → ∀ c,
    r = .scalar c ↔ String.utf8EncodeChar c <+: (r :: back).flatMap Rune.bytes

theorem Rune.bytes_ne_nil : ∀ r : Rune, r.bytes ≠ []
  | .scalar _ => String.utf8EncodeChar_ne_nil
  | .stray b => List.cons_ne_nil b []

theorem isReading_runes (t : Text) : t.IsReading t.runes := by
  refine ⟨Text.flatMap_bytes_runes t, fun front r back hsplit c => ?_⟩
  obtain ⟨u, -, hu⟩ := exists_of_runes_append hsplit
  rw [← hu, Text.flatMap_bytes_runes]
  constructor
  · rintro rfl
    obtain ⟨v, rfl, -⟩ := exists_of_runes_cons hu
    exact List.prefix_append _ v
  · rintro ⟨v, rfl⟩
    rw [runes_scalar_append] at hu
    exact (List.cons.inj hu).1.symm

theorem Text.IsReading.eq_runes {rs : List Rune} : ∀ {t : Text}, t.IsReading rs → rs = t.runes := by
  induction rs with
  | nil =>
    rintro t ⟨rfl, -⟩
    rfl
  | cons r rs ih =>
    rintro t ⟨rfl, hscalar⟩
    have hrest : rs = Text.runes (rs.flatMap Rune.bytes) := by
      refine ih ⟨rfl, fun front x back hsplit => ?_⟩
      exact hscalar (r :: front) x back (by rw [hsplit, List.cons_append])
    have hr := hscalar [] r rs rfl
    rw [List.flatMap_cons] at hr ⊢
    cases r with
    | scalar c => rw [Rune.bytes, runes_scalar_append, ← hrest]
    | stray b =>
      have hnone : Text.frontChar? (b :: rs.flatMap Rune.bytes) = none := by
        rw [Option.eq_none_iff_forall_ne_some]
        intro c hc
        cases (hr c).2 (Text.frontChar?_eq_some_iff.1 hc)
      rw [Rune.bytes, List.singleton_append, runes_stray_cons hnone, ← hrest]

/-- A text has one reading. -/
theorem isReading_iff {t : Text} {rs : List Rune} : t.IsReading rs ↔ rs = t.runes :=
  ⟨Text.IsReading.eq_runes, fun h => h ▸ isReading_runes t⟩

/-! ## Pieces -/

/-- A unit that is neither a blank nor a brace. -/
def Rune.IsSolid (r : Rune) : Prop := r.isBlank = false ∧ r.isBrace = false

instance (r : Rune) : Decidable r.IsSolid :=
  inferInstanceAs (Decidable (r.isBlank = false ∧ r.isBrace = false))

theorem Rune.isBlank_or_isBrace {r : Rune} (h : ¬ r.IsSolid) :
    r.isBlank = true ∨ r.isBrace = true := by
  simpa [Rune.IsSolid, imp_iff_not_or] using h

theorem Rune.isBlank_of_isBrace {r : Rune} (h : r.isBrace = true) : r.isBlank = false := by
  simp only [Rune.isBrace, Bool.or_eq_true, beq_iff_eq] at h
  rcases h with rfl | rfl <;> decide

namespace Token

/-- No solid unit stands at the end. -/
def EndsOpen (front : List Rune) : Prop := ∀ r ∈ front.getLast?, ¬ r.IsSolid

/-- No solid unit stands at the start. -/
def StartsOpen (back : List Rune) : Prop := ∀ r ∈ back.head?, ¬ r.IsSolid

/-- Between these units the piece is a brace, or a run of solid units that goes on neither to
    the left nor to the right. -/
def Bounded (front piece back : List Rune) : Prop :=
  (∃ r, r.isBrace = true ∧ piece = [r]) ∨
    piece ≠ [] ∧ (∀ r ∈ piece, r.IsSolid) ∧ EndsOpen front ∧ StartsOpen back

/-- The piece stands in the units `rs` behind `front`. -/
def StandsAt (rs front piece : List Rune) : Prop :=
  ∃ back, rs = front ++ (piece ++ back) ∧ Bounded front piece back

/-- All pieces of `rs`, each with what stands in front of it, in their order. -/
structure IsLayout (rs : List Rune) (places : List (List Rune × List Rune)) : Prop where
  mem_iff : ∀ front piece, (front, piece) ∈ places ↔ StandsAt rs front piece
  ordered : places.Pairwise fun p q => p.1 ++ p.2 <+: q.1

theorem endsOpen_append_cons {r : Rune} (hr : ¬ r.IsSolid) (ws front : List Rune) :
    EndsOpen (ws ++ r :: front) ↔ EndsOpen front := by
  cases front with
  | nil => simp [EndsOpen, hr]
  | cons x front => simp [EndsOpen, List.getLast?_append, List.getLast?_cons_cons]

theorem startsOpen_append_cons {r : Rune} (hr : ¬ r.IsSolid) (back rs : List Rune) :
    StartsOpen (back ++ r :: rs) ↔ StartsOpen back := by
  cases back with
  | nil => simp [StartsOpen, hr]
  | cons x back => simp [StartsOpen]

theorem StandsAt.prefix_of {rs front piece : List Rune} (h : StandsAt rs front piece) :
    front ++ piece <+: rs := by
  obtain ⟨back, rfl, -⟩ := h
  exact ⟨back, List.append_assoc ..⟩

/-- Without a separator there is one piece, unless there is no unit. -/
theorem standsAt_of_forall {ws front piece : List Rune} (hs : ∀ r ∈ ws, r.IsSolid) :
    StandsAt ws front piece ↔ ws ≠ [] ∧ front = [] ∧ piece = ws := by
  constructor
  · rintro ⟨back, rfl, ⟨r, hr, rfl⟩ | ⟨hne, -, hfront, hback⟩⟩
    · have := (hs r (by simp)).2
      rw [hr] at this
      cases this
    · have hf : front = [] := by
        by_contra hf
        exact hfront _ (List.getLast?_eq_some_getLast hf) (hs _ (by simp [List.getLast_mem]))
      have hb : back = [] := by
        by_contra hb
        exact hback _ (List.head?_eq_some_head hb) (hs _ (by simp [List.head_mem]))
      subst hf hb
      simpa using hne
  · rintro ⟨hne, rfl, rfl⟩
    exact ⟨[], by simp, Or.inr ⟨hne, hs, by simp [EndsOpen], by simp [StartsOpen]⟩⟩

theorem Bounded.ne_nil {front piece back : List Rune} (h : Bounded front piece back) :
    piece ≠ [] := by
  rcases h with ⟨r, -, rfl⟩ | ⟨hne, -⟩
  · exact List.cons_ne_nil r []
  · exact hne

/-- A piece with a unit that is not solid is that unit, and a brace. -/
theorem Bounded.eq_singleton {front piece back : List Rune} (h : Bounded front piece back)
    {r : Rune} (hr : ¬ r.IsSolid) (hmem : r ∈ piece) : r.isBrace = true ∧ piece = [r] := by
  rcases h with ⟨x, hx, rfl⟩ | ⟨-, hs, -⟩
  · obtain rfl := List.mem_singleton.1 hmem
    exact ⟨hx, rfl⟩
  · exact absurd (hs r hmem) hr

theorem bounded_append_cons_left {r : Rune} (hr : ¬ r.IsSolid) (ws front piece back : List Rune) :
    Bounded (ws ++ r :: front) piece back ↔ Bounded front piece back := by
  rw [Bounded, Bounded, endsOpen_append_cons hr]

theorem bounded_append_cons_right {r : Rune} (hr : ¬ r.IsSolid) (front piece back rs : List Rune) :
    Bounded front piece (back ++ r :: rs) ↔ Bounded front piece back := by
  rw [Bounded, Bounded, startsOpen_append_cons hr]

/-- A unit that is not solid parts the pieces, and a brace is one itself. -/
theorem standsAt_append_cons {r : Rune} (hr : ¬ r.IsSolid) (ws rs front piece : List Rune) :
    StandsAt (ws ++ r :: rs) front piece ↔ StandsAt ws front piece ∨
      (r.isBrace = true ∧ front = ws ∧ piece = [r]) ∨
        ∃ front', front = ws ++ r :: front' ∧ StandsAt rs front' piece := by
  constructor
  · rintro ⟨back, hsplit, hpiece⟩
    rcases List.append_eq_append_iff.1 hsplit with ⟨mid, hfront, hmid⟩ | ⟨mid, rfl, hmid⟩
    · cases mid with
      | nil =>
        -- the piece begins with the unit
        obtain ⟨x, piece, rfl⟩ := List.exists_cons_of_ne_nil hpiece.ne_nil
        obtain ⟨rfl, -⟩ := List.cons.inj hmid
        obtain ⟨hb, hsingle⟩ := hpiece.eq_singleton hr (by simp)
        exact Or.inr (Or.inl ⟨hb, by simpa using hfront, hsingle⟩)
      | cons x mid =>
        obtain ⟨rfl, rfl⟩ := List.cons.inj hmid
        rw [hfront, bounded_append_cons_left hr] at hpiece
        exact Or.inr (Or.inr ⟨mid, hfront, back, rfl, hpiece⟩)
    -- it begins in front of the unit, and ends there too unless it has the unit
    · rcases List.append_eq_append_iff.1 hmid with ⟨rest, rfl, rfl⟩ | ⟨rest, rfl, hrest⟩
      · rw [bounded_append_cons_right hr] at hpiece
        exact Or.inl ⟨rest, rfl, hpiece⟩
      · cases rest with
        | nil =>
          obtain rfl : back = [] ++ r :: rs := by simpa using hrest.symm
          rw [bounded_append_cons_right hr] at hpiece
          exact Or.inl ⟨[], by simp, hpiece⟩
        | cons x rest =>
          obtain ⟨rfl, -⟩ := List.cons.inj hrest
          obtain ⟨hb, hsingle⟩ := hpiece.eq_singleton hr (by simp)
          obtain ⟨rfl, rfl⟩ : mid = [] ∧ rest = [] := by
            simpa [List.append_eq_cons_iff] using hsingle
          exact Or.inr (Or.inl ⟨hb, by simp, rfl⟩)
  · rintro (⟨back, rfl, hpiece⟩ | ⟨hb, rfl, rfl⟩ | ⟨front, rfl, back, rfl, hpiece⟩)
    · exact ⟨back ++ r :: rs, by simp, (bounded_append_cons_right hr ..).2 hpiece⟩
    · exact ⟨rs, rfl, Or.inl ⟨r, hb, rfl⟩⟩
    · exact ⟨back, by simp, (bounded_append_cons_left hr ..).2 hpiece⟩

/-! ## The tokens are the pieces -/

theorem isLayout_of_forall {ws : List Rune} (hs : ∀ r ∈ ws, r.IsSolid) :
    IsLayout ws (if ws = [] then [] else [([], ws)]) := by
  refine ⟨fun front piece => ?_, ?_⟩
  · rw [standsAt_of_forall hs]
    split <;> simp_all
  · split <;> simp

/-- The places on either side of a unit that is not solid, and its own if it is a brace. -/
theorem IsLayout.append_cons {ws rs : List Rune} {left right : List (List Rune × List Rune)}
    (hl : IsLayout ws left) (hrt : IsLayout rs right) {r : Rune} (hr : ¬ r.IsSolid) :
    IsLayout (ws ++ r :: rs) (left ++ ((if r.isBrace then [(ws, [r])] else []) ++
      right.map fun p => (ws ++ r :: p.1, p.2))) := by
  have hleft : ∀ p ∈ left, p.1 ++ p.2 <+: ws := fun p hp => ((hl.mem_iff ..).1 hp).prefix_of
  refine ⟨fun front piece => ?_, ?_⟩
  · rw [standsAt_append_cons hr, List.mem_append, List.mem_append, hl.mem_iff]
    refine or_congr_right (or_congr ?_ ?_)
    · split <;> simp_all
    · simp only [List.mem_map, Prod.exists, Prod.mk.injEq, ← hrt.mem_iff]
      grind
  · rw [List.pairwise_append, List.pairwise_append, List.pairwise_map]
    refine ⟨hl.ordered, ⟨by split <;> simp, ?_, ?_⟩, ?_⟩
    · refine hrt.ordered.imp fun h => ?_
      simpa [List.prefix_append_right_inj] using h
    · intro p hp q hq
      obtain ⟨q, -, rfl⟩ := List.mem_map.1 hq
      obtain rfl : p = (ws, [r]) := by grind
      simp
    · intro p hp q hq
      have hws : ws <+: q.1 := by grind [List.prefix_append]
      exact (hleft p hp).trans hws

/-- Every piece ends behind the point where it begins. -/
theorem IsLayout.length_lt {rs : List Rune} {places : List (List Rune × List Rune)}
    (h : IsLayout rs places) {p q : List Rune × List Rune} (hp : p ∈ places)
    (hle : p.1 ++ p.2 <+: q.1) : p.1.length < q.1.length := by
  obtain ⟨back, -, hpiece⟩ := (h.mem_iff p.1 p.2).1 hp
  have hpos := List.length_pos_iff.2 hpiece.ne_nil
  have hlen := hle.length_le
  rw [List.length_append] at hlen
  omega

theorem IsLayout.nodup {rs : List Rune} {places : List (List Rune × List Rune)}
    (h : IsLayout rs places) : places.Nodup := by
  refine h.ordered.imp_of_mem fun hp _ hle heq => ?_
  subst heq
  exact lt_irrefl _ (h.length_lt hp hle)

/-- The pieces can be listed in one way only. -/
theorem IsLayout.unique {rs : List Rune} {places places' : List (List Rune × List Rune)}
    (h : IsLayout rs places) (h' : IsLayout rs places') : places = places' := by
  refine List.Perm.eq_of_pairwise (fun p q hp hq hpq hqp => ?_) h.ordered h'.ordered ?_
  · exact absurd (h.length_lt hp hpq) (h'.length_lt hq hqp).asymm
  · rw [List.perm_ext_iff_of_nodup h.nodup h'.nodup]
    exact fun p => (h.mem_iff p.1 p.2).trans (h'.mem_iff p.1 p.2).symm

/-- **The tokens are the pieces.**  The pieces of the units can be listed in their order, and the
    tokens are their bytes. -/
theorem exists_isLayout (rs : List Rune) :
    ∃ places, IsLayout rs places ∧ ofRunes rs = places.map fun p => p.2.flatMap Rune.bytes := by
  induction rs using separator_induction fun r : Rune => ¬ r.IsSolid with
  | solid ws hws =>
    have hs : ∀ r ∈ ws, r.IsSolid := by simpa using hws
    refine ⟨_, isLayout_of_forall hs, ?_⟩
    rw [ofRunes_of_forall hs, consWord]
    cases ws with
    | nil => rfl
    | cons r ws => simp [Rune.bytes_ne_nil]
  | sep ws r rest hr ihl ihr =>
    obtain ⟨left, hleft, htl⟩ := ihl
    obtain ⟨right, hright, htr⟩ := ihr
    refine ⟨_, hleft.append_cons hright hr, ?_⟩
    rw [ofRunes_append_sep (Rune.isBlank_or_isBrace hr), htl, htr]
    by_cases hb : r.isBrace = true
    · simp [hb, Rune.isBlank_of_isBrace hb]
    · simp [hb, (Rune.isBlank_or_isBrace hr).resolve_right hb]

end Token

/-! ## Cutting at the blanks -/

namespace Text

/-- The text with a space on either side of each such byte. -/
def spaceOut (b : UInt8) (t : Text) : Text :=
  t.flatMap fun x => if x = b then [Byte.space, b, Byte.space] else [x]

/-- What stands between the blanks of a text. -/
def words (t : Text) : List Text :=
  ((t.runes.splitOnP Rune.isBlank).map fun rs => rs.flatMap Rune.bytes).filter (· ≠ [])

theorem words_append_blank {b : UInt8} (h : b < 0x80) (hb : (Byte.rune b).isBlank = true)
    (s t : Text) : (s ++ b :: t).words = s.words ++ t.words := by
  rw [words, runes_append_cons h, runes_cons h, List.splitOnP_append_cons _ _ hb, List.map_append,
    List.filter_append]
  rfl

end Text

namespace Token

/-- Without braces the tokens stand between the blanks. -/
theorem ofRunes_eq_filter {rs : List Rune} (h : ∀ r ∈ rs, r.isBrace = false) : ofRunes rs =
    ((rs.splitOnP Rune.isBlank).map fun ws => ws.flatMap Rune.bytes).filter (· ≠ []) := by
  induction rs using separator_induction fun r : Rune => r.isBlank = true with
  | solid ws hws =>
    have hs : ∀ r ∈ ws, r.isBlank = false := by simpa using hws
    rw [ofRunes_of_forall fun r hr => ⟨hs r hr, h r hr⟩, List.splitOnP_eq_singleton hs, consWord]
    split <;> simp_all
  | sep ws r rest hr ihl ihr =>
    rw [ofRunes_append_sep (Or.inl hr), if_pos hr, List.splitOnP_append_cons _ _ hr,
      List.map_append, List.filter_append, ihl fun x hx => h x (by simp [hx]),
      ihr fun x hx => h x (by simp [hx]), List.nil_append]

end Token

theorem isBrace_eq_false_of_mem_runes {t : Text} (hl : Byte.lbrace ∉ t) (hr : Byte.rbrace ∉ t) :
    ∀ r ∈ t.runes, r.isBrace = false := by
  intro r hmem
  rw [← Bool.not_eq_true]
  intro hb
  have hbytes : ∀ b ∈ r.bytes, b ∈ t := by
    intro b hbr
    rw [← Text.flatMap_bytes_runes t]
    exact List.mem_flatMap.2 ⟨r, hmem, hbr⟩
  rcases Token.bytes_of_isBrace hb with h | h <;> rw [h] at hbytes
  · exact hl (hbytes _ (by simp))
  · exact hr (hbytes _ (by simp))

namespace Text

theorem spaceOut_append (b : UInt8) (s t : Text) :
    (s ++ t).spaceOut b = s.spaceOut b ++ t.spaceOut b := List.flatMap_append

theorem spaceOut_of_not_mem {b : UInt8} {t : Text} (h : b ∉ t) : t.spaceOut b = t := by
  induction t with
  | nil => rfl
  | cons x t ih =>
    obtain ⟨hx, ht⟩ := not_or.1 (mt List.mem_cons.2 h)
    rw [spaceOut, List.flatMap_cons, if_neg (Ne.symm hx), ← spaceOut, ih ht, List.singleton_append]

/-- The text with a space on either side of each brace. -/
def spaceBraces (t : Text) : Text := (t.spaceOut Byte.lbrace).spaceOut Byte.rbrace

theorem spaceBraces_append_cons {b : UInt8} (hb : b = Byte.lbrace ∨ b = Byte.rbrace) (s t : Text) :
    (s ++ b :: t).spaceBraces =
      s.spaceBraces ++ Byte.space :: ([b] ++ Byte.space :: t.spaceBraces) := by
  have hone : spaceBraces [b] = [Byte.space, b, Byte.space] := by
    rcases hb with rfl | rfl <;> decide
  have happ : ∀ s t : Text, (s ++ t).spaceBraces = s.spaceBraces ++ t.spaceBraces := by
    intro s t
    rw [spaceBraces, spaceOut_append, spaceOut_append, spaceBraces, spaceBraces]
  rw [List.append_cons, happ, happ, hone]
  simp

/-- Putting spaces around the braces and cutting at the blanks gives the tokens. -/
theorem words_spaceBraces (t : Text) : t.spaceBraces.words = t.tokens := by
  induction t using separator_induction fun b : UInt8 => b = Byte.lbrace ∨ b = Byte.rbrace with
  | solid s hs =>
    have hl : Byte.lbrace ∉ s := fun h => hs _ h (Or.inl rfl)
    have hr : Byte.rbrace ∉ s := fun h => hs _ h (Or.inr rfl)
    rw [spaceBraces, spaceOut_of_not_mem hl, spaceOut_of_not_mem hr, words, tokens_eq,
      Token.ofRunes_eq_filter (isBrace_eq_false_of_mem_runes hl hr)]
  | sep s b rest hb ihl ihr =>
    have hone : words [b] = [[b]] := by rcases hb with rfl | rfl <;> decide
    rw [spaceBraces_append_cons hb, words_append_blank (by decide) (by decide),
      words_append_blank (by decide) (by decide), ihl, ihr, hone, tokens_append_brace hb]
    rfl

/-! ## The cut as a whole -/

/-- **The cut is exact.**  A source has one reading, its pieces there can be listed in one way, and
    the tokens are these pieces.  So no token is empty, a token other than a brace is solid, and
    only the blanks are lost.  Spacing out the braces and cutting at the blanks comes to the same,
    and the source can be cut in two at a blank or a brace. -/
theorem tokens_are_pieces (source : Text) :
    (∀ rs, source.IsReading rs ↔ rs = source.runes) ∧
    (∃ places, Token.IsLayout source.runes places) ∧
    (∀ places, Token.IsLayout source.runes places →
      source.tokens = places.map fun p => p.2.flatMap Rune.bytes) ∧
    (∀ tok ∈ source.tokens, tok ≠ [] ∧
      (tok = Token.lbrace ∨ tok = Token.rbrace ∨ ∀ r ∈ tok.runes, r.IsSolid)) ∧
    source.tokens.flatten = (source.runes.filter fun r => !r.isBlank).flatMap Rune.bytes ∧
    source.tokens = source.spaceBraces.words ∧
    (∀ x ∈ ([0x09, 0x0A, 0x0B, 0x0C, 0x0D, 0x20] : List UInt8), ∀ a b : Text,
      source = a ++ x :: b → source.tokens = a.tokens ++ b.tokens) ∧
    ∀ br ∈ [Byte.lbrace, Byte.rbrace], ∀ a b : Text, source = a ++ br :: b →
      source.tokens = a.tokens ++ [br] :: b.tokens := by
  obtain ⟨places, hplaces, htokens⟩ := Token.exists_isLayout source.runes
  refine ⟨fun rs => isReading_iff, ⟨places, hplaces⟩, fun places' h => ?_, fun tok htok => ?_,
    flatten_tokens source, (words_spaceBraces source).symm, ?_, ?_⟩
  · rw [h.unique hplaces, tokens_eq, htokens]
  · have h := Token.isToken_of_mem_tokens htok
    exact ⟨h.ne_nil, h.imp_right (Or.imp_right And.right)⟩
  · rintro x hx a b rfl
    have hblank : x < 0x80 ∧ (Byte.rune x).isBlank = true := by
      simp only [List.mem_cons, List.not_mem_nil, or_false] at hx
      rcases hx with rfl | rfl | rfl | rfl | rfl | rfl <;> decide
    exact tokens_append_blank hblank.1 hblank.2 a b
  · rintro br hbr a b rfl
    exact tokens_append_brace (by simpa using hbr) a b

/-- Stray bytes that a space or a brace keeps apart, and a wide blank. -/
theorem tokens_are_pieces_stray : ∃ source : Text,
    source = [0x61, 0xFF, 0x7B, 0xC2, 0x20, 0xA0, 0xE2, 0x80, 0x83, 0x62] ∧
    source.IsReading [.scalar 'a', .stray 0xFF, Byte.rune Byte.lbrace, .stray 0xC2,
      .scalar ' ', .stray 0xA0, .scalar (Char.ofNat 0x2003), .scalar 'b'] ∧
    (∃ places, Token.IsLayout source.runes places ∧
      places.map (fun p => p.2.flatMap Rune.bytes) =
        [[0x61, 0xFF], Token.lbrace, [0xC2], [0xA0], [0x62]]) ∧
    (∀ r ∈ Text.runes [0x61, 0xFF], r.IsSolid) ∧
    source.tokens = Text.tokens [0x61, 0xFF, 0x7B, 0xC2] ++
      Text.tokens [0xA0, 0xE2, 0x80, 0x83, 0x62] ∧
    source.tokens = Text.tokens [0x61, 0xFF] ++
      Token.lbrace :: Text.tokens [0xC2, 0x20, 0xA0, 0xE2, 0x80, 0x83, 0x62] := by
  refine ⟨_, rfl, ?_⟩
  obtain ⟨hreading, ⟨places, hplaces⟩, htokens, hsolid, -, -, hblank, hbrace⟩ :=
    tokens_are_pieces [0x61, 0xFF, 0x7B, 0xC2, 0x20, 0xA0, 0xE2, 0x80, 0x83, 0x62]
  refine ⟨(hreading _).2 (by decide +kernel), ⟨places, hplaces, ?_⟩, ?_,
    hblank 0x20 (by decide) _ _ rfl, hbrace Byte.lbrace (by decide) _ _ rfl⟩
  · rw [← htokens places hplaces]
    decide +kernel
  · obtain ⟨-, h⟩ := hsolid [0x61, 0xFF] (by decide +kernel)
    exact (h.resolve_left (by decide)).resolve_left (by decide)

end Text

end BlockAsm
