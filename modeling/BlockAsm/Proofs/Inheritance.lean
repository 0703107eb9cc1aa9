/-
  BlockAsm: inherited macros are definitions in front of a block.

  The table that a block starts with when it inherits macros is the one that definitions of
  its entries make, in whichever order they stand (`defineAll_eq`, `run_definitions`).  In a
  run over a source, names are tokens and values are what is left of a token without its
  terminator (`Visits.spellable`), so the definitions can be written, and read again.
-/
import BlockAsm.Proofs.Lines
import BlockAsm.Proofs.Points
import BlockAsm.Proofs.Tokens

namespace BlockAsm

/-! ## A table and its entries -/

namespace Macros

theorem eq_of_entries : ∀ {m m' : Macros}, m.entries = m'.entries → m = m'
  | ⟨_, _⟩, ⟨_, _⟩, rfl => rfl

theorem perm_insertEntry {name value : Text} {entries : List Entry}
    (h : ∀ e ∈ entries, e.1 ≠ name) :
    (insertEntry name value entries).Perm ((name, value) :: entries) := by
  induction entries with
  | nil => exact .refl _
  | cons e rest ih =>
    unfold insertEntry
    split
    · exact .refl _
    · split
      · rename_i he
        exact absurd he.symm (h e (by simp))
      · have := ih fun x hx => h x (by simp [hx])
        exact (this.cons e).trans (.swap ..)

/-- The table with the entries defined one after the other. -/
def defineAll (m : Macros) (entries : List Entry) : Macros :=
  entries.foldl (fun m e => m.define e.1 e.2) m

theorem perm_defineAll : ∀ (entries : List Entry) {m : Macros},
    (entries ++ m.entries).Pairwise (fun a b => a.1 ≠ b.1) →
      (m.defineAll entries).entries.Perm (entries ++ m.entries)
  | [], m, _ => .refl _
  | e :: rest, m, h => by
    obtain ⟨he, hrest⟩ := List.pairwise_cons.1 h
    have hp : (m.define e.1 e.2).entries.Perm (e :: m.entries) :=
      perm_insertEntry fun x hx => (he x (by simp [hx])).symm
    have hmid : (rest ++ (m.define e.1 e.2).entries).Perm (e :: rest ++ m.entries) :=
      (hp.append_left rest).trans List.perm_middle
    have hpair := (hmid.pairwise_iff fun hab => Ne.symm hab).2 h
    exact (perm_defineAll rest hpair).trans hmid

/-- A table is what its entries define, in whichever order. -/
theorem defineAll_eq {m : Macros} {entries : List Entry} (h : entries.Perm m.entries) :
    Macros.empty.defineAll entries = m := by
  have hne : m.entries.Pairwise fun a b => a.1 ≠ b.1 := by
    refine m.increasing.imp ?_
    intro a b hlt he
    exact List.lt_irrefl _ (he ▸ hlt)
  have hpair : (entries ++ Macros.empty.entries).Pairwise fun a b => a.1 ≠ b.1 := by
    rw [show Macros.empty.entries = [] from rfl, List.append_nil]
    exact (h.pairwise_iff fun hab => Ne.symm hab).2 hne
  have hperm := (perm_defineAll entries hpair).trans ((List.append_nil entries).symm ▸ h)
  have hentries : (Macros.empty.defineAll entries).entries = m.entries := by
    refine hperm.eq_of_pairwise (fun a b _ _ hab hba => ?_) (Macros.increasing _) m.increasing
    exact absurd (List.lt_trans hab hba) (List.lt_irrefl _)
  exact eq_of_entries hentries

end Macros

/-! ## Names and values that can be written -/

namespace Token

/-- The texts that a definition can give as a value. -/
def IsValue (v : Text) : Prop := v = lbrace ∨ v = rbrace ∨ v.IsSolid

theorem IsToken.dropTerminator {t : Text} (h : IsToken t) : IsValue t.dropTerminator := by
  rcases h with rfl | rfl | ⟨-, hs⟩
  · exact Or.inl (by decide)
  · exact Or.inr (Or.inl (by decide))
  · refine Or.inr (Or.inr ?_)
    unfold Text.dropTerminator Text.dropEnd
    split
    · rename_i he
      obtain ⟨front, rfl⟩ := Text.endsIn_iff.1 he
      rw [List.dropLast_concat]
      intro r hr
      refine hs r ?_
      rw [runes_append_cons (by decide)]
      exact List.mem_append_left _ hr
    · exact hs

end Token

/-- Every name can be a token, and every value can be given by a definition. -/
def Macros.Spellable (m : Macros) : Prop :=
  ∀ e ∈ m.entries, Token.IsToken e.1 ∧ Token.IsValue e.2

namespace Macros.Spellable

theorem empty : Macros.empty.Spellable := by intro e he; cases he

/-- A statement that is made of tokens leaves a table that can be written. -/
theorem redefine {m : Macros} (hm : m.Spellable) {tok : Token} {rest left : List Token}
    {stmt : Statement} (h : Statement.read m tok rest = (.ok stmt, left))
    (ht : ∀ t ∈ rest, Token.IsToken t) : (stmt.redefine m).Spellable := by
  cases stmt with
  | define name value =>
    obtain ⟨-, v, rfl, rfl⟩ := Statement.eq_of_read_define h
    intro e he
    rcases mem_insertEntry he with rfl | he
    · exact ⟨ht name (by simp), (ht v (by simp)).dropTerminator⟩
    · exact hm e he
  | undefine name =>
    intro e he
    exact hm e (List.mem_filter.1 he).1
  | _ => exact hm

theorem child {s : State} (hs : s.macros.Spellable) (opts : Options) :
    (s.child opts).macros.Spellable := by
  unfold State.child
  split
  · exact hs
  · exact empty

end Macros.Spellable

namespace Lowering

/-- At every point of a run over tokens, the table can be written. -/
theorem Visits.spellable {opts : Options} {toks : List Token} {s : State} {p : Point}
    (h : Visits opts toks s p) (ht : ∀ t ∈ toks, Token.IsToken t) (hs : s.macros.Spellable) :
    p.state.macros.Spellable := by
  induction h with
  | here toks s => exact hs
  | @next tok taken left s s' stmt p hr hx _ ih =>
    have hrest : ∀ t ∈ taken ++ left, Token.IsToken t := fun t hm => ht t (by simp [hm])
    refine ih (fun t hm => hrest t (by simp [hm])) ?_
    have hm := Statement.macros_execute opts (inner opts stmt s) s stmt
    rw [hx] at hm
    exact hm ▸ hs.redefine hr hrest
  | @block tok name left s stmt b p hr hb _ _ ih =>
    exact ih (fun t hm => ht t (by simp [hm])) (hs.child opts)

/-! ## Definitions in front of a block -/

/-- The tokens that define an entry.  A terminator ends the value, except behind a brace, which is
    a token of its own. -/
def definition (e : Macros.Entry) : List Token :=
  [utf8 "$define", e.1,
    if e.2 = Token.lbrace ∨ e.2 = Token.rbrace then e.2 else e.2 ++ [Byte.semicolon]]

/-- The tokens that define the entries, one after the other. -/
def definitions (entries : List Macros.Entry) : List Token := entries.flatMap definition

theorem read_definition (m : Macros) (e : Macros.Entry) (rest : List Token) :
    Statement.read m (utf8 "$define") ((definition e).tail ++ rest) =
      (.ok (.define e.1 e.2), rest) := by
  simp only [definition, List.tail_cons, List.cons_append, List.nil_append, Statement.read_define]
  split
  · rename_i hb
    have hv : e.2.dropTerminator = e.2 := by
      rcases hb with hb | hb <;> rw [hb] <;> decide
    rw [hv]
  · rw [Text.dropTerminator, Text.dropEnd_append_singleton]

theorem run_definitions (opts : Options) (toks : List Token) :
    ∀ (entries : List Macros.Entry) (s : State), run opts (definitions entries ++ toks) s =
      run opts toks { s with macros := s.macros.defineAll entries }
  | [], s => rfl
  | e :: entries, s => by
    have htoks : definitions (e :: entries) ++ toks =
        utf8 "$define" :: ((definition e).tail ++ (definitions entries ++ toks)) :=
      List.append_assoc (definition e) (definitions entries) toks
    rw [htoks, run_cons_done (read_definition s.macros e _) rfl, run_definitions opts toks entries]
    rfl

theorem isToken_of_mem_definitions {m : Macros} (hm : m.Spellable) {entries : List Macros.Entry}
    (he : entries.Perm m.entries) : ∀ t ∈ definitions entries, Token.IsToken t := by
  intro t ht
  obtain ⟨e, hmem, ht⟩ := List.mem_flatMap.1 ht
  obtain ⟨hname, hvalue⟩ := hm e (he.mem_iff.1 hmem)
  simp only [definition, List.mem_cons, List.not_mem_nil, or_false] at ht
  rcases ht with rfl | rfl | rfl
  · exact Or.inr (Or.inr (by decide))
  · exact hname
  · split
    · rename_i hb
      exact hb.imp_right Or.inl
    · rename_i hb
      -- no brace, so the value is solid, and so is the value with a terminator
      have hs : e.2.IsSolid := by
        rcases hvalue with h | h | h
        · exact absurd (Or.inl h) hb
        · exact absurd (Or.inr h) hb
        · exact h
      exact Or.inr (Or.inr ⟨by simp, hs.append_cons .nil (by decide)⟩)

/-- **Inherited macros are definitions in front of the block.**  Wherever a run over a source hands
    a block over, the run over the block ends as a run that starts with no macros does over the
    definitions of the macros, in any order, and the block.  These are tokens: written with spaces
    between them, they are read again, and so is the block. -/
theorem inherited_macros_eq_definitions {opts : Options} (hi : opts.inherit = true) {source : Text}
    {s : State} {b : Block} (h : HandsOver opts source.tokens .initial s b)
    {entries : List Macros.Entry} (he : entries.Perm s.macros.entries) :
    run opts (definitions entries ++ b.tokens) .initial = run opts b.tokens (s.child opts) ∧
      (Token.unwords (definitions entries ++ b.tokens)).tokens = definitions entries ++ b.tokens ∧
      b.text.tokens = b.tokens := by
  obtain ⟨p, tok, rest, stmt, left, hp, rfl, hahead, hr, hb, -⟩ := h
  have htoks : ∀ t ∈ source.tokens, Token.IsToken t := fun t => Token.isToken_of_mem_tokens
  have hblock : ∀ t ∈ b.tokens, Token.IsToken t := by
    intro t ht
    obtain ⟨name, behind, hrest, hread, -⟩ := Statement.exists_of_read_block hr hb
    obtain ⟨hbehind, -, -⟩ := Block.read_eq_ok_iff.1 hread
    refine htoks t ?_
    rw [← hp.append_eq, hahead, hrest, hbehind]
    simp [ht]
  have hdefs := isToken_of_mem_definitions (hp.spellable htoks .empty) he
  refine ⟨?_, ?_, Token.tokens_unwords hblock⟩
  · rw [run_definitions]
    have hm : State.initial.macros.defineAll entries = p.state.macros := Macros.defineAll_eq he
    rw [hm, State.child, if_pos hi]
    rfl
  · refine Token.tokens_unwords fun t ht => ?_
    rcases List.mem_append.1 ht with ht | ht
    · exact hdefs t ht
    · exact hblock t ht

/-- The block of a label in a section, behind an empty value, a brace, and a value with a terminator
    for a name that is a brace. -/
theorem inherited_macros_eq_definitions_nested :
    let opts : Options := ⟨true, true, utf8 " "⟩
    let source :=
      utf8 "$define A ; $define B \x7b $define \x7b x;; $section s \x7b label n \x7b A B; \x7d \x7d"
    let s : State := ⟨Macros.empty.defineAll
      [(utf8 "A", []), (utf8 "B", Token.lbrace), (Token.lbrace, utf8 "x;")], []⟩
    let b : Block := ⟨[utf8 "A", utf8 "B;"], true⟩
    let entries := [(Token.lbrace, utf8 "x;"), (utf8 "B", Token.lbrace), (utf8 "A", [])]
    (opts.inherit = true ∧ HandsOver opts source.tokens .initial s b ∧
      entries.Perm s.macros.entries) ∧
    run opts (definitions entries ++ b.tokens) .initial = run opts b.tokens (s.child opts) ∧
      (Token.unwords (definitions entries ++ b.tokens)).tokens = definitions entries ++ b.tokens ∧
      b.text.tokens = b.tokens := by
  intro opts source s b entries
  let outer : Block :=
    ⟨[Form.labelWord, utf8 "n", Token.lbrace, utf8 "A", utf8 "B;", Token.rbrace], true⟩
  have hs : HandsOver opts source.tokens .initial s b := by
    have hdef : ∀ {e : Macros.Entry} {toks s p},
        Visits opts toks { s with macros := s.macros.define e.1 e.2 } p →
          Visits opts (definition e ++ toks) s { p with before := definition e ++ p.before } :=
      fun h => .next (read_definition _ _ _) rfl h
    have hsection : Statement.read s.macros Form.sectionWord
        (utf8 "s" :: Token.lbrace :: (outer.tokens ++ outer.behind [])) =
          (.ok (.sectionBlock (utf8 "s") outer), []) := by decide +kernel
    have hlabel : Statement.read s.macros Form.labelWord
        [utf8 "n", Token.lbrace, utf8 "A", utf8 "B;", Token.rbrace] =
          (.ok (.label (utf8 "n") b), []) := by decide +kernel
    have htoks : source.tokens = definition (utf8 "A", []) ++
        (definition (utf8 "B", Token.lbrace) ++ (definition (Token.lbrace, utf8 "x;") ++
          Form.sectionWord :: utf8 "s" :: Token.lbrace ::
            (outer.tokens ++ outer.behind []))) := by decide +kernel
    rw [htoks]
    exact ⟨_, _, _, _, [], hdef (hdef (hdef (.block hsection rfl (fun _ => rfl) (.here _ _)))),
      rfl, rfl, hlabel, rfl, fun _ => rfl⟩
  have he : entries.Perm s.macros.entries := by decide +kernel
  exact ⟨⟨rfl, hs, he⟩, inherited_macros_eq_definitions rfl hs he⟩

end Lowering

end BlockAsm
