/-
  BlockAsm: what tells the form of a statement.

  The first token of a statement tells its form by one of five cues (`Cue`): it is a directive, a
  directive with a terminator, or it starts like a comment, a string or a call.  `Cue.Tells` says
  which tokens have a cue, and which form they tell.

  * `Cue.Tells.eq_only`: no token has two cues, as its first byte, its parentheses and its
    terminators tell which cue it can have;
  * `Cue.test_of_tells`, `Cue.tells_of_test`: the tests that a token is put to find the cues;
  * `Form.ofToken_of_tells`, `Form.exists_tells`, `Form.ofToken_of_not_tells`: the form of a token
    is the one that its cue tells, and generic without a cue;
  * `Form.byCues_eq`: the order of the tests does not matter;
  * `Text.isName_iff_spellName`: a name may be read byte by byte or unit by unit.
-/
import BlockAsm.Proofs.Lines
import BlockAsm.Proofs.Literals
import BlockAsm.Proofs.Tokens
import BlockAsm.Statement.Form

namespace BlockAsm

/-! ## Names -/

/-- The ASCII digits. -/
def Byte.digits : Text := utf8 "0123456789"

/-- The bytes that names are made of. -/
def Byte.inNames : Text :=
  utf8 "ABCDEFGHIJKLMNOPQRSTUVWXYZabcdefghijklmnopqrstuvwxyz_.$" ++ Byte.digits

/-- A name: a run of ASCII letters, digits, underscores, points and dollar signs that is not empty
    and does not start with a digit. -/
structure Text.IsName (t : Text) : Prop where
  ne_nil : t ≠ []
  mem : ∀ b ∈ t, b ∈ Byte.inNames
  head : ∀ b ∈ t.head?, b ∉ Byte.digits

theorem Byte.isIdentifierPart_iff {b : UInt8} :
    Byte.isIdentifierPart b = true ↔ b ∈ Byte.inNames := by
  have hpart : ∀ b : UInt8, Byte.isIdentifierPart b = true → b ∈ Byte.inNames :=
    Byte.forall_of_lt (by decide +kernel)
  have hnames : Byte.inNames.all Byte.isIdentifierPart = true := by decide +kernel
  exact ⟨hpart b, List.all_eq_true.1 hnames b⟩

theorem Byte.isIdentifierStart_iff {b : UInt8} :
    Byte.isIdentifierStart b = true ↔ b ∈ Byte.inNames ∧ b ∉ Byte.digits := by
  have hstart : ∀ b : UInt8, Byte.isIdentifierStart b = true ↔
      Byte.isIdentifierPart b = true ∧ b ∉ Byte.digits := Byte.forall_of_lt (by decide +kernel)
  rw [hstart, Byte.isIdentifierPart_iff]

namespace Text

theorem isIdentifier_iff {t : Text} : t.isIdentifier = true ↔ t.IsName := by
  cases t with
  | nil => exact ⟨fun h => absurd h Bool.false_ne_true, fun h => absurd rfl h.ne_nil⟩
  | cons b rest =>
    rw [isIdentifier, Bool.and_eq_true, List.all_eq_true, Byte.isIdentifierStart_iff]
    simp only [Byte.isIdentifierPart_iff]
    constructor
    · rintro ⟨⟨hb, hdigit⟩, hrest⟩
      exact ⟨List.cons_ne_nil b rest, List.forall_mem_cons.2 ⟨hb, hrest⟩, by simpa using hdigit⟩
    · rintro ⟨-, hmem, hhead⟩
      obtain ⟨hb, hrest⟩ := List.forall_mem_cons.1 hmem
      exact ⟨⟨hb, hhead b rfl⟩, hrest⟩

instance (t : Text) : Decidable t.IsName := decidable_of_iff _ isIdentifier_iff

theorem IsName.lparen_not_mem {t : Text} (h : t.IsName) : Byte.lparen ∉ t :=
  fun hin => absurd (h.mem _ hin) (by decide)

/-- A call starts with a name and an opening parenthesis right behind it. -/
theorem isCallHead_iff {t : Text} : t.isCallHead = true ↔
    ∃ name behind : Text, t = name ++ Byte.lparen :: behind ∧ name.IsName := by
  constructor
  · intro h
    rw [isCallHead] at h
    split at h
    · rename_i name behind hcut
      exact ⟨name, behind, (eq_of_cutFirst? hcut).1, isIdentifier_iff.1 h⟩
    · cases h
  · rintro ⟨name, behind, rfl, hname⟩
    rw [isCallHead, cutFirst?_append hname.lparen_not_mem]
    exact isIdentifier_iff.2 hname

end Text

/-! ## Names by their units -/

namespace Rune

/-- Whether a unit may stand in a name, if its first byte is byte `i` of the name. -/
def fitsName (i : Nat) : Rune → Bool
  | scalar c =>
    c == '_' || c == '.' || c == '$' || ('a' ≤ c && c ≤ 'z') || ('A' ≤ c && c ≤ 'Z') ||
      ('0' ≤ c && c ≤ '9' && i != 0)
  | stray _ => false

/-- Whether units, from byte `i` of a text on, may stand in a name. -/
def spellName : Nat → List Rune → Bool
  | _, [] => true
  | i, r :: rs => r.fitsName i && spellName (i + r.bytes.length) rs

theorem fitsName_ascii {b : UInt8} (h : b < 0x80) (i : Nat) :
    (Byte.rune b).fitsName i =
      if i = 0 then Byte.isIdentifierStart b else Byte.isIdentifierPart b := by
  have hbytes : ∀ b : UInt8, b < 0x80 →
      (Byte.rune b).fitsName 0 = Byte.isIdentifierStart b ∧
        (Byte.rune b).fitsName 1 = Byte.isIdentifierPart b := Byte.forall_of_lt (by decide +kernel)
  cases i with
  | zero => exact (hbytes b h).1
  | succ i => exact (hbytes b h).2

/-- Only ASCII characters may stand in a name. -/
theorem exists_of_fitsName {r : Rune} {i : Nat} (h : r.fitsName i = true) :
    ∃ b : UInt8, b < 0x80 ∧ r = Byte.rune b := by
  cases r with
  | stray b => cases h
  | scalar c =>
    have hbelow : ∀ d : Char, d.toNat < 0x80 → c ≤ d → c.toNat < 0x80 :=
      fun d hd hle => Nat.lt_of_le_of_lt (UInt32.le_iff_toNat_le.1 hle) hd
    have hc : c.toNat < 0x80 := by
      simp only [fitsName, Bool.or_eq_true, Bool.and_eq_true, beq_iff_eq, decide_eq_true_iff] at h
      rcases h with ((((rfl | rfl) | rfl) | h) | h) | h
      · decide
      · decide
      · decide
      · exact hbelow 'z' (by decide) h.2
      · exact hbelow 'Z' (by decide) h.2
      · exact hbelow '9' (by decide) h.1.2
    have hb : (UInt8.ofNat c.toNat).toNat = c.toNat :=
      UInt8.toNat_ofNat_of_lt (Nat.lt_trans hc (by decide))
    refine ⟨UInt8.ofNat c.toNat, ?_, ?_⟩
    · rw [UInt8.lt_iff_toNat_lt, hb]
      exact hc
    · rw [Byte.rune, Byte.char, hb, Char.ofNat_toNat]

/-- What one byte more, whatever it is, does to the reading of a name. -/
theorem spellName_cons (i : Nat) (b : UInt8) (t : Text) :
    spellName i (Text.runes (b :: t)) =
      ((if i = 0 then Byte.isIdentifierStart b else Byte.isIdentifierPart b) &&
        spellName (i + 1) t.runes) := by
  by_cases hb : b < 0x80
  · have hlen : (Byte.rune b).bytes.length = 1 := by
      rw [Byte.rune, bytes, Byte.utf8EncodeChar_char hb, List.length_singleton]
    rw [runes_cons hb, spellName, fitsName_ascii hb, hlen]
  · -- the byte is no part of a name, nor does the unit that it starts fit into one
    have hhigh : ∀ b : UInt8, ¬ b < 0x80 →
        Byte.isIdentifierStart b = false ∧ Byte.isIdentifierPart b = false :=
      Byte.forall_of_lt (by decide +kernel)
    rw [(hhigh b hb).1, (hhigh b hb).2, ite_self, Bool.false_and]
    cases hr : Text.runes (b :: t) with
    | nil =>
      have hbytes := Text.flatMap_bytes_runes (b :: t)
      rw [hr] at hbytes
      cases hbytes
    | cons r rs =>
      have hunit : r.fitsName i = false := by
        refine eq_false_of_ne_true fun hfits => hb ?_
        obtain ⟨a, ha, rfl⟩ := exists_of_fitsName hfits
        obtain ⟨t', ht, -⟩ := exists_of_runes_cons hr
        rw [Byte.rune, bytes, Byte.utf8EncodeChar_char ha] at ht
        exact (List.cons.inj ht).1 ▸ ha
      rw [spellName, hunit, Bool.false_and]

/-- Behind its first byte, a name is read on byte by byte. -/
theorem spellName_succ (t : Text) :
    ∀ i, spellName (i + 1) t.runes = t.all Byte.isIdentifierPart := by
  induction t with
  | nil => intro i; rfl
  | cons b t ih =>
    intro i
    rw [spellName_cons, ih, if_neg (Nat.succ_ne_zero i), List.all_cons]

end Rune

theorem Text.isName_iff_spellName {t : Text} :
    t.IsName ↔ t ≠ [] ∧ Rune.spellName 0 t.runes = true := by
  rw [← isIdentifier_iff]
  cases t with
  | nil => exact ⟨fun h => absurd h Bool.false_ne_true, fun h => absurd rfl h.1⟩
  | cons b t =>
    rw [Rune.spellName_cons, Rune.spellName_succ, if_pos rfl]
    exact ⟨fun h => ⟨List.cons_ne_nil b t, h⟩, fun h => h.2⟩

/-! ## Cues -/

/-- What a token can tell the form of its statement by. -/
inductive Cue where
  /-- it is a directive -/
  | directive
  /-- it is a directive and a terminator -/
  | terminated
  /-- it opens a comment -/
  | comment
  /-- it opens a string -/
  | quote
  /-- it opens a call -/
  | call
  deriving DecidableEq, Repr

/-- The directives that may have a terminator behind them. -/
def Form.terminables : List (Token × Form) :=
  [(utf8 "$pstk", prologue), (utf8 "$fstk", epilogue), (utf8 "$return", ret)]

theorem Form.mem_directives_of_ofDirective? {tok : Token} {f : Form}
    (h : ofDirective? tok = some f) : (tok, f) ∈ directives := by
  obtain ⟨front, back, hd, -⟩ := List.lookup_eq_some_iff.1 h
  rw [hd]
  simp

namespace Cue

/-- A token has the cue, and the form that it tells by it. -/
inductive Tells : Cue → Token → Form → Prop
  | directive {word : Token} {f : Form} (h : (word, f) ∈ Form.directives) : Tells directive word f
  | terminated {word : Token} {f : Form} (h : (word, f) ∈ Form.terminables) :
      Tells terminated (word ++ [Byte.semicolon]) f
  | comment (behind : Text) : Tells comment (utf8 "/*" ++ behind) .comment
  | quote {q : UInt8} (h : q = Byte.singleQuote ∨ q = Byte.doubleQuote) (behind : Text) :
      Tells quote (q :: behind) .string
  | call {name : Text} (h : name.IsName) (behind : Text) :
      Tells call (name ++ Byte.lparen :: behind) .call

/-- The forms that a cue can tell. -/
def forms : Cue → List Form
  | directive => Form.directives.map Prod.snd
  | terminated => Form.terminables.map Prod.snd
  | comment => [.comment]
  | quote => [.string]
  | call => [.call]

theorem Tells.mem_forms {c : Cue} {tok : Token} {f : Form} (h : c.Tells tok f) : f ∈ c.forms := by
  cases h with
  | directive h | terminated h => exact List.mem_map.2 ⟨_, h, rfl⟩
  | comment | quote | call => exact List.mem_singleton_self _

/-- The one cue that a token can have: the first byte tells it, or else a parenthesis or a
    terminator in the token. -/
def only (tok : Token) : Cue :=
  if tok.head? = some 0x2F then comment
  else if tok.head? = some Byte.singleQuote ∨ tok.head? = some Byte.doubleQuote then quote
  else if Byte.lparen ∈ tok then call
  else if Byte.semicolon ∈ tok then terminated
  else directive

theorem Tells.eq_only {c : Cue} {tok : Token} {f : Form} (h : c.Tells tok f) : c = only tok := by
  cases h with
  | directive h =>
    have hwords : ∀ p ∈ Form.directives, only p.1 = Cue.directive := by decide
    exact (hwords _ h).symm
  | terminated h =>
    have hwords : ∀ p ∈ Form.terminables, only (p.1 ++ [Byte.semicolon]) = Cue.terminated := by
      decide
    exact (hwords _ h).symm
  | comment behind => rfl
  | quote h behind => rcases h with rfl | rfl <;> rfl
  | @call name h behind =>
    obtain ⟨b, rest, rfl⟩ := List.exists_cons_of_ne_nil h.ne_nil
    -- neither a slash nor a quote stands in a name
    have hb : b ≠ 0x2F ∧ b ≠ Byte.singleQuote ∧ b ≠ Byte.doubleQuote := by
      have hin := h.mem b List.mem_cons_self
      refine ⟨?_, ?_, ?_⟩ <;> (rintro rfl; exact absurd hin (by decide))
    simp [only, hb]

/-! ## Tests -/

/-- The test for a cue, which tells the form. -/
def test : Cue → Token → Option Form
  | directive, tok => Form.ofDirective? tok
  | terminated, tok => (Form.ofDirective? tok.dropTerminator).filter Form.takesTerminator
  | comment, tok => if Form.commentOpen.isPrefixOf tok then some .comment else none
  | quote, tok =>
    if [Byte.singleQuote].isPrefixOf tok || [Byte.doubleQuote].isPrefixOf tok then some .string
    else none
  | call, tok => if tok.isCallHead then some .call else none

theorem test_of_tells {c : Cue} {tok : Token} {f : Form} (h : c.Tells tok f) :
    c.test tok = some f := by
  cases h with
  | directive h =>
    have hwords : ∀ p ∈ Form.directives, Form.ofDirective? p.1 = some p.2 := by decide
    exact hwords _ h
  | terminated h =>
    have hwords : ∀ p ∈ Form.terminables,
        (Form.ofDirective? p.1).filter Form.takesTerminator = some p.2 := by decide
    rw [test, Text.dropTerminator, Text.dropEnd_append_singleton]
    exact hwords _ h
  | comment behind => rfl
  | quote h behind => rcases h with rfl | rfl <;> rfl
  | call h behind => rw [test, if_pos (Text.isCallHead_iff.2 ⟨_, behind, rfl, h⟩)]

/-- A test finds a cue, though not always its own: the test for a directive with a terminator is
    also passed by one that could have a terminator and has none. -/
theorem tells_of_test {c : Cue} {tok : Token} {f : Form} (h : c.test tok = some f) :
    ∃ c' : Cue, c'.Tells tok f := by
  cases c with
  | directive => exact ⟨_, .directive (Form.mem_directives_of_ofDirective? h)⟩
  | terminated =>
    obtain ⟨hf, htakes⟩ := Option.filter_eq_some_iff.1 h
    have hmem := Form.mem_directives_of_ofDirective? hf
    by_cases he : tok.endsIn Byte.semicolon = true
    · obtain ⟨word, rfl⟩ := Text.endsIn_iff.1 he
      rw [Text.dropTerminator, Text.dropEnd_append_singleton] at hmem
      have hwords : ∀ p ∈ Form.directives, p.2.takesTerminator = true → p ∈ Form.terminables := by
        decide
      exact ⟨_, .terminated (hwords _ hmem htakes)⟩
    · rw [Text.dropTerminator, Text.dropEnd, if_neg he] at hmem
      exact ⟨_, .directive hmem⟩
  | comment =>
    obtain ⟨hpre, ⟨⟩⟩ := Option.ite_none_right_eq_some.1 h
    obtain ⟨behind, rfl⟩ := List.isPrefixOf_iff_prefix.1 hpre
    exact ⟨_, .comment behind⟩
  | quote =>
    obtain ⟨hpre, ⟨⟩⟩ := Option.ite_none_right_eq_some.1 h
    rcases Bool.or_eq_true_iff.1 hpre with hq | hq
    · obtain ⟨behind, rfl⟩ := List.isPrefixOf_iff_prefix.1 hq
      exact ⟨_, .quote (.inl rfl) behind⟩
    · obtain ⟨behind, rfl⟩ := List.isPrefixOf_iff_prefix.1 hq
      exact ⟨_, .quote (.inr rfl) behind⟩
  | call =>
    obtain ⟨hcall, ⟨⟩⟩ := Option.ite_none_right_eq_some.1 h
    obtain ⟨name, behind, rfl, hname⟩ := Text.isCallHead_iff.1 hcall
    exact ⟨_, .call hname behind⟩

/-- A token has one cue at most, and tells one form by it. -/
theorem Tells.unique {c c' : Cue} {tok : Token} {f f' : Form} (h : c.Tells tok f)
    (h' : c'.Tells tok f') : c = c' ∧ f = f' := by
  obtain rfl : c = c' := h.eq_only.trans h'.eq_only.symm
  exact ⟨rfl, Option.some.inj ((test_of_tells h).symm.trans (test_of_tells h'))⟩

end Cue

namespace Form

/-- The form that the first of some tests tells, in the order in which they are given. -/
def byCues (order : List Cue) (tok : Token) : Form :=
  (order.findSome? (Cue.test · tok)).getD generic

section
variable {order : List Cue} {tok : Token}

theorem byCues_of_tells (horder : ∀ c, c ∈ order) {c : Cue} {f : Form} (h : c.Tells tok f) :
    byCues order tok = f := by
  have hsome : (order.findSome? (Cue.test · tok)).isSome := by
    rw [List.findSome?_isSome_iff]
    exact ⟨c, horder c, by rw [Cue.test_of_tells h]; rfl⟩
  obtain ⟨f', hf'⟩ := Option.isSome_iff_exists.1 hsome
  obtain ⟨c', -, htest⟩ := List.exists_of_findSome?_eq_some hf'
  obtain ⟨c'', htells⟩ := Cue.tells_of_test htest
  rw [byCues, hf', Option.getD_some]
  exact (htells.unique h).2

theorem byCues_of_not_tells (h : ∀ (c : Cue) f, ¬ c.Tells tok f) : byCues order tok = generic := by
  have hnone : order.findSome? (Cue.test · tok) = none := by
    rw [List.findSome?_eq_none_iff]
    intro c _
    rw [Option.eq_none_iff_forall_ne_some]
    intro f hf
    obtain ⟨c', hc'⟩ := Cue.tells_of_test hf
    exact h c' f hc'
  rw [byCues, hnone, Option.getD_none]

theorem byCues_cons (c : Cue) (order : List Cue) (tok : Token) :
    byCues (c :: order) tok = (c.test tok).getD (byCues order tok) := by
  rw [byCues, List.findSome?_cons]
  cases c.test tok <;> rfl

/-- The tests are made in the order in which the cues are listed. -/
theorem ofToken_eq_byCues (tok : Token) :
    ofToken tok = byCues [.directive, .terminated, .comment, .quote, .call] tok := by
  have hshape : ofShape tok = byCues [.comment, .quote, .call] tok := by
    simp only [byCues_cons, Cue.test, ofShape]
    split
    · rfl
    · split
      · rfl
      · split <;> rfl
  rw [ofToken, hshape, byCues_cons .directive, byCues_cons .terminated, Cue.test, Cue.test]
  cases ofDirective? tok with
  | some f => rfl
  | none => cases (ofDirective? tok.dropTerminator).filter takesTerminator <;> rfl

theorem ofToken_of_tells {c : Cue} {f : Form} (h : c.Tells tok f) : ofToken tok = f := by
  rw [ofToken_eq_byCues]
  exact byCues_of_tells (fun c => by cases c <;> decide) h

theorem ofToken_of_not_tells (h : ∀ (c : Cue) f, ¬ c.Tells tok f) : ofToken tok = generic := by
  rw [ofToken_eq_byCues]
  exact byCues_of_not_tells h

/-- Every form but the generic one is told by a cue. -/
theorem exists_tells {f : Form} (h : ofToken tok = f) (hf : f ≠ generic) :
    ∃ c : Cue, c.Tells tok f := by
  by_cases hc : ∃ (c : Cue) (f' : Form), c.Tells tok f'
  · obtain ⟨c, f', hc⟩ := hc
    obtain rfl : f' = f := (ofToken_of_tells hc).symm.trans h
    exact ⟨c, hc⟩
  · refine absurd (h.symm.trans (ofToken_of_not_tells fun c f' hc' => ?_)) hf
    exact hc ⟨c, f', hc'⟩

theorem ofToken_ne_constant (tok : Token) : ofToken tok ≠ .constant := by
  intro h
  obtain ⟨c, hc⟩ := exists_tells h (by decide)
  have hforms := hc.mem_forms
  cases c <;> exact absurd hforms (by decide)

/-- A token opens a call exactly if a name stands in front of a parenthesis. -/
theorem ofToken_eq_call_iff : ofToken tok = call ↔ ∃ name behind : Text,
    tok = name ++ Byte.lparen :: behind ∧ name.IsName := by
  constructor
  · intro h
    obtain ⟨c, hc⟩ := exists_tells h (by decide)
    have hforms := hc.mem_forms
    cases hc with
    | directive | terminated => exact absurd hforms (by decide)
    | call hname behind => exact ⟨_, behind, rfl, hname⟩
  · rintro ⟨name, behind, rfl, h⟩
    exact ofToken_of_tells (.call h behind)

theorem ofToken_eq_generic_iff : ofToken tok = generic ↔ ∀ (c : Cue) f, ¬ c.Tells tok f := by
  refine ⟨fun h c f hc => ?_, ofToken_of_not_tells⟩
  obtain rfl : f = generic := (ofToken_of_tells hc).symm.trans h
  have hforms := hc.mem_forms
  cases c <;> exact absurd hforms (by decide)

/-- In whatever order the tests are made, they tell the same form. -/
theorem byCues_eq (horder : ∀ c, c ∈ order) : byCues order tok = ofToken tok := by
  by_cases h : ofToken tok = generic
  · rw [h, byCues_of_not_tells (ofToken_eq_generic_iff.1 h)]
  · obtain ⟨c, hc⟩ := exists_tells rfl h
    exact byCues_of_tells horder hc

end

/-- **A token tells its form by one cue at most.**  No token, whatever its bytes, has two cues, or
    two forms by one cue; its form is the one that its cue tells, and generic exactly if it has no
    cue.  No token is a constant by itself.  The tests for the cues may be made in every order, and
    even more than once, and the name of a call may be read unit by unit, with a stray byte for a
    unit that is no character. -/
theorem form_told_by_one_cue (tok : Token) :
    (∀ (c c' : Cue) f f', c.Tells tok f → c'.Tells tok f' → c = c' ∧ f = f') ∧
    (∀ (c : Cue) f, c.Tells tok f → ofToken tok = f) ∧
    (ofToken tok = generic ↔ ∀ (c : Cue) f, ¬ c.Tells tok f) ∧
    ofToken tok ≠ constant ∧
    (∀ order : List Cue, (∀ c, c ∈ order) → byCues order tok = ofToken tok) ∧
    (ofToken tok = call ↔ ∃ name behind : Text,
      tok = name ++ Byte.lparen :: behind ∧ name ≠ [] ∧ Rune.spellName 0 name.runes = true) := by
  refine ⟨fun c c' f f' h h' => h.unique h', fun c f h => ofToken_of_tells h,
    ofToken_eq_generic_iff, ofToken_ne_constant tok, fun order horder => byCues_eq horder, ?_⟩
  simp only [ofToken_eq_call_iff, Text.isName_iff_spellName]

/-- A call by the name of a directive, with a byte behind it that starts no character and a
    terminator at its end; and the same byte inside a name, which then is none. -/
theorem form_told_by_one_cue_stray :
    let tok : Token := utf8 "$return(" ++ [0xC3] ++ utf8 ";"
    let stray : Token := utf8 "f" ++ [0xC3] ++ utf8 "(x"
    let order : List Cue := [.call, .quote, .comment, .terminated, .directive]
    (Cue.call.Tells tok call ∧ (∀ (c : Cue) f, ¬ c.Tells stray f) ∧ ∀ c, c ∈ order) ∧
      ofToken tok = call ∧ (∀ (c : Cue) f, c.Tells tok f → Cue.call = c ∧ call = f) ∧
      byCues order tok = ofToken tok ∧ ofToken stray = generic ∧
      byCues order stray = ofToken stray := by
  intro tok stray order
  have hname : (utf8 "$return").IsName := by decide
  have hparts : tok = utf8 "$return" ++ Byte.lparen :: ([0xC3] ++ utf8 ";") := by decide
  have hcall : Cue.call.Tells tok call := hparts ▸ .call hname _
  have hnone : ∀ (c : Cue) f, ¬ c.Tells stray f := by
    have htests : ∀ c : Cue, c.test stray = none := by
      intro c
      cases c <;> decide
    intro c f h
    cases (htests c).symm.trans (Cue.test_of_tells h)
  have horder : ∀ c, c ∈ order := by
    intro c
    cases c <;> decide
  obtain ⟨hunique, hform, -, -, hany, -⟩ := form_told_by_one_cue tok
  obtain ⟨-, -, hgeneric, -, hany', -⟩ := form_told_by_one_cue stray
  exact ⟨⟨hcall, hnone, horder⟩, hform _ _ hcall, fun c f h => hunique _ _ _ _ hcall h,
    hany order horder, hgeneric.2 hnone, hany' order horder⟩

end Form

end BlockAsm
