/-
  BlockAsm: strings.

  A string is read to the token that has its quote again, and its tokens are put together with
  single spaces.  What stands between the quotes is cut like any other text, so a brace in a
  string is a token of its own, and when the text is tidied it goes.

  * `Text.Gapped`: words with blanks between them;
  * `Token.exists_pieces_append`: the last piece of a text grows with what is put behind it;
  * `Statement.exists_read_string`: the tokens of a string are read as that string, and no
    token more.
-/
import BlockAsm.Proofs.Cutting
import BlockAsm.Proofs.Instructions

namespace BlockAsm

open Layout Lowering
open Output (Closed)

/-! ## Pieces -/

namespace Token

/-- The word that the units start with, even if it is empty, and the tokens behind it. -/
def pieces (rs : List Rune) : List Text := (cut rs).1 :: (cut rs).2

theorem pieces_blank {r : Rune} (h : r.isBlank = true) (rs : List Rune) :
    pieces (r :: rs) = [] :: ofRunes rs := by
  simp [pieces, cut, h, ofRunes]

theorem pieces_brace {r : Rune} (hn : r.isBlank = false) (h : r.isBrace = true)
    (rs : List Rune) : pieces (r :: rs) = [] :: r.bytes :: ofRunes rs := by
  simp [pieces, cut, hn, h, ofRunes]

theorem pieces_solid {r : Rune} (hn : r.isBlank = false) (h : r.isBrace = false)
    (rs : List Rune) : pieces (r :: rs) = (r.bytes ++ (cut rs).1) :: (cut rs).2 := by
  simp [pieces, cut, hn, h]

/-- Only the first piece can be empty, and is then no token. -/
theorem exists_ofRunes_of_pieces (init : List Text) : ∃ init', init'.flatten = init.flatten ∧
    ∀ {rs : List Rune} {x : Text}, x ≠ [] → pieces rs = init ++ [x] →
      ofRunes rs = init' ++ [x] := by
  cases init with
  | nil =>
    refine ⟨[], rfl, fun hx h => ?_⟩
    obtain ⟨hword, htoks⟩ := List.cons.inj h
    rw [ofRunes, hword, htoks, consWord, if_neg hx]
    rfl
  | cons w init =>
    refine ⟨consWord w init, flatten_consWord w init, fun _ h => ?_⟩
    rw [List.cons_append] at h
    obtain ⟨hword, htoks⟩ := List.cons.inj h
    rw [ofRunes, hword, htoks, consWord_append]

/-- The last piece grows with the solid units behind it, and the others do not change. -/
theorem exists_pieces_append (rs : List Rune) : ∃ init last,
    (∀ b ∈ init.flatten ++ last, b ∈ rs.flatMap Rune.bytes) ∧
    ∀ zs : List Rune, (∀ r ∈ zs, r.isBlank = false ∧ r.isBrace = false) →
      zs.flatMap Rune.bytes ≠ [] → pieces (rs ++ zs) = init ++ [last ++ zs.flatMap Rune.bytes] := by
  induction rs with
  | nil =>
    refine ⟨[], [], by simp, fun zs hs _ => ?_⟩
    rw [List.nil_append, pieces, cut_of_forall hs]
    rfl
  | cons r rs ih =>
    obtain ⟨init, last, hmem, hpieces⟩ := ih
    obtain ⟨init', hflat, htoks⟩ := exists_ofRunes_of_pieces init
    have hrest : ∀ zs : List Rune, (∀ r ∈ zs, r.isBlank = false ∧ r.isBrace = false) →
        zs.flatMap Rune.bytes ≠ [] →
          ofRunes (rs ++ zs) = init' ++ [last ++ zs.flatMap Rune.bytes] :=
      fun zs hs hne => htoks (List.append_ne_nil_of_right_ne_nil last hne) (hpieces zs hs hne)
    rw [← hflat] at hmem
    cases hblank : r.isBlank with
    | true =>
      refine ⟨[] :: init', last, by grind, fun zs hs hne => ?_⟩
      rw [List.cons_append, pieces_blank hblank, hrest zs hs hne]
      rfl
    | false =>
      cases hbrace : r.isBrace with
      | true =>
        refine ⟨[] :: r.bytes :: init', last, by grind, fun zs hs hne => ?_⟩
        rw [List.cons_append, pieces_brace hblank hbrace, hrest zs hs hne]
        rfl
      | false =>
        -- a solid unit belongs to the first piece, which may be the last
        cases init with
        | nil =>
          refine ⟨[], r.bytes ++ last, by grind, fun zs hs hne => ?_⟩
          obtain ⟨hword, hbehind⟩ := List.cons.inj (hpieces zs hs hne)
          rw [List.cons_append, pieces_solid hblank hbrace, hword, hbehind]
          simp
        | cons w init =>
          refine ⟨(r.bytes ++ w) :: init, last, by grind, fun zs hs hne => ?_⟩
          obtain ⟨hword, hbehind⟩ := List.cons.inj (hpieces zs hs hne)
          rw [List.cons_append, pieces_solid hblank hbrace, hword, hbehind]
          rfl

end Token

/-! ## Reading strings -/

/-- A solid byte in front of a text belongs to its first word. -/
theorem tokens_cons_solid {b : UInt8} (hb : Byte.IsSolid b) (t : Text) :
    Text.tokens (b :: t) = (b :: (Token.cut t.runes).1) :: (Token.cut t.runes).2 := by
  have hbytes : (Byte.rune b).bytes = [b] := Byte.utf8EncodeChar_char hb.1
  rw [tokens_eq, runes_cons hb.1, Token.ofRunes]
  simp [Token.cut, hb.2, hbytes, Token.consWord]

theorem Token.unwords_cons_byte (b : UInt8) (word : Text) (toks : List Token) :
    unwords ((b :: word) :: toks) = b :: unwords (word :: toks) := by
  cases toks <;> rfl

theorem Statement.readString_of_upTo {q : UInt8} {word : Text} {left rest : List Token}
    (h : Token.upTo (q ∈ ·) (word :: left ++ rest) = (word :: left, some rest)) :
    readString (q :: word) (left ++ rest) =
      (.ok (.string (Token.unwords ((q :: word) :: left))), rest) := by
  rw [List.cons_append, Token.upTo] at h
  by_cases hw : q ∈ word
  · simp only [hw, decide_true, if_true, Prod.mk.injEq, List.cons.injEq, true_and] at h
    obtain ⟨rfl, -⟩ := h
    simp only [readString, hw, if_true]
    rfl
  · simp only [hw, decide_false, Bool.false_eq_true, if_false] at h
    have hup : Token.upTo (q ∈ ·) (left ++ rest) = (left, some rest) :=
      Prod.ext (List.cons.inj (Prod.mk.inj h).1).2 (Prod.mk.inj h).2
    simp only [readString, hw, if_false, hup]

section
variable {q : UInt8} (hq : q = Byte.singleQuote ∨ q = Byte.doubleQuote)
include hq

theorem Form.ofToken_quote (t : Text) : ofToken (q :: t) = .string :=
  ofToken_of_tells (.quote hq t)

theorem Byte.isSolid_quote : Byte.IsSolid q := by
  rcases hq with rfl | rfl <;> decide

theorem Byte.quote_ne : q ≠ Byte.space ∧ q ≠ Byte.semicolon ∧ Byte.isSpacing q = false ∧
    Byte.isBrace q = false := by
  rcases hq with rfl | rfl <;> decide

/-- The tokens of a string are read as the string, and no token more. -/
theorem Statement.exists_read_string {body : Text} (hb : q ∉ body) : ∃ text, q ∉ text ∧
    Token.unwords (Text.tokens (q :: (body ++ [q]))) = q :: (text ++ [q]) ∧
    ∃ word left, Text.tokens (q :: (body ++ [q, Byte.semicolon])) = (q :: word) :: left ∧
      ∀ m rest, read m (q :: word) (left ++ rest) =
        (.ok (.string (q :: (text ++ [q, Byte.semicolon]))), rest) := by
  have hsolid := Byte.isSolid_quote hq
  obtain ⟨init, last, hmem, hpieces⟩ := Token.exists_pieces_append body.runes
  rw [Text.flatMap_bytes_runes] at hmem
  have hunwords : ∀ close : Text, Text.IsSolid (q :: close) →
      Token.unwords (Token.pieces (body ++ q :: close).runes) =
        init.flatMap (· ++ [Byte.space]) ++ last ++ q :: close := by
    intro close hc
    have hp := hpieces (Text.runes (q :: close)) hc
    rw [Text.flatMap_bytes_runes, ← runes_append_cons hsolid.1] at hp
    rw [hp (List.cons_ne_nil _ _), Token.unwords, Text.join_concat, List.append_assoc]
  have htext : q ∉ init.flatMap (· ++ [Byte.space]) ++ last := by
    intro hm
    rcases List.mem_append.1 hm with hm | hm
    · obtain ⟨piece, hp, hm⟩ := List.mem_flatMap.1 hm
      rcases List.mem_append.1 hm with hm | hm
      · exact hb (hmem q (List.mem_append_left _ (List.mem_flatten_of_mem hp hm)))
      · exact (Byte.quote_ne hq).1 (List.mem_singleton.1 hm)
    · exact hb (hmem q (List.mem_append_right _ hm))
  refine ⟨_, htext, ?_, _, _, tokens_cons_solid hsolid _, fun m rest => ?_⟩
  · rw [tokens_cons_solid hsolid, Token.unwords_cons_byte]
    exact congrArg (q :: ·) (hunwords [] (.append_cons .nil .nil hsolid))
  · have hclose := hunwords [Byte.semicolon] (.append_cons .nil (by decide) hsolid)
    have hspace : Byte.space ∉ [q, Byte.semicolon] := by
      rw [List.mem_pair, not_or]
      exact ⟨(Byte.quote_ne hq).1.symm, by decide⟩
    have hup := Token.upTo_mem List.mem_cons_self hspace rest _ _ htext hclose
    simp only [read, Form.ofToken_quote hq]
    rw [← hclose, readString_of_upTo hup, Token.unwords_cons_byte]
    rfl

end

/-! ## Words with blanks between them -/

/-- The text has the words with blanks between them. -/
inductive Text.Gapped : List Text → Text → Prop
  | one (w : Text) : Gapped [w] w
  | cons {w gap w' body : Text} {ws : List Text} : gap.IsBlank → gap ≠ [] →
      Gapped (w' :: ws) body → Gapped (w :: w' :: ws) (w ++ (gap ++ body))

namespace Text.Gapped

variable {words : List Text} {body : Text} (h : Gapped words body)
include h

theorem not_mem {b : UInt8} (hb : b < 0x80) (hn : (Byte.rune b).isBlank = false)
    (hw : ∀ w ∈ words, b ∉ w) : b ∉ body := by
  induction h with
  | one w => exact hw w (by simp)
  | cons hgap _ _ ih =>
    have hi := ih fun w hm => hw w (List.mem_cons_of_mem _ hm)
    simp [hw, hgap.not_mem hb hn, hi]

/-- Put together again, solid words have single spaces between them. -/
theorem unwords_tokens {q : UInt8} (hq : Byte.IsSolid q)
    (hw : ∀ w ∈ words, w ≠ [] ∧ w.IsSolid) :
    Token.unwords (Text.tokens (q :: (body ++ [q]))) = q :: (Token.unwords words ++ [q]) := by
  have hlast : ∀ {a : Text}, a.IsSolid → (a ++ [q]).IsSolid := fun ha => ha.append_cons .nil hq
  -- the quote in front belongs to the first word only, so the induction is on any such front
  have hfront : ∀ a : Text, (∀ {w : Text}, w.IsSolid → (a ++ w).IsSolid) →
      Token.unwords (a ++ (body ++ [q])).tokens = a ++ (Token.unwords words ++ [q]) := by
    induction h with
    | one w =>
      intro a ha
      rw [(ha (hlast (hw w (by simp)).2)).tokens (by simp)]
      rfl
    | @cons w gap w' body ws hgap hne _ ih =>
      intro a ha
      have hbehind := ih (fun v hv => hw v (List.mem_cons_of_mem _ hv)) [] id
      rw [List.nil_append, List.nil_append] at hbehind
      have hcons : Text.tokens (body ++ [q]) ≠ [] := by
        intro hnil
        rw [hnil] at hbehind
        exact List.append_ne_nil_of_right_ne_nil _ (List.cons_ne_nil q []) hbehind.symm
      obtain ⟨hwne, hws⟩ := hw w (by simp)
      rw [List.append_assoc, List.append_assoc, ← List.append_assoc a, hgap.tokens_between hne,
        (ha hws).tokens (List.append_ne_nil_of_right_ne_nil a hwne), List.singleton_append,
        Token.unwords_cons hcons, hbehind, Token.unwords_cons_cons]
      simp
  exact hfront [q] fun hs => .append_cons .nil hs hq

end Text.Gapped

/-! ## Strings in the output -/

theorem Token.mem_unwords {b : UInt8} : ∀ {toks : List Token}, b ∈ unwords toks →
    b = Byte.space ∨ ∃ tok ∈ toks, b ∈ tok
  | [tok], h => Or.inr ⟨tok, by simp, h⟩
  | tok :: tok' :: toks, h => by
    rw [unwords_cons_cons, List.mem_append, List.mem_cons] at h
    rcases h with h | h | h
    · exact Or.inr ⟨tok, by simp, h⟩
    · exact Or.inl h
    · obtain h | ⟨t, ht, hb⟩ := mem_unwords h
      · exact Or.inl h
      · exact Or.inr ⟨t, List.mem_cons_of_mem _ ht, hb⟩

theorem Token.newline_not_mem_unwords_tokens (t : Text) : Byte.newline ∉ unwords t.tokens := by
  intro hm
  obtain hspace | ⟨tok, ht, hm⟩ := mem_unwords hm
  · exact absurd hspace (by decide)
  · rcases isToken_of_mem_tokens ht with rfl | rfl | ⟨-, hsolid⟩
    · exact absurd hm (by decide)
    · exact absurd hm (by decide)
    · exact hsolid.not_mem (by decide) hm

/-- A text without blanks whose bytes are no braces is solid. -/
theorem Text.isSolid_of_runes {w : Text} (hw : ∀ r ∈ w.runes, r.isBlank = false)
    (hb : ∀ b ∈ w, Byte.isBrace b = false) : w.IsSolid := by
  have hbrace : ∀ {b : UInt8}, Byte.isBrace b = true → b ∉ w := by
    intro b h hm
    rw [hb b hm] at h
    cases h
  exact fun r hr =>
    ⟨hw r hr, isBrace_eq_false_of_mem_runes (hbrace (by decide)) (hbrace (by decide)) r hr⟩

namespace Lowering

section
variable {m : Token} {q : UInt8} {body : Text} (hm : IsMnemonic m)
  (hq : q = Byte.singleQuote ∨ q = Byte.doubleQuote) (hb : q ∉ body)
include hm hq hb

/-- A mnemonic and a string add one line, whatever the macros. -/
theorem run_quoted {s : State} (hu : s.macros.lookup? m = none) (opts : Options)
    (rest : List Token) :
    run opts ((m ++ Byte.space :: q :: (body ++ [q, Byte.semicolon])).tokens ++ rest) s =
      run opts rest ⟨s.macros, s.out ++ finished
        [m ++ Byte.space :: Token.unwords (Text.tokens (q :: (body ++ [q])))]⟩ := by
  obtain ⟨text, -, htext, word, left, htoks, hread⟩ := Statement.exists_read_string hq hb
  have hhead : ((q :: word) :: (left ++ rest)).head? ≠ some Token.arrow := by
    intro he
    have hfirst := (List.cons.inj (Option.some.inj he)).1
    rcases hq with rfl | rfl <;> exact absurd hfirst (by decide)
  have hfragment : ∀ out : Text, Output.fragment out (q :: (text ++ [q, Byte.semicolon])) =
      out ++ finished [q :: (text ++ [q])] := fun out => by
    rw [← Output.fragment_terminated]
    simp
  have htokens : (m ++ Byte.space :: q :: (body ++ [q, Byte.semicolon])).tokens =
      m :: (q :: word) :: left := by
    rw [tokens_append_blank (by decide) (by decide), hm.isToken.tokens, htoks]
    rfl
  have hstring : ∀ out : Text, run opts ((q :: word) :: (left ++ rest)) ⟨s.macros, out⟩ =
      run opts rest ⟨s.macros, out ++ finished [q :: (text ++ [q])]⟩ := fun out => by
    rw [← hfragment]
    exact run_cons_done (hread s.macros rest) rfl
  rw [htokens, List.cons_append, List.cons_append, hm.run_eq hu hhead, hstring, htext]
  simp [finished]

/-- The line without its braces ends in the quote, so no more is taken from it. -/
theorem tidy_quoted :
    tidy (finished [m ++ Byte.space :: Token.unwords (Text.tokens (q :: (body ++ [q])))]) =
      finished [m ++ Byte.space ::
        dropBraces (Token.unwords (Text.tokens (q :: (body ++ [q]))))] := by
  obtain ⟨text, -, htext, -⟩ := Statement.exists_read_string hq hb
  have hinert := Program.inert_of_solid hm.solid
  have hnewline : Byte.newline ∉
      m ++ Byte.space :: Token.unwords (Text.tokens (q :: (body ++ [q]))) := by
    rw [List.mem_append, List.mem_cons, not_or, not_or]
    exact ⟨hinert.noNewline, by decide, Token.newline_not_mem_unwords_tokens _⟩
  have hbrace : ∀ t : Text, dropBraces (m ++ Byte.space :: t) =
      m ++ Byte.space :: dropBraces t := fun t => by
    rw [dropBraces_append, dropBraces_of_forall fun b hb => (hinert b hb).2]
    rfl
  obtain ⟨-, hsemi, hspacing, hquote⟩ := Byte.quote_ne hq
  have hlast : dropBraces (q :: (text ++ [q])) = dropBraces (q :: text) ++ [q] := by
    rw [← List.cons_append, dropBraces_append]
    simp [dropBraces, hquote]
  rw [tidy_finished, List.map_singleton, tidy_of_not_mem hnewline, tidied, hbrace, htext, hlast,
    ← List.cons_append, ← List.append_assoc, tidyLine_of_last hspacing hsemi]

end

/-- **A string comes through but for its braces.**  Its tokens, and no other, are read; whatever the
    macros, one line is added, with the mnemonic and the tokens of the string with single spaces
    between them.  In the result the braces of that line are gone.  So the words come through as
    they are, with single spaces between them, only if none of them has a brace. -/
theorem run_string {m : Token} {q : UInt8} {words : List Text} {body : Text} (hm : IsMnemonic m)
    (hq : q = Byte.singleQuote ∨ q = Byte.doubleQuote) (hb : Text.Gapped words body)
    (hw : ∀ w ∈ words, w ≠ [] ∧ (∀ r ∈ w.runes, r.isBlank = false) ∧ q ∉ w)
    {s : State} (hs : Closed s.out) (hu : s.macros.lookup? m = none) (opts : Options) :
    (∀ rest, run opts ((m ++ Byte.space :: q :: (body ++ [q, Byte.semicolon])).tokens ++ rest) s =
      run opts rest ⟨s.macros, s.out ++ finished
        [m ++ Byte.space :: Token.unwords (Text.tokens (q :: (body ++ [q])))]⟩) ∧
    (run opts (m ++ Byte.space :: q :: (body ++ [q, Byte.semicolon])).tokens s).result =
      .ok (tidy s.out ++ finished
        [m ++ Byte.space :: dropBraces (Token.unwords (Text.tokens (q :: (body ++ [q]))))]) ∧
    ((run opts (m ++ Byte.space :: q :: (body ++ [q, Byte.semicolon])).tokens s).result =
        .ok (tidy s.out ++ finished [m ++ Byte.space :: q :: (Token.unwords words ++ [q])]) ↔
      ∀ w ∈ words, ∀ b ∈ w, Byte.isBrace b = false) := by
  have hsolid := Byte.isSolid_quote hq
  have hbody : q ∉ body := hb.not_mem hsolid.1 hsolid.2.1 fun w hmem => (hw w hmem).2.2
  have hrun := run_quoted hm hq hbody hu opts
  have hresult : (run opts (m ++ Byte.space :: q ::
      (body ++ [q, Byte.semicolon])).tokens s).result = .ok (tidy s.out ++ finished
        [m ++ Byte.space :: dropBraces (Token.unwords (Text.tokens (q :: (body ++ [q]))))]) := by
    have hend := hrun []
    rw [List.append_nil, run_nil] at hend
    rw [hend, ← tidy_quoted hm hq hbody, ← Output.tidy_append_of_closed hs]
    rfl
  refine ⟨hrun, hresult, ?_⟩
  rw [hresult]
  constructor
  · intro h w hmem b hbw
    have hline := List.append_cancel_left (Except.ok.inj h)
    rw [finished_cons, finished_cons] at hline
    have htext := (List.cons.inj (List.append_cancel_left (List.append_cancel_right hline))).2
    have hword : b ∈ Token.unwords words := (Text.infix_join_of_mem _ hmem).subset hbw
    have hkept : b ∈ dropBraces (Token.unwords (Text.tokens (q :: (body ++ [q])))) := by
      rw [htext]
      simp [hword]
    simpa using (List.mem_filter.1 hkept).2
  · intro h
    have hwords : ∀ w ∈ words, w ≠ [] ∧ w.IsSolid := fun w hmem =>
      ⟨(hw w hmem).1, Text.isSolid_of_runes (hw w hmem).2.1 (h w hmem)⟩
    have hbrace : ∀ b ∈ q :: (Token.unwords words ++ [q]), Byte.isBrace b = false := by
      intro b hmem
      rw [List.mem_cons, List.mem_append, List.mem_singleton] at hmem
      rcases hmem with rfl | hmem | rfl
      · exact (Byte.quote_ne hq).2.2.2
      · obtain rfl | ⟨w, hwords, hbw⟩ := Token.mem_unwords hmem
        · rfl
        · exact h w hwords b hbw
      · exact (Byte.quote_ne hq).2.2.2
    rw [hb.unwords_tokens hsolid hwords, dropBraces_of_forall hbrace]

/-- A word of the string is a macro, one would open a comment, and one has a terminator. -/
theorem run_string_marked : ∃ m : Macros, ∃ body : Text,
    m = Macros.empty.define (utf8 "N") (utf8 "1") ∧ body = utf8 "N\t /*\na;b" ∧
    Text.Gapped [utf8 "N", utf8 "/*", utf8 "a;b"] body ∧
    (run {} (utf8 "db" ++ Byte.space :: Byte.doubleQuote ::
      (body ++ [Byte.doubleQuote, Byte.semicolon])).tokens ⟨m, utf8 "ret;\n"⟩).result =
        .ok (utf8 "ret\ndb \"N /* a;b\"\n") := by
  refine ⟨_, _, rfl, rfl, ?_⟩
  have hm : IsMnemonic (utf8 "db") := Program.IsPlain.isMnemonic (by decide +kernel)
  have hb : Text.Gapped [utf8 "N", utf8 "/*", utf8 "a;b"] (utf8 "N\t /*\na;b") :=
    @Text.Gapped.cons _ (utf8 "\t ") _ _ _ (by decide) (by decide)
      (@Text.Gapped.cons _ (utf8 "\n") _ _ _ (by decide) (by decide) (.one _))
  have hw : ∀ w ∈ [utf8 "N", utf8 "/*", utf8 "a;b"],
      (w ≠ [] ∧ (∀ r ∈ w.runes, r.isBlank = false) ∧ Byte.doubleQuote ∉ w) ∧
        Inert w := by
    intro w hmem
    simp only [List.mem_cons, List.not_mem_nil, or_false] at hmem
    rcases hmem with rfl | rfl | rfl <;> decide
  have hstring := run_string hm (Or.inr rfl) hb (fun w hmem => (hw w hmem).1)
    (s := ⟨Macros.empty.define (utf8 "N") (utf8 "1"), utf8 "ret;\n"⟩) (Or.inr (by decide))
    (by decide) {}
  have hbraces := hstring.2.2.2 fun w hmem b hbw => ((hw w hmem).2 b hbw).2
  refine ⟨hb, hbraces.trans (congrArg Except.ok ?_)⟩
  decide +kernel

/-- **Not every string comes through:** a brace in it is cut out, and leaves two spaces. -/
theorem string_loses_brace :
    ¬ ∀ (opts : Options) (s : State) (m : Token) (q : UInt8) (words : List Text) (body : Text),
      IsMnemonic m → (q = Byte.singleQuote ∨ q = Byte.doubleQuote) → Text.Gapped words body →
      (∀ w ∈ words, w ≠ [] ∧ (∀ r ∈ w.runes, r.isBlank = false) ∧ q ∉ w) →
      Closed s.out → s.macros.lookup? m = none →
      (run opts (m ++ Byte.space :: q :: (body ++ [q, Byte.semicolon])).tokens s).result =
        .ok (tidy s.out ++ finished [m ++ Byte.space :: q :: (Token.unwords words ++ [q])]) := by
  intro h
  have hm : IsMnemonic (utf8 "db") := Program.IsPlain.isMnemonic (by decide +kernel)
  have hresult := h {} .initial (utf8 "db") Byte.singleQuote [utf8 "a\x7bb"] (utf8 "a\x7bb") hm
    (Or.inl rfl) (.one _) (by simp only [List.forall_mem_singleton]; decide) (Or.inl rfl) rfl
  have htext := (Ending.result_eq_ok.1 hresult).2
  revert htext
  decide +kernel

end Lowering

end BlockAsm
