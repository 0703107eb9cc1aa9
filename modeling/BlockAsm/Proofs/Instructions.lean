/-
  BlockAsm: instructions with a list of numbers.

  A word that is written as it stands (`IsMnemonic`), and operands with commas between them
  (`instruction`).  The reader cuts at blanks, so a comma stays with the operand in front of it.
  Only the last operand is a number to the reader:

  * `Number.isFixed_comma`: a decimal numeral with its comma is a word, and stands as it is;
  * `Number.lower_comma`: a literal with a base mark and its comma has bad digits.

  In a call the same numbers are all written in base ten (`lower_call_numbers`).
-/
import BlockAsm.Proofs.Moves
import BlockAsm.Proofs.Program.Fixed

namespace BlockAsm

open Layout Lowering
open Program (IsBare IsFixed Number Represents inert_of_solid)

/-! ## Mnemonics -/

/-- A word that is read as a word of the target and written as it is. -/
structure IsMnemonic (w : Token) : Prop where
  ne_nil : w ≠ []
  solid : w.IsSolid
  generic : Form.ofToken w = .generic
  notTerminated : w.isTerminated = false
  settled : Operand.lower w = .ok w

theorem Program.IsPlain.isMnemonic {w : Token} (h : IsPlain w) : IsMnemonic w :=
  ⟨h.ne_nil, h.solid, h.toIsBare.ofToken (Or.inl rfl), h.toIsBare.isTerminated,
    Atom.lower_text (.word ⟨w, h⟩)⟩

namespace IsMnemonic

variable {w : Token} (h : IsMnemonic w)
include h

theorem isToken : Token.IsToken w := Or.inr (Or.inr ⟨h.ne_nil, h.solid⟩)

theorem dropTerminator : w.dropTerminator = w := by
  rw [Text.dropTerminator, Text.dropEnd, if_neg]
  rw [← Text.isTerminated, h.notTerminated]
  exact Bool.false_ne_true

theorem resolveOperand {m : Macros} (hm : m.lookup? w = none) : m.resolveOperand w = w := by
  have ha := (Operand.renders_self_iff.1 (Operand.lower_eq_ok_iff.1 h.settled)).1
  rw [Macros.resolveOperand, Program.dropFront?_ampersand_eq_none_iff.2 ha]
  simp only [Macros.resolve, hm, Option.getD_none]

/-- A mnemonic that is no macro is written with a space behind it. -/
theorem run_eq {m : Macros} (hm : m.lookup? w = none) {rest : List Token}
    (hr : rest.head? ≠ some Token.arrow) (opts : Options) (out : Text) :
    run opts (w :: rest) ⟨m, out⟩ = run opts rest ⟨m, out ++ w ++ [Byte.space]⟩ := by
  have hne : w ≠ Form.moveWord ∧ w ≠ Token.lbrace ∧ w ≠ Token.rbrace := by
    refine ⟨?_, ?_, ?_⟩
    · rintro rfl
      exact absurd h.generic (by decide)
    · rintro rfl; exact h.solid.not_mem (by decide) List.mem_cons_self
    · rintro rfl; exact h.solid.not_mem (by decide) List.mem_cons_self
  rw [run_word h.generic (by rw [h.dropTerminator, h.resolveOperand hm]) hne h.settled hr,
    h.notTerminated, if_neg Bool.false_ne_true, Output.fragment, h.notTerminated,
    if_neg Bool.false_ne_true]

end IsMnemonic

/-! ## Lists of operands -/

/-- A word and its operands with commas between them. -/
def instruction (w : Token) (ops : List Text) : Text :=
  w ++ [Byte.space] ++ Text.join (utf8 ", ") ops

/-- A comma belongs to the word in front of it. -/
theorem instruction_concat (w : Token) (ops : List Text) (last : Text) :
    instruction w (ops ++ [last]) =
      w ++ [Byte.space] ++ (ops.map (· ++ [Byte.comma])).flatMap (· ++ [Byte.space]) ++ last := by
  have hsep : utf8 ", " = [Byte.comma] ++ [Byte.space] := rfl
  rw [instruction, Text.join_concat, hsep]
  simp [List.flatMap_map]

section
variable {w : Token} (hw : IsMnemonic w)
include hw

theorem tokens_instruction {ops : List Text} {last : Text} (ho : ∀ t ∈ ops, IsBare t)
    (hl : IsBare last) : (instruction w (ops ++ [last]) ++ [Byte.semicolon]).tokens =
      w :: (ops.map (· ++ [Byte.comma]) ++ [last ++ [Byte.semicolon]]) := by
  have hunwords : instruction w (ops ++ [last]) ++ [Byte.semicolon] =
      Token.unwords (w :: (ops.map (· ++ [Byte.comma]) ++ [last ++ [Byte.semicolon]])) := by
    rw [instruction_concat, Token.unwords_cons (by simp), Token.unwords, Text.join_concat]
    simp
  rw [hunwords, Token.tokens_unwords]
  intro tok hm
  rcases List.mem_cons.1 hm with rfl | hm
  · exact hw.isToken
  · refine Or.inr (Or.inr ?_)
    rcases List.mem_append.1 hm with hm | hm
    · obtain ⟨t, ht, rfl⟩ := List.mem_map.1 hm
      have hbare := (ho t ht).append_singleton (Or.inl rfl)
      exact ⟨hbare.ne_nil, hbare.solid⟩
    · exact hl.ended_solid (Or.inr (List.mem_singleton.1 hm))

theorem isNeat_instruction {ops : List Text} {last : Text} (ho : ∀ t ∈ ops, IsBare t)
    (hl : IsNeat last) : IsNeat (instruction w (ops ++ [last])) := by
  rw [instruction_concat]
  refine .append (((inert_of_solid hw.solid).append (by decide)).append fun b hb => ?_) hl
  obtain ⟨tok, hm, hb⟩ := List.mem_flatMap.1 hb
  obtain ⟨t, ht, rfl⟩ := List.mem_map.1 hm
  have hcomma := inert_of_solid ((ho t ht).append_singleton (Or.inl rfl)).solid
  exact hcomma.append (by decide) b hb

end

/-! ## Numbers -/

namespace Program.Number

theorem isArgument (n : Number) : Call.IsArgument n.text :=
  ⟨n.bare.ne_nil, n.bare.solid, fun hm => absurd (n.isPart_text.2 _ hm) (by decide),
    n.bare.not_mem (by decide)⟩

theorem isArgument_decimal (n : Number) : Call.IsArgument n.decimal :=
  (Number.mk n.decimal n.value n.value_decimal).isArgument

/-- A number that is spelled without a base mark. -/
def Unmarked (n : Number) : Prop := ∀ r : Radix, ¬ r.mark <+: n.text

theorem unmarked_of_eq_decimal {n : Number} (h : n.text = n.decimal) : n.Unmarked := by
  rw [Unmarked, h]
  exact Radix.cut?_eq_none_iff.1 (Radix.cut?_of_spells (Numeral.spells_ofInt _))

theorem noAmpersand_comma (n : Number) : Byte.ampersand ∉ n.text ++ [Byte.comma] := by
  rw [List.mem_append, not_or]
  exact ⟨n.noAmpersand, by decide⟩

theorem append_comma_ne (n : Number) {t : Text} (ht : Byte.comma ∉ t) :
    n.text ++ [Byte.comma] ≠ t := by
  rintro rfl
  exact ht (by simp)

/-- A decimal numeral with a comma behind it is a word. -/
theorem isFixed_comma {n : Number} (h : n.Unmarked) :
    IsFixed (n.text ++ [Byte.comma]) :=
  (n.bare.isPlain_append (Or.inl rfl) n.noAmpersand h).isFixed

/-- A literal with a base mark and a comma behind it has a bad digit. -/
theorem lower_comma {n : Number} {r : Radix} (h : r.mark <+: n.text) :
    Operand.lower (n.text ++ [Byte.comma]) =
      .error (.badDigits (n.text ++ [Byte.comma]) r) := by
  have hmark : r.mark <+: n.text ++ [Byte.comma] := h.trans (List.prefix_append ..)
  have hnumeric : Literal.isNumeric (n.text ++ [Byte.comma]) = true := by
    by_contra hn
    exact (Literal.isNumeric_eq_false_iff.1 (Bool.eq_false_iff.2 hn)).1 r hmark
  rw [Operand.lower, dropFront?_ampersand n.noAmpersand_comma]
  simp only [hnumeric, if_true, Literal.normalize]
  cases hv : Literal.value (n.text ++ [Byte.comma]) with
  | ok v => exact absurd ((Number.mk _ v hv).isPart_text.2 Byte.comma (by simp)) (by decide)
  | error f =>
    rcases Literal.eq_of_value_error hv with ⟨r', ⟨digits', hr'⟩, rfl⟩ | ⟨hn, -⟩
    · obtain ⟨digits, hr⟩ := hmark
      have hcut := Radix.cut?_eq_some_iff.2 hr.symm
      rw [Radix.cut?_eq_some_iff.2 hr'.symm] at hcut
      cases hcut
      rfl
    · exact absurd hmark (hn r)

theorem exists_first_marked {ns : List Number} (h : ¬ ∀ x ∈ ns, x.Unmarked) :
    ∃ front x back r, ns = front ++ x :: back ∧ (∀ y ∈ front, y.Unmarked) ∧
      Radix.mark r <+: x.text := by
  induction ns with
  | nil => exact absurd (by simp) h
  | cons x ns ih =>
    by_cases hx : x.Unmarked
    · obtain ⟨front, y, back, r, rfl, hfront, hy⟩ :=
        ih fun hn => h (List.forall_mem_cons.2 ⟨hx, hn⟩)
      exact ⟨x :: front, y, back, r, rfl, List.forall_mem_cons.2 ⟨hx, hfront⟩, hy⟩
    · obtain ⟨r, hr⟩ := not_forall_not.1 hx
      exact ⟨[], x, ns, r, rfl, by simp, hr⟩

/-- No operand of a list is an arrow. -/
theorem head?_listed_ne_arrow (n : Number) (ns : List Number) :
    ((ns.map (·.text)).map (· ++ [Byte.comma]) ++ [n.text ++ [Byte.semicolon]]).head? ≠
      some Token.arrow := by
  cases ns with
  | nil => exact head?_terminated_append [.number n] []
  | cons x ns => exact fun he => x.append_comma_ne (by decide) (Option.some.inj he)

end Program.Number

/-! ## Numbers in instructions and in calls -/

namespace Lowering

/-- A literal with a base mark and a comma behind it ends the run. -/
theorem run_marked {x : Number} {r : Radix} (hx : r.mark <+: x.text) (opts : Options)
    {rest : List Token} (hr : rest.head? ≠ some Token.arrow) (out : Text) :
    run opts ((x.text ++ [Byte.comma]) :: rest) ⟨.empty, out⟩ = ⟨rest, ⟨.empty, out⟩,
      some (.ofFault (.badLiteral (.badDigits (x.text ++ [Byte.comma]) r)))⟩ := by
  have hbare := x.bare.append_singleton (b := Byte.comma) (Or.inl rfl)
  have hcore : Macros.empty.resolveOperand (x.text ++ [Byte.comma]).dropTerminator =
      x.text ++ [Byte.comma] := by
    rw [hbare.dropTerminator, Macros.resolveOperand,
      Program.dropFront?_ampersand x.noAmpersand_comma]
    rfl
  exact run_word_fault opts (hbare.ofToken (Or.inl rfl)) hcore
    ⟨x.append_comma_ne (by decide), x.append_comma_ne (by decide), x.append_comma_ne (by decide)⟩
    (Number.lower_comma hx) hr out

section
variable {w : Token} (hw : IsMnemonic w) (opts : Options) {ns : List Number}
include hw

/-- Operands that are fixed with their commas are written as they are. -/
theorem run_listed {ops : List Text} (h : ∀ t ∈ ops, IsFixed (t ++ [Byte.comma]))
    {rest : List Token} (hr : rest.head? ≠ some Token.arrow) :
    run opts (w :: (ops.map (· ++ [Byte.comma]) ++ rest)) .initial =
      run opts rest ⟨.empty,
        w ++ [Byte.space] ++ (ops.map (· ++ [Byte.comma])).flatMap (· ++ [Byte.space])⟩ := by
  have hfixed : ∀ tok ∈ ops.map (· ++ [Byte.comma]), IsFixed tok := List.forall_mem_map.2 h
  rw [State.initial, hw.run_eq rfl (Program.head?_append_ne_arrow hfixed hr),
    Represents.empty.run_fixed hfixed hr]
  rfl

theorem tokens_numbers (ns : List Number) (n : Number) :
    (instruction w ((ns ++ [n]).map (·.text)) ++ [Byte.semicolon]).tokens =
      w :: ((ns.map (·.text)).map (· ++ [Byte.comma]) ++ [n.text ++ [Byte.semicolon]]) := by
  rw [List.map_append]
  exact tokens_instruction hw (List.forall_mem_map.2 fun x _ => x.bare) n.bare

/-- Decimal numerals stay as they are spelled, but for the last. -/
theorem lower_decimals (h : ∀ x ∈ ns, x.Unmarked) (n : Number) :
    lower opts (instruction w ((ns ++ [n]).map (·.text)) ++ [Byte.semicolon]) =
      .ok (finished [instruction w (ns.map (·.text) ++ [n.decimal])]) := by
  have hfixed : ∀ t ∈ ns.map (·.text), IsFixed (t ++ [Byte.comma]) :=
    List.forall_mem_map.2 fun x hx => Number.isFixed_comma (h x hx)
  have hhead : [n.text ++ [Byte.semicolon]].head? ≠ some Token.arrow := n.head?_listed_ne_arrow []
  have hlast : ∀ out, run opts [n.text ++ [Byte.semicolon]] ⟨.empty, out⟩ =
      ⟨[], ⟨.empty, out ++ finished [n.decimal]⟩, none⟩ := fun out => by
    rw [← run_nil opts]
    exact Represents.empty.run_atom_end (by simp) (.number n) out
  have hneat : IsNeat (instruction w (ns.map (·.text) ++ [n.decimal])) :=
    isNeat_instruction hw (List.forall_mem_map.2 fun x _ => x.bare) (Program.isNeat_ofInt _)
  have hout : w ++ [Byte.space] ++ ((ns.map (·.text)).map (· ++ [Byte.comma])).flatMap
      (· ++ [Byte.space]) ++ finished [n.decimal] =
        finished [instruction w (ns.map (·.text) ++ [n.decimal])] := by
    rw [instruction_concat]
    simp [finished]
  rw [lower, tokens_numbers hw, run_listed hw opts hfixed hhead, hlast, hout]
  exact congrArg Except.ok (tidy_finished_of_neat (by simpa using hneat))

/-- The first literal with a base mark is refused, unless it is the last of the list. -/
theorem lower_marked {front back : List Number} {x : Number} {r : Radix}
    (h : ∀ y ∈ front, y.Unmarked) (hx : r.mark <+: x.text) (n : Number) :
    lower opts (instruction w ((front ++ x :: back ++ [n]).map (·.text)) ++ [Byte.semicolon]) =
      .error (.ofFault (.badLiteral (.badDigits (x.text ++ [Byte.comma]) r))) := by
  have hfixed : ∀ t ∈ front.map (·.text), IsFixed (t ++ [Byte.comma]) :=
    List.forall_mem_map.2 fun y hy => Number.isFixed_comma (h y hy)
  rw [lower, tokens_numbers hw, List.map_append, List.map_append, List.append_assoc,
    run_listed hw opts hfixed (n.head?_listed_ne_arrow (x :: back)), List.map_cons, List.map_cons,
    List.cons_append, run_marked hx opts (n.head?_listed_ne_arrow back)]
  rfl

end

/-- As arguments of a call all numbers are written in base ten. -/
theorem lower_call_numbers {f : Text} (hf : f.isIdentifier = true) (opts : Options)
    (ns : List Number) :
    lower opts (f ++ [Byte.lparen] ++ Text.join (utf8 ", ") (ns.map (·.text)) ++
      ([Byte.rparen] ++ [Byte.semicolon])) =
      .ok (finished ((ns.map (·.decimal)).reverse.map (utf8 "push " ++ ·) ++
        [utf8 "call " ++ f])) := by
  obtain ⟨tok, left, htoks, hread⟩ := (Call.spaced_join (ns.map (·.text))).exists_read hf
    (List.forall_mem_map.2 fun n _ => n.isArgument) (Or.inr rfl)
  have hlowers : List.Forall₂ Macros.empty.Lowers (ns.map (·.text)) (ns.map (·.decimal)) := by
    rw [List.forall₂_map_left_iff, List.forall₂_map_right_iff, List.forall₂_same]
    intro n _
    rw [Macros.Lowers, Represents.empty.resolveOperand_number, n.lower_text]
  have hrun := run_cons_done (hread .empty []) (@Statement.execute_call .initial _ _ opts
    (inner opts _ .initial) f hlowers)
  have hneat : ∀ l ∈ (ns.map (·.decimal)).reverse.map (utf8 "push " ++ ·) ++ [utf8 "call " ++ f],
      IsNeat l := by
    intro l hl
    rcases List.mem_append.1 hl with hl | hl
    · obtain ⟨t, ht, rfl⟩ := List.mem_map.1 hl
      obtain ⟨n, -, rfl⟩ := List.mem_map.1 (List.mem_reverse.1 ht)
      exact .append (by decide) (Program.isNeat_ofInt _)
    · obtain ⟨hne, hs, hsemi⟩ := Text.solid_of_isIdentifier hf
      rw [List.mem_singleton.1 hl]
      exact .append (by decide) (isNeat_of_ink hne (Program.isInk_of_solid hs hsemi))
  rw [List.append_nil, run_nil] at hrun
  rw [lower, htoks, hrun]
  exact congrArg Except.ok (tidy_finished_of_neat hneat)

/-- Texts that can be arguments are told apart when they are joined. -/
theorem instruction_inj {w : Token} {ops ops' : List Text} (h : ∀ t ∈ ops, Call.IsArgument t)
    (h' : ∀ t ∈ ops', Call.IsArgument t) (he : instruction w ops = instruction w ops') :
    ops = ops' := by
  have hjoin := List.append_cancel_left he
  rw [← (Call.spaced_join ops).cut h, hjoin, (Call.spaced_join ops').cut h']

/-- **In a list of numbers only the last is sure to be written in base ten.**  If no other has a
    base mark, the others stay as they are spelled; the first other with a base mark is refused.
    So all are written in base ten only if the others already are.  As arguments of a call they
    all are, however they are spelled. -/
theorem lower_number_list {w : Token} (hw : IsMnemonic w) (opts : Options) (ns : List Number)
    (n : Number) :
    ((∀ x ∈ ns, x.Unmarked) →
      lower opts (instruction w ((ns ++ [n]).map (·.text)) ++ [Byte.semicolon]) =
        .ok (finished [instruction w (ns.map (·.text) ++ [n.decimal])])) ∧
    (∀ front x back r, ns = front ++ x :: back →
      (∀ y ∈ front, y.Unmarked) → Radix.mark r <+: x.text →
      lower opts (instruction w ((ns ++ [n]).map (·.text)) ++ [Byte.semicolon]) =
        .error (.ofFault (.badLiteral (.badDigits (x.text ++ [Byte.comma]) r)))) ∧
    (lower opts (instruction w ((ns ++ [n]).map (·.text)) ++ [Byte.semicolon]) =
        .ok (finished [instruction w ((ns ++ [n]).map (·.decimal))]) ↔
      ∀ x ∈ ns, x.text = x.decimal) ∧
    ∀ f : Text, f.isIdentifier = true →
      lower opts (f ++ utf8 "(" ++ Text.join (utf8 ", ") ((ns ++ [n]).map (·.text)) ++ utf8 ");") =
        .ok (finished (((ns ++ [n]).map (·.decimal)).reverse.map (utf8 "push " ++ ·) ++
          [utf8 "call " ++ f])) := by
  have hargs : ∀ {g : Number → Text}, (∀ x, Call.IsArgument (g x)) →
      ∀ t ∈ ns.map g ++ [n.decimal], Call.IsArgument t := by
    intro g hg t ht
    rcases List.mem_append.1 ht with ht | ht
    · obtain ⟨x, -, rfl⟩ := List.mem_map.1 ht
      exact hg x
    · rw [List.mem_singleton.1 ht]
      exact n.isArgument_decimal
  refine ⟨fun h => lower_decimals hw opts h n, ?_, ⟨fun h => ?_, fun h => ?_⟩,
    fun f hf => lower_call_numbers hf opts (ns ++ [n])⟩
  · rintro front x back r rfl hfront hx
    exact lower_marked hw opts hfront hx n
  · by_cases hm : ∀ x ∈ ns, x.Unmarked
    · rw [lower_decimals hw opts hm] at h
      have hline := Except.ok.inj h
      rw [finished_cons, finished_cons, List.map_append, List.map_singleton] at hline
      have hops := instruction_inj (hargs Number.isArgument) (hargs Number.isArgument_decimal)
        (List.append_cancel_right hline)
      exact List.map_inj_left.1 (List.append_cancel_right hops)
    · obtain ⟨front, x, back, r, rfl, hfront, hx⟩ := Number.exists_first_marked hm
      rw [lower_marked hw opts hfront hx] at h
      cases h
  · rw [lower_decimals hw opts fun x hx => Number.unmarked_of_eq_decimal (h x hx),
      List.map_congr_left h, List.map_append]
    rfl

/-- A sign and zeros in front stay, and the last number is written in base ten. -/
theorem lower_number_list_signed : IsMnemonic (utf8 "dq") ∧
    lower {} (utf8 "dq +5, 007, 0xffffffffffffffff;") = .ok (utf8 "dq +5, 007, -1\n") := by
  have hw : IsMnemonic (utf8 "dq") := Program.IsPlain.isMnemonic (by decide +kernel)
  let five : Number := ⟨utf8 "+5", 5, by decide +kernel⟩
  let seven : Number := ⟨utf8 "007", 7, by decide +kernel⟩
  let last : Number := ⟨utf8 "0xffffffffffffffff", -1, by decide +kernel⟩
  have hmark : ∀ x ∈ [five, seven], x.Unmarked := by
    intro x hx r
    rcases List.mem_pair.1 hx with rfl | rfl <;> cases r <;> decide
  exact ⟨hw, (lower_number_list hw {} [five, seven] last).1 hmark⟩

/-- **Not every number of an instruction is written in base ten:** one with a base mark is refused
    for the comma behind it. -/
theorem number_list_refused :
    ¬ ∀ (opts : Options) (w : Token) (ns : List Number) (n : Number), IsMnemonic w →
      lower opts (instruction w ((ns ++ [n]).map (·.text)) ++ [Byte.semicolon]) =
        .ok (finished [instruction w ((ns ++ [n]).map (·.decimal))]) := by
  intro h
  have hw : IsMnemonic (utf8 "add") := Program.IsPlain.isMnemonic (by decide +kernel)
  have hlower := h {} (utf8 "add") [⟨utf8 "0x10", 16, by decide +kernel⟩]
    ⟨utf8 "5", 5, by decide +kernel⟩ hw
  have hdone := (Ending.result_eq_ok.1 hlower).1
  revert hdone
  decide +kernel

end Lowering

end BlockAsm
