/-
  BlockAsm: moves.

  The target form of an operand, as a relation that looks up once and does not compute:

  * `Operand.Renders`: a text and its target form, memory in brackets and a number in base ten;
  * `Macros.Renders`: a token and the target form of its value, where `&name` is the memory at
    the value of `name`;
  * `Macros.lowers_iff_renders`: operands are lowered to their target forms;
  * `Operand.renders_self_iff`: the texts that are their own target form.

  A move writes the source in its target form.  The destination is looked up, but its value is
  written as it stands (`run_move`), so `&name` is no memory there (`move_keeps_address`).
-/
import BlockAsm.Proofs.Program.Reading

namespace BlockAsm

open Program (memory lower_ampersand dropFront?_ampersand_eq_none_iff Number)

/-! ## Target forms -/

/-- The target form of a text. -/
inductive Operand.Renders : Text → Text → Prop
  /-- `&name` is the memory at `name` -/
  | memory (name : Text) : Renders (Byte.ampersand :: name) (memory name)
  /-- a number is written in base ten -/
  | number {t : Text} {v : Int64} (h : Literal.Denotes t v) : Renders t (Numeral.ofInt v.toInt)
  /-- any other text that has no base mark stands for itself -/
  | word {t : Text} (ha : t.head? ≠ some Byte.ampersand) (hm : ∀ r : Radix, ¬ r.mark <+: t)
      (hn : ∀ v, ¬ Literal.Denotes t v) : Renders t t

/-- The target form of a token, which is looked up once. -/
inductive Macros.Renders (m : Macros) : Token → Text → Prop
  /-- `&name` is the memory at the value of `name` -/
  | address (name : Text) : m.Renders (Byte.ampersand :: name) (memory (m.resolve name))
  /-- any other token stands for its value -/
  | value {tok : Token} {u : Text} (ha : tok.head? ≠ some Byte.ampersand)
      (h : Operand.Renders (m.resolve tok) u) : m.Renders tok u

theorem Literal.Denotes.head?_ne {t : Text} {v : Int64} (h : Denotes t v) :
    t.head? ≠ some Byte.ampersand := fun ha =>
  (Number.mk t v (value_eq_ok_iff.2 h)).noAmpersand (List.mem_of_mem_head? ha)

namespace Operand

theorem lower_eq_ok_iff {t u : Text} : lower t = .ok u ↔ Renders t u := by
  constructor
  · intro h
    rw [lower] at h
    cases hd : t.dropFront? [Byte.ampersand] with
    | some name =>
      rw [hd] at h
      obtain rfl := Text.dropFront?_eq_some_iff.1 hd
      cases h
      exact .memory name
    | none =>
      simp only [hd] at h
      have ha := dropFront?_ampersand_eq_none_iff.1 hd
      split at h
      · rw [Literal.normalize] at h
        cases hv : Literal.value t with
        | error f => rw [hv] at h; cases h
        | ok v =>
          rw [hv] at h
          cases h
          exact .number (Literal.value_eq_ok_iff.1 hv)
      · rename_i hn
        obtain ⟨hm, hv⟩ := Literal.isNumeric_eq_false_iff.1 (Bool.eq_false_iff.2 hn)
        cases h
        exact .word ha hm hv
  · intro h
    cases h with
    | memory name => exact lower_ampersand name
    | @number t v hv => exact (Number.mk t v (Literal.value_eq_ok_iff.2 hv)).lower_text
    | word ha hm hn =>
      rw [lower, dropFront?_ampersand_eq_none_iff.2 ha]
      simp only [Literal.isNumeric_eq_false_iff.2 ⟨hm, hn⟩, Bool.false_eq_true, if_false]

/-- A text is its own target form if it is no address, and no number but in base ten. -/
theorem renders_self_iff {t : Text} : Renders t t ↔
    t.head? ≠ some Byte.ampersand ∧ (∀ r : Radix, ¬ r.mark <+: t) ∧
      ∀ v, Literal.Denotes t v → t = Numeral.ofInt v.toInt := by
  constructor
  · intro h
    generalize hu : t = u at h
    cases h with
    | @number _ v hv =>
      subst hu
      refine ⟨hv.head?_ne, Radix.cut?_eq_none_iff.1 (Radix.cut?_of_spells (Numeral.spells_ofInt _)),
        fun w hw => ?_⟩
      have hvw := (Literal.value_eq_ok_iff.2 hv).symm.trans (Literal.value_eq_ok_iff.2 hw)
      rw [Except.ok.inj hvw]
    | word ha hm hn => exact ⟨ha, hm, fun v hv => absurd hv (hn v)⟩
  · rintro ⟨ha, hm, hv⟩
    by_cases hn : ∃ v, Literal.Denotes t v
    · obtain ⟨v, hd⟩ := hn
      have h := Renders.number hd
      rwa [← hv v hd] at h
    · exact .word ha hm (not_exists.1 hn)

end Operand

namespace Macros

variable {m : Macros} {tok : Token}

theorem lowers_iff_renders {u : Text} : m.Lowers tok u ↔ m.Renders tok u := by
  rw [Lowers, Operand.lower_eq_ok_iff, resolveOperand]
  cases hd : tok.dropFront? [Byte.ampersand] with
  | some name =>
    obtain rfl := Text.dropFront?_eq_some_iff.1 hd
    constructor
    · intro h
      rw [← Operand.lower_eq_ok_iff, lower_ampersand] at h
      cases h
      exact .address name
    · intro h
      cases h with
      | address => exact .memory _
      | value ha => exact absurd rfl ha
  | none =>
    have ha := dropFront?_ampersand_eq_none_iff.1 hd
    refine ⟨.value ha, fun h => ?_⟩
    cases h with
    | address name => exact absurd rfl ha
    | value _ h => exact h

/-- The value of a token is its target form if the token is no address and its value is settled,
    or if it is an address that has been given its own memory for a value. -/
theorem renders_resolve_iff : m.Renders tok (m.resolve tok) ↔
    (∃ name, tok = Byte.ampersand :: name ∧ m.resolve tok = memory (m.resolve name)) ∨
      tok.head? ≠ some Byte.ampersand ∧ Operand.Renders (m.resolve tok) (m.resolve tok) := by
  constructor
  · intro h
    generalize hu : m.resolve tok = u at h
    cases h with
    | address name => exact .inl ⟨name, rfl, rfl⟩
    | value ha h =>
      subst hu
      exact .inr ⟨ha, h⟩
  · rintro (⟨name, rfl, hname⟩ | ⟨ha, h⟩)
    · rw [hname]
      exact .address name
    · exact .value ha h

end Macros

/-! ## Moves -/

namespace Lowering

open Statement (read)

/-- **A move writes its source in the target form, and the value of its destination as it is.**
    It takes its three operands, whatever stands behind them.  If the source has no target form,
    the move fails and writes nothing.  The value of the destination is the target form too only
    if the destination is no address and its value neither an address nor a number in another
    spelling than base ten, or if the address itself is a name for its memory. -/
theorem run_move (opts : Options) (s : State) (dest src : Token) (rest : List Token) :
    read s.macros Form.moveWord (dest :: Token.arrow :: src :: rest) =
      (.ok (.move dest src.dropTerminator), rest) ∧
    (∀ op, s.macros.Renders src.dropTerminator op →
      run opts (Form.moveWord :: dest :: Token.arrow :: src :: rest) s = run opts rest
        (s.line (utf8 "mov " ++ s.macros.resolve dest ++ utf8 ", " ++ op))) ∧
    ((¬ ∃ op, s.macros.Renders src.dropTerminator op) → ∃ f,
      run opts (Form.moveWord :: dest :: Token.arrow :: src :: rest) s =
        ⟨rest, s, some ⟨[.moveTo dest], .badLiteral f⟩⟩) ∧
    (s.macros.Renders dest (s.macros.resolve dest) ↔
      (∃ name, dest = Byte.ampersand :: name ∧
        s.macros.resolve dest = memory (s.macros.resolve name)) ∨
      dest.head? ≠ some Byte.ampersand ∧
        (s.macros.resolve dest).head? ≠ some Byte.ampersand ∧
        (∀ r : Radix, ¬ r.mark <+: s.macros.resolve dest) ∧
        ∀ v, Literal.Denotes (s.macros.resolve dest) v →
          s.macros.resolve dest = Numeral.ofInt v.toInt) := by
  have hread : read s.macros Form.moveWord (dest :: Token.arrow :: src :: rest) =
      (.ok (.move dest src.dropTerminator), rest) := rfl
  refine ⟨hread, fun op hop => run_cons_done hread ?_, fun hno => ?_, ?_⟩
  · have hlower : Operand.lower _ = _ := Macros.lowers_iff_renders.2 hop
    simp only [Statement.execute, hlower]
    rfl
  · cases hlower : Operand.lower (s.macros.resolveOperand src.dropTerminator) with
    | ok op => exact absurd ⟨op, Macros.lowers_iff_renders.1 hlower⟩ hno
    | error f =>
      refine ⟨f, run_cons_fail hread ?_⟩
      simp only [Statement.execute, hlower]
      rfl
  · rw [Macros.renders_resolve_iff, Operand.renders_self_iff]

/-- **A move does not write every destination in its target form:** an address is looked up with its
    `&` and stays as it is. -/
theorem move_keeps_address :
    ¬ ∀ (opts : Options) (s : State) (dest src : Token) (rest : List Token) (d op : Text),
      s.macros.Renders dest d → s.macros.Renders src.dropTerminator op →
      run opts (Form.moveWord :: dest :: Token.arrow :: src :: rest) s =
        run opts rest (s.line (utf8 "mov " ++ d ++ utf8 ", " ++ op)) := by
  intro h
  let m := Macros.empty.define (utf8 "X") (utf8 "y")
  have hdest : m.Renders (utf8 "&X") (utf8 "[y]") := .address (utf8 "X")
  have hsrc : m.Renders (utf8 "5;").dropTerminator (utf8 "5") :=
    Macros.lowers_iff_renders.1 (by unfold Macros.Lowers; decide +kernel)
  have hrun := h {} ⟨m, []⟩ _ _ [] _ _ hdest hsrc
  have hout := congrArg (fun e : Ending => e.state.out) hrun
  revert hout
  decide +kernel

end Lowering

end BlockAsm
