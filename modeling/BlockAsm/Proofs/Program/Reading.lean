/-
  BlockAsm: reading the tokens of programs.

  * `Written.shaped`: the tokens that a program is written with are tokens and balanced;
  * `Represents`: a macro table says what an environment says;
  * `Represents.lower_resolveOperand`: then an operand becomes what it stands for.
-/
import BlockAsm.Proofs.Blocks
import BlockAsm.Proofs.Program.Calls
import BlockAsm.Proofs.Program.Meaning

namespace BlockAsm.Program

/-! ## The shape of written tokens -/

/-- Texts that can be tokens, with balanced braces. -/
structure Shaped (toks : List Token) : Prop where
  tokens : ∀ t ∈ toks, Token.IsToken t
  balanced : Token.Balanced toks

namespace Shaped

theorem nil : Shaped [] := ⟨by simp, .nil⟩

theorem cons {tok : Token} (h : tok ≠ [] ∧ tok.IsSolid) {toks : List Token} (ht : Shaped toks) :
    Shaped (tok :: toks) := by
  refine ⟨?_, .cons ?_ ?_ ht.balanced⟩
  · intro t hm
    rcases List.mem_cons.1 hm with rfl | hm
    · exact Or.inr (Or.inr h)
    · exact ht.tokens t hm
  · rintro rfl; exact h.2.not_mem (by decide) List.mem_cons_self
  · rintro rfl; exact h.2.not_mem (by decide) List.mem_cons_self

theorem append {front toks : List Token} (h : ∀ tok ∈ front, tok ≠ [] ∧ tok.IsSolid)
    (ht : Shaped toks) : Shaped (front ++ toks) := by
  induction front with
  | nil => exact ht
  | cons tok front ih => exact .cons (h tok (by simp)) (ih fun t hm => h t (by simp [hm]))

theorem block {inner toks : List Token} (hi : Shaped inner) (ht : Shaped toks) :
    Shaped (Token.lbrace :: inner ++ Token.rbrace :: toks) := by
  constructor
  · intro t hm
    rcases List.mem_append.1 hm with hm | hm
    · rcases List.mem_cons.1 hm with rfl | hm
      · exact Or.inl rfl
      · exact hi.tokens t hm
    · rcases List.mem_cons.1 hm with rfl | hm
      · exact Or.inr (Or.inl rfl)
      · exact ht.tokens t hm
  · have := hi.balanced.block.append ht.balanced
    simpa using this

end Shaped

theorem solid_of_mem_terminated : ∀ {words : List Atom} {tok : Token}, tok ∈ terminated words →
    tok ≠ [] ∧ tok.IsSolid
  | [], tok, h => by rw [List.mem_singleton.1 h]; decide
  | [a], tok, h => a.bare.ended_solid (Or.inr (List.mem_singleton.1 h))
  | a :: b :: words, tok, h => by
    rcases List.mem_cons.1 h with rfl | h
    · exact ⟨a.bare.ne_nil, a.bare.solid⟩
    · exact solid_of_mem_terminated h

/-- The tokens of a program are tokens, and its braces are balanced. -/
theorem Written.shaped {p : Program} {toks : List Token} (h : Written p toks) : Shaped toks := by
  have hw : ∀ w : Word, w.text ≠ [] ∧ w.text.IsSolid := fun w => ⟨w.plain.ne_nil, w.plain.solid⟩
  induction h with
  | nil => exact .nil
  | @define name value _ _ _ ht _ ih =>
    exact .cons (by decide) (.cons (hw name) (.cons (value.bare.ended_solid ht) ih))
  | @undefine name _ _ _ ht _ ih =>
    exact .cons (by decide) (.cons (name.plain.ended_solid ht) ih)
  | @global name _ _ _ ht _ ih =>
    exact .cons (by decide) (.cons (name.plain.ended_solid ht) ih)
  | @sectionOf kind _ _ _ _ _ _ ihb ih =>
    exact .cons (by decide) (.cons (hw kind) (.block ihb ih))
  | @label name _ _ _ _ _ _ ihb ih =>
    exact .cons (by decide) (.cons (hw name) (.block ihb ih))
  | @constant name words _ _ _ ih =>
    have hi : Shaped (terminated words) := by
      simpa using Shaped.append (fun tok => solid_of_mem_terminated) .nil
    exact .cons (by decide) (.cons (hw name) (.block (.cons (by decide) hi) ih))
  | @move dest src _ _ _ ht _ ih =>
    exact .cons (by decide)
      (.cons (hw dest) (.cons (by decide) (.cons (src.bare.ended_solid ht) ih)))
  | @call callee args _ _ _ hc _ ih => exact .append (calls_callTokens hc callee args).solid ih
  | @directive d _ _ _ ht _ ih =>
    exact .cons (by rcases ht with rfl | rfl <;> cases d <;> decide) ih
  | instr _ ih => exact .append (fun tok => solid_of_mem_terminated) ih

theorem exists_terminated (words : List Atom) :
    ∃ tok toks, terminated words = tok :: toks ∧ tok ∉ reserved := by
  match words with
  | [] => exact ⟨_, [], rfl, by decide⟩
  | [a] => exact ⟨_, [], rfl, a.bare.ended_notReserved (Or.inr rfl)⟩
  | a :: b :: words => exact ⟨_, _, rfl, a.bare.notReserved⟩

theorem head?_terminated_append (words : List Atom) (rest : List Token) :
    (terminated words ++ rest).head? ≠ some Token.arrow := by
  obtain ⟨tok, toks, ht, hn⟩ := exists_terminated words
  rw [ht]
  exact fun he => hn (Option.some.inj he ▸ by decide)

/-- A program starts with neither an arrow nor `equ`. -/
theorem Written.head?_ne {p : Program} {toks : List Token} (h : Written p toks) {r : Token}
    (hr : r = Token.arrow ∨ r = Form.equWord) : toks.head? ≠ some r := by
  have hres : r ∈ reserved := by rcases hr with rfl | rfl <;> decide
  have hne : ∀ {tok : Token} {rest : List Token}, tok ≠ r → (tok :: rest).head? ≠ some r :=
    fun hn he => hn (Option.some.inj he)
  cases h with
  | nil => simp
  | @call f args close _ _ hc =>
    obtain ⟨behind, rest, hcons⟩ := (calls_callTokens hc f args).exists_cons
    have hp : ∀ r ∈ reserved, Byte.lparen ∉ r := by decide
    rw [hcons]
    exact hne fun he => hp r hres (by rw [← he]; simp)
  | @instr a others =>
    obtain ⟨tok, rest, hcons, hn⟩ := exists_terminated (a :: others)
    rw [hcons]
    exact hne fun he => hn (he ▸ hres)
  | @directive d _ _ _ ht =>
    refine hne fun he => ?_
    subst he
    rcases ht with rfl | rfl <;> cases d <;> revert hr <;> decide
  | _ => exact hne (by rcases hr with rfl | rfl <;> decide)

/-! ## Environments and macro tables -/

/-- The table has the values of the environment, and defines nothing but words. -/
structure Represents (m : Macros) (e : Env) : Prop where
  word : ∀ w : Word, m.lookup? w.text = (e w).map Atom.text
  other : ∀ t : Text, ¬ IsPlain t → m.lookup? t = none

namespace Represents

theorem empty : Represents .empty .empty := ⟨fun _ => rfl, fun _ _ => rfl⟩

variable {m : Macros} {e : Env} (h : Represents m e)
include h

theorem define (name : Word) (a : Atom) :
    Represents (m.define name.text a.text) (e.set name (some a)) := by
  constructor
  · intro w
    rw [Macros.lookup?_define, Env.set, h.word]
    by_cases hw : w = name
    · rw [if_pos hw, if_pos (congrArg Word.text hw)]; rfl
    · rw [if_neg hw, if_neg (mt Word.ext hw)]
  · intro t ht
    have hn : t ≠ name.text := by rintro rfl; exact ht name.plain
    rw [Macros.lookup?_define, if_neg hn, h.other t ht]

theorem undefine (name : Word) : Represents (m.undefine name.text) (e.set name none) := by
  constructor
  · intro w
    rw [Macros.lookup?_undefine, Env.set, h.word]
    by_cases hw : w = name
    · rw [if_pos hw, if_pos (congrArg Word.text hw)]; rfl
    · rw [if_neg hw, if_neg (mt Word.ext hw)]
  · intro t ht
    rw [Macros.lookup?_undefine, h.other t ht, ite_self]

theorem child (opts : Options) (out : Text) :
    Represents ((⟨m, out⟩ : State).child opts).macros (e.child opts) := by
  rw [State.child, Env.child]
  split
  · exact h
  · exact empty

theorem resolve (w : Word) : m.resolve w.text = (e.value w).text := by
  rw [Macros.resolve, h.word, Env.value]
  cases e w <;> rfl

theorem resolve_other {t : Text} (ht : ¬ IsPlain t) : m.resolve t = t := by
  rw [Macros.resolve, h.other t ht]; rfl

end Represents

/-! ## Operands -/

theorem dropFront?_ampersand_eq_none_iff {t : Text} :
    t.dropFront? [Byte.ampersand] = none ↔ t.head? ≠ some Byte.ampersand := by
  rw [Text.dropFront?_eq_none_iff, not_iff_not]
  constructor
  · rintro ⟨name, rfl⟩
    rfl
  · intro ha
    obtain ⟨name, rfl⟩ := List.head?_eq_some_iff.1 ha
    exact List.prefix_append [Byte.ampersand] name

theorem dropFront?_ampersand {t : Text} (h : Byte.ampersand ∉ t) :
    t.dropFront? [Byte.ampersand] = none :=
  dropFront?_ampersand_eq_none_iff.2 fun ha => h (List.mem_of_mem_head? ha)

theorem Number.noAmpersand (n : Number) : Byte.ampersand ∉ n.text := fun hm =>
  absurd (n.isPart_text.2 _ hm) (by decide)

theorem Number.lower_text (n : Number) : Operand.lower n.text = .ok n.decimal := by
  rw [Operand.lower, dropFront?_ampersand n.noAmpersand]
  simp only [n.isNumeric, if_true, Literal.normalize, n.spells]
  rfl

theorem dropFront?_cons (t : Text) :
    Text.dropFront? (Byte.ampersand :: t) [Byte.ampersand] = some t :=
  Text.dropFront?_eq_some_iff.2 rfl

theorem lower_ampersand (t : Text) : Operand.lower (Byte.ampersand :: t) = .ok (memory t) := by
  rw [Operand.lower, dropFront?_cons]; rfl

theorem Atom.lower_text : ∀ a : Atom, Operand.lower a.text = .ok a.direct
  | word w => by
    rw [text, Operand.lower, dropFront?_ampersand w.plain.noAmpersand]
    simp only [w.plain.notNumeric, Bool.false_eq_true, if_false]
    rfl
  | number n => n.lower_text
  | address w => lower_ampersand w.text

namespace Represents

variable {m : Macros} {e : Env} (h : Represents m e)
include h

theorem resolveOperand_word (w : Word) : m.resolveOperand w.text = (e.value w).text := by
  rw [Macros.resolveOperand, dropFront?_ampersand w.plain.noAmpersand]
  exact h.resolve w

theorem resolveOperand_number (n : Number) : m.resolveOperand n.text = n.text := by
  rw [Macros.resolveOperand, dropFront?_ampersand n.noAmpersand]
  refine h.resolve_other fun hp => ?_
  have := hp.notNumeric
  rw [n.isNumeric] at this
  cases this

theorem resolveOperand_address (w : Word) :
    m.resolveOperand (Byte.ampersand :: w.text) = Byte.ampersand :: (e.value w).text := by
  rw [Macros.resolveOperand, dropFront?_cons, ← h.resolve w]

/-- **An operand becomes what it stands for.** -/
theorem lower_resolveOperand : ∀ a : Atom,
    Operand.lower (m.resolveOperand a.text) = .ok (a.target e)
  | .word w => by rw [Atom.text, h.resolveOperand_word, Atom.lower_text]; rfl
  | .number n => by rw [Atom.text, h.resolveOperand_number, n.lower_text]; rfl
  | .address w => by rw [Atom.text, h.resolveOperand_address, lower_ampersand]; rfl

/-- What an operand resolves to is never `move` and never a brace. -/
theorem resolveOperand_ne (a : Atom) : m.resolveOperand a.text ≠ Form.moveWord ∧
    m.resolveOperand a.text ≠ Token.lbrace ∧ m.resolveOperand a.text ≠ Token.rbrace := by
  have hbare : ∀ {t : Text}, IsBare t →
      t ≠ Form.moveWord ∧ t ≠ Token.lbrace ∧ t ≠ Token.rbrace := by
    intro t ht
    refine ⟨?_, ?_, ?_⟩
    · rintro rfl; exact ht.notReserved (by decide)
    · rintro rfl; exact absurd ht.solid (by decide)
    · rintro rfl; exact absurd ht.solid (by decide)
  cases a with
  | word w => rw [Atom.text, h.resolveOperand_word]; exact hbare (e.value w).bare
  | number n => rw [Atom.text, h.resolveOperand_number]; exact hbare n.bare
  | address w =>
    rw [Atom.text, h.resolveOperand_address]
    refine ⟨?_, ?_, ?_⟩ <;> exact fun he => absurd (List.cons.inj he).1 (by decide)

end Represents

/-- A generic token that is not replaced by `move` or a brace is read as one word, unless
    an arrow follows. -/
theorem read_word {m : Macros} {tok core : Text} {rest : List Token}
    (hf : Form.ofToken tok = .generic) (hcore : m.resolveOperand tok.dropTerminator = core)
    (hne : core ≠ Form.moveWord ∧ core ≠ Token.lbrace ∧ core ≠ Token.rbrace)
    (hr : rest.head? ≠ some Token.arrow) :
    Statement.read m tok rest = (.ok (.word core tok.isTerminated), rest) := by
  obtain ⟨hm, hl, hb⟩ := hne
  have hword : Statement.ofCore core tok.isTerminated = .word core tok.isTerminated := by
    rw [Statement.ofCore, if_neg (not_or.2 ⟨hl, hb⟩)]
  simp only [Statement.read, hf, Statement.readGeneric, hcore]
  rw [if_neg fun hc => hm hc.1, hword]
  cases rest with
  | nil => rfl
  | cons next rest => exact if_neg fun he => hr (by rw [he]; rfl)

end BlockAsm.Program
