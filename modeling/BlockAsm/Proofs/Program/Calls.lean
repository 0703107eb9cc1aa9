/-
  BlockAsm: reading the calls of programs.

  * `Calls`: the tokens of a call, wherever there are blanks between its parentheses;
  * `Calls.exists_cons_read`: put together again, they are its name and its arguments with commas
    between them, from which the name and the arguments are cut out;
  * `calls_callTokens`: the layout in which each comma ends a token is one of them.
-/
import BlockAsm.Proofs.Calls
import BlockAsm.Proofs.Program.Words

namespace BlockAsm.Program

/-! ## The tokens of a call -/

section
variable (close : Text)

theorem unwords_callTokens : ∀ (front : Text) (args : List Text),
    Token.unwords (callTokens close front args) = front ++ Text.join (utf8 ", ") args ++ close
  | front, [] => by simp [callTokens, Token.unwords, Text.join]
  | front, [a] => by simp [callTokens, Token.unwords, Text.join]
  | front, a :: b :: args => by
    have ih := unwords_callTokens [] (b :: args)
    have hne : callTokens close [] (b :: args) ≠ [] := by cases args <;> simp [callTokens]
    obtain ⟨tok, toks, hc⟩ := List.exists_cons_of_ne_nil hne
    rw [hc] at ih
    rw [callTokens, hc]
    simp only [Token.unwords, Text.join] at ih ⊢
    rw [ih]
    simp [show utf8 ", " = [Byte.comma, Byte.space] from rfl]

variable {close}

theorem solid_of_mem_callTokens (hn : close ≠ [])
    (hc : ∀ a : Text, a.IsSolid → (a ++ close).IsSolid) :
    ∀ (front : Text) (args : List Text), (∀ a : Text, a.IsSolid → (front ++ a).IsSolid) →
      (∀ a ∈ args, a.IsSolid) → ∀ tok ∈ callTokens close front args, tok ≠ [] ∧ tok.IsSolid
  | front, [], hf, _ => by
    intro tok ht
    rw [List.mem_singleton.1 ht]
    exact ⟨by simp [hn], hf _ (hc [] .nil)⟩
  | front, [a], hf, ha => by
    intro tok ht
    rw [List.mem_singleton.1 ht, List.append_assoc]
    exact ⟨by simp [hn], hf _ (hc a (ha a (by simp)))⟩
  | front, a :: b :: args, hf, ha => by
    intro tok ht
    rcases List.mem_cons.1 ht with rfl | ht
    · rw [List.append_assoc]
      exact ⟨by simp, hf _ ((ha a (by simp)).append_cons .nil (by decide))⟩
    · exact solid_of_mem_callTokens hn hc [] (b :: args) (fun _ h => h)
        (fun x hx => ha x (by simp [hx])) tok ht

end

/-! ## Reading a call -/

/-- The tokens of a call, wherever there are blanks between its parentheses: what stands there,
    cut at its commas, is the arguments with blanks around them. -/
structure Calls (f : Callee) (args : List Argument) (toks : List Token) : Prop where
  solid : ∀ tok ∈ toks, tok ≠ [] ∧ tok.IsSolid
  spells : ∃ inside close, Ended [Byte.rparen] close ∧ Byte.rparen ∉ inside ∧
    Token.unwords toks = f.word.text ++ [Byte.lparen] ++ inside ++ close ∧
    ((inside.split Byte.comma).map Text.trim).filter (· ≠ []) = argTexts args

namespace Calls

variable {f : Callee} {args : List Argument} {line : List Token} (h : Calls f args line)
include h

/-- The first token of a call has its name and the opening parenthesis, and the reader takes the
    tokens as that call. -/
theorem exists_cons_read : ∃ behind left, line = (f.word.text ++ [Byte.lparen] ++ behind) :: left ∧
    ∀ m rest, Statement.read m (f.word.text ++ [Byte.lparen] ++ behind) (left ++ rest) =
      (.ok (.call f.word.text (argTexts args)), rest) := by
  obtain ⟨inside, close, hc, hi, hu, hargs⟩ := h.spells
  rw [← hargs]
  exact Statement.read_call f.identifier hc hi hu

theorem exists_cons : ∃ behind left, line = (f.word.text ++ [Byte.lparen] ++ behind) :: left := by
  obtain ⟨behind, left, hline, -⟩ := h.exists_cons_read
  exact ⟨behind, left, hline⟩

theorem read (rest : List Token) : ∃ tok left, line = tok :: left ∧
    ∀ m, Statement.read m tok (left ++ rest) =
      (.ok (.call f.word.text (argTexts args)), rest) := by
  obtain ⟨behind, left, hline, hread⟩ := h.exists_cons_read
  exact ⟨_, left, hline, fun m => hread m rest⟩

end Calls

theorem isArgument_of_mem_argTexts {args : List Argument} {a : Text} (ha : a ∈ argTexts args) :
    Call.IsArgument a := by
  obtain ⟨x, -, rfl⟩ := List.mem_map.1 ha
  have hbare := x.atom.bare
  exact ⟨hbare.ne_nil, hbare.solid, x.noComma, hbare.not_mem (by decide)⟩

/-- In one layout of a call each comma ends a token. -/
theorem calls_callTokens {close : Text} (hc : Ended [Byte.rparen] close) (f : Callee)
    (args : List Argument) :
    Calls f args (callTokens close (f.word.text ++ [Byte.lparen]) (argTexts args)) := by
  have hargs := @isArgument_of_mem_argTexts args
  have hspaced := Call.spaced_join (argTexts args)
  refine ⟨?_, _, close, hc, ?_, unwords_callTokens close _ _, hspaced.cut fun a => hargs⟩
  · have hne : close ≠ [] := by rcases hc with rfl | rfl <;> simp
    refine solid_of_mem_callTokens hne (fun a ha => Call.append_close hc ha) _ _ (fun a ha => ?_)
      fun a ha => (hargs ha).solid
    rw [List.append_assoc]
    exact f.word.plain.solid.append_cons ha (by decide)
  · exact hspaced.not_mem (by decide) (by decide) (by decide) fun a ha => (hargs ha).noParen

end BlockAsm.Program
