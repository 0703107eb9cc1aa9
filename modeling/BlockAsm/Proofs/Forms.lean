/-
  BlockAsm: the forms of tokens and of statements.

  * `mem_directives_of_ofToken`, `commentOpen_prefix_of_ofToken`, `isCallHead_of_ofToken`: what a
    token of some form looks like;
  * `form_of_read`: a statement has the form that its first token tells, except that a generic
    word may stand for a move;
  * `eq_of_read_define`: which tokens a definition is made of.
-/
import BlockAsm.Proofs.Classification
import BlockAsm.Statement.Reader

namespace BlockAsm

theorem Text.isIdentifierPart_of_mem {t : Text} (h : t.isIdentifier = true) {b : UInt8}
    (hb : b ∈ t) : Byte.isIdentifierPart b = true :=
  Byte.isIdentifierPart_iff.2 ((isIdentifier_iff.1 h).mem b hb)

theorem Text.solid_of_isIdentifier {k : Text} (h : k.isIdentifier = true) :
    k ≠ [] ∧ k.IsSolid ∧ Byte.semicolon ∉ k := by
  have hb : ∀ b : UInt8, Byte.isIdentifierPart b = true → Byte.IsSolid b ∧ b ≠ Byte.semicolon :=
    Byte.forall_of_lt (by decide +kernel)
  have hall : ∀ x ∈ k, Byte.isIdentifierPart x = true := fun x => k.isIdentifierPart_of_mem h
  refine ⟨?_, .of_ascii fun x hx => (hb x (hall x hx)).1, fun hs => (hb _ (hall _ hs)).2 rfl⟩
  rintro rfl
  cases h

/-- A call by its parts, with the first opening parenthesis and the last closing one. -/
theorem Call.parse?_parts {name behind : Text} (hn : Byte.lparen ∉ name) (inside : Text)
    (hb : Byte.rparen ∉ behind) :
    parse? (name ++ Byte.lparen :: (inside ++ Byte.rparen :: behind)) =
      some (name, ((inside.split Byte.comma).map Text.trim).filter (· ≠ [])) := by
  rw [parse?, Text.cutFirst?_append hn]
  simp only [Option.bind_eq_bind, Option.bind_some, Text.cutLast?_append inside hb]

/-! ## Forms of tokens -/

namespace Form

/-- A form that is neither told by a shape nor takes a terminator is that of a directive. -/
theorem mem_directives_of_ofToken {tok : Token} {f : Form} (h : ofToken tok = f)
    (ht : f.takesTerminator = false) (hs : f ∉ [comment, string, call, generic]) :
    (tok, f) ∈ directives := by
  obtain ⟨c, hc⟩ := exists_tells h fun hf => hs (by simp [hf])
  cases hc with
  | directive hd => exact hd
  | terminated hd =>
    have hforms : ∀ p ∈ terminables, p.2.takesTerminator = true := by decide
    rw [hforms _ hd] at ht
    cases ht
  | comment | quote | call => exact absurd (by simp) hs

theorem eq_defineWord_of_ofToken {tok : Token} (h : ofToken tok = .define) :
    tok = utf8 "$define" := by
  have hdir : ∀ p ∈ directives, p.2 = .define → p.1 = utf8 "$define" := by decide
  exact hdir _ (mem_directives_of_ofToken h rfl (by decide)) rfl

theorem eq_sectionWord_of_ofToken {tok : Token} (h : ofToken tok = .sectionBlock) :
    tok = sectionWord := by
  have hdir : ∀ p ∈ directives, p.2 = .sectionBlock → p.1 = sectionWord := by decide
  exact hdir _ (mem_directives_of_ofToken h rfl (by decide)) rfl

theorem eq_labelWord_of_ofToken {tok : Token} (h : ofToken tok = .label) : tok = labelWord := by
  have hdir : ∀ p ∈ directives, p.2 = .label → p.1 = labelWord := by decide
  exact hdir _ (mem_directives_of_ofToken h rfl (by decide)) rfl

theorem commentOpen_prefix_of_ofToken {tok : Token} (h : ofToken tok = .comment) :
    commentOpen <+: tok := by
  obtain ⟨c, hc⟩ := exists_tells h (by decide)
  have hforms := hc.mem_forms
  cases hc with
  | directive | terminated => exact absurd hforms (by decide)
  | comment behind => exact ⟨behind, rfl⟩

theorem ne_nil_of_ofToken {tok : Token} (h : ofToken tok = .string) : tok ≠ [] := by
  rintro rfl
  cases h

theorem isCallHead_of_ofToken {tok : Token} (h : ofToken tok = .call) : tok.isCallHead = true :=
  Text.isCallHead_iff.2 (ofToken_eq_call_iff.1 h)

end Form

/-! ## Forms of statements -/

namespace Statement

/-- The form of a statement. -/
def form : Statement → Form
  | define _ _ => .define
  | undefine _ => .undefine
  | global _ => .global
  | sectionBlock _ _ | sectionHeader _ _ => .sectionBlock
  | label _ _ => .label
  | prologue => .prologue
  | epilogue => .epilogue
  | ret => .ret
  | comment => .comment
  | string _ => .string
  | move _ _ => .move
  | call _ _ => .call
  | destination _ | brace _ | word _ _ => .generic

section
variable {rest left : List Token} {stmt : Statement}

theorem form_of_readMove (h : readMove rest = (.ok stmt, left)) : stmt.form = .move := by
  unfold readMove missingOperand at h
  split at h <;> cases h
  rfl

theorem form_of_readSection {directive : Token}
    (h : readSection directive rest = (.ok stmt, left)) : stmt.form = .sectionBlock := by
  unfold readSection missingOperand at h
  grind [form]

theorem form_of_readLabel {directive : Token} (h : readLabel directive rest = (.ok stmt, left)) :
    stmt.form = .label := by
  unfold readLabel missingOperand at h
  grind [form]

theorem form_of_readComment {tok : Token} (h : readComment tok rest = (.ok stmt, left)) :
    stmt.form = .comment := by
  unfold readComment at h
  grind [form]

theorem form_of_readString {tok : Token} (h : readString tok rest = (.ok stmt, left)) :
    stmt.form = .string := by
  unfold readString at h
  grind [form]

theorem form_of_readCall {tok : Token} (h : readCall tok rest = (.ok stmt, left)) :
    stmt.form = .call := by
  unfold readCall ofCallText at h
  grind [form]

theorem form_ofCore (core : Text) (terminated : Bool) :
    (ofCore core terminated).form = .generic := by
  unfold ofCore; split <;> rfl

theorem form_of_readGeneric {m : Macros} {tok : Token}
    (h : readGeneric m tok rest = (.ok stmt, left)) : stmt.form = .generic ∨ stmt.form = .move := by
  unfold readGeneric at h
  grind [form, form_ofCore, form_of_readMove]

end

/-- A statement has the form that its first token tells; only a generic word may stand for a
    move. -/
theorem form_of_read {m : Macros} {tok : Token} {rest left : List Token} {stmt : Statement}
    (h : read m tok rest = (.ok stmt, left)) :
    stmt.form = Form.ofToken tok ∨ stmt.form = .move ∧ Form.ofToken tok = .generic := by
  unfold read at h
  split at h
  case h_1 hf | h_2 hf | h_3 hf =>
    unfold missingOperand at h
    split at h <;> cases h
    exact Or.inl hf.symm
  case h_4 hf => exact Or.inl ((form_of_readSection h).trans hf.symm)
  case h_5 hf => exact Or.inl ((form_of_readLabel h).trans hf.symm)
  case h_6 hf => exact absurd hf (Form.ofToken_ne_constant tok)
  case h_7 hf | h_8 hf | h_9 hf =>
    cases h
    exact Or.inl hf.symm
  case h_10 hf => exact Or.inl ((form_of_readComment h).trans hf.symm)
  case h_11 hf => exact Or.inl ((form_of_readString h).trans hf.symm)
  case h_12 hf => exact Or.inl ((form_of_readMove h).trans hf.symm)
  case h_13 hf => exact Or.inl ((form_of_readCall h).trans hf.symm)
  case h_14 hf => exact (form_of_readGeneric h).imp (·.trans hf.symm) (⟨·, hf⟩)

theorem read_define (m : Macros) (name value : Token) (rest : List Token) :
    read m (utf8 "$define") (name :: value :: rest) =
      (.ok (.define name value.dropTerminator), rest) := by
  have hf : Form.ofToken (utf8 "$define") = .define := by decide
  simp only [read, hf]

/-- A definition is its directive, its name, and its value with or without a terminator. -/
theorem eq_of_read_define {m : Macros} {tok : Token} {rest left : List Token} {name value : Text}
    (h : read m tok rest = (.ok (.define name value), left)) :
    tok = utf8 "$define" ∧ ∃ v : Token, rest = name :: v :: left ∧ value = v.dropTerminator := by
  have hf : Form.ofToken tok = .define :=
    ((form_of_read h).resolve_right fun hm => nomatch hm.1).symm
  refine ⟨Form.eq_defineWord_of_ofToken hf, ?_⟩
  simp only [read, hf] at h
  split at h
  · cases h
    exact ⟨_, rfl, rfl⟩
  · cases h

end Statement

end BlockAsm
