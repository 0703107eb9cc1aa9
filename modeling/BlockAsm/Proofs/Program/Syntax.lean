/-
  BlockAsm: programs as trees.

  * `Word`, `Number`, `Atom`: names, and what stands for an operand;
  * `Stmt`, `Program`: statements with their blocks as trees;
  * `Program.Written`: the tokens that a program can be written with.  A terminator may
    stand behind a statement or not, except that an instruction always ends in one.
-/
import BlockAsm.Literal
import BlockAsm.Proofs.Tokens
import BlockAsm.Statement.Form

namespace BlockAsm

namespace Program

/-! ## Words, numbers and addresses -/

/-- The words that have a meaning of their own. -/
def reserved : List Token := Token.arrow :: Form.equWord :: Form.directives.map (·.1)

/-- The bytes that open or close a call or a string, and the terminator. -/
def marks : Text := utf8 "();'\""

/-- A text that can only be read as a word of the target. -/
structure IsBare (t : Text) : Prop where
  ne_nil : t ≠ []
  solid : t.IsSolid
  unmarked : ∀ b ∈ t, b ∉ marks
  notComment : Form.commentOpen.isPrefixOf t = false
  notReserved : t ∉ reserved

instance (t : Text) : Decidable (IsBare t) :=
  decidable_of_iff ((!t.isEmpty && decide t.IsSolid && t.all (fun b => !marks.contains b) &&
      !Form.commentOpen.isPrefixOf t && !reserved.contains t) = true) <| by
    simp only [Bool.and_eq_true, Bool.not_eq_true', List.all_eq_true, decide_eq_true_eq,
      List.isEmpty_eq_false_iff, List.contains_eq_mem, decide_eq_false_iff_not]
    exact ⟨fun ⟨⟨⟨⟨h1, h2⟩, h3⟩, h4⟩, h5⟩ => ⟨h1, h2, h3, h4, h5⟩,
      fun ⟨h1, h2, h3, h4, h5⟩ => ⟨⟨⟨⟨h1, h2⟩, h3⟩, h4⟩, h5⟩⟩

/-- A bare text that is neither an address nor shaped like a number. -/
structure IsPlain (t : Text) : Prop extends IsBare t where
  noAmpersand : Byte.ampersand ∉ t
  notNumeric : Literal.isNumeric t = false

instance (t : Text) : Decidable (IsPlain t) :=
  decidable_of_iff (IsBare t ∧ Byte.ampersand ∉ t ∧ Literal.isNumeric t = false)
    ⟨fun ⟨h1, h2, h3⟩ => ⟨h1, h2, h3⟩, fun ⟨h1, h2, h3⟩ => ⟨h1, h2, h3⟩⟩

/-- A name or any other word that stands for itself. -/
@[ext]
structure Word where
  text : Text
  plain : IsPlain text
  deriving DecidableEq

/-- A number in one of its spellings. -/
structure Number where
  text : Text
  value : Int64
  spells : Literal.value text = .ok value

/-- What stands for an operand. -/
inductive Atom where
  /-- a word, which a macro may replace -/
  | word (w : Word)
  /-- a number -/
  | number (n : Number)
  /-- the memory at a word, which a macro may replace -/
  | address (w : Word)

/-- The spelling of an atom. -/
def Atom.text : Atom → Text
  | word w => w.text
  | number n => n.text
  | address w => Byte.ampersand :: w.text

/-- An atom that can stand between the commas of a call. -/
structure Argument where
  atom : Atom
  noComma : Byte.comma ∉ atom.text

/-- A word that can be called. -/
structure Callee where
  word : Word
  identifier : word.text.isIdentifier = true

/-- A statement that is one directive and nothing else. -/
inductive Directive where
  /-- set up a stack frame -/
  | prologue
  /-- take a stack frame down -/
  | epilogue
  /-- return from a call -/
  | ret

/-- The spelling of a directive. -/
def Directive.word : Directive → Token
  | prologue => utf8 "$pstk"
  | epilogue => utf8 "$fstk"
  | ret => utf8 "$return"

end Program

open Program

/-! ## Statements -/

/-- A statement with its block, if it has one. -/
inductive Stmt where
  /-- from here on `name` stands for `value` -/
  | define (name : Word) (value : Atom)
  /-- from here on `name` stands for itself -/
  | undefine (name : Word)
  /-- export a symbol -/
  | global (name : Word)
  /-- a section of the given kind -/
  | sectionOf (kind : Word) (body : List Stmt)
  /-- a named block -/
  | label (name : Word) (body : List Stmt)
  /-- a named constant -/
  | constant (name : Word) (words : List Atom)
  /-- move `src` to `dest` -/
  | move (dest : Word) (src : Atom)
  /-- call a function with arguments -/
  | call (callee : Callee) (args : List Argument)
  /-- a directive without operands -/
  | directive (d : Directive)
  /-- an instruction of the target -/
  | instr (first : Atom) (others : List Atom)

/-- A program is a list of statements. -/
abbrev Program := List Stmt

namespace Program

/-! ## Spellings -/

/-- The token is the text, with a terminator behind it or not. -/
def Ended (t : Text) (tok : Token) : Prop := tok = t ∨ tok = t ++ [Byte.semicolon]

/-- The atoms with a terminator behind the last one. -/
def terminated : List Atom → List Token
  | [] => [[Byte.semicolon]]
  | [a] => [a.text ++ [Byte.semicolon]]
  | a :: b :: rest => a.text :: terminated (b :: rest)

/-- The tokens of a list of arguments behind `front`: each comma ends a token, and `close`
    stands behind the last argument. -/
def callTokens (close : Text) (front : Text) : List Text → List Token
  | [] => [front ++ close]
  | [a] => [front ++ a ++ close]
  | a :: b :: rest => (front ++ a ++ [Byte.comma]) :: callTokens close [] (b :: rest)

/-- The texts of the arguments of a call. -/
def argTexts (args : List Argument) : List Text := args.map (·.atom.text)

/-- The tokens that a program can be written with. -/
inductive Written : Program → List Token → Prop
  | nil : Written [] []
  | define {name value tok p toks} : Ended value.text tok → Written p toks →
      Written (.define name value :: p) (utf8 "$define" :: name.text :: tok :: toks)
  | undefine {name tok p toks} : Ended name.text tok → Written p toks →
      Written (.undefine name :: p) (utf8 "$undef" :: tok :: toks)
  | global {name tok p toks} : Ended name.text tok → Written p toks →
      Written (.global name :: p) (utf8 "$global" :: tok :: toks)
  | sectionOf {kind body inner p toks} : Written body inner → Written p toks →
      Written (.sectionOf kind body :: p)
        (Form.sectionWord :: kind.text :: (Token.lbrace :: inner ++ Token.rbrace :: toks))
  | label {name body inner p toks} : Written body inner → Written p toks →
      Written (.label name body :: p)
        (Form.labelWord :: name.text :: (Token.lbrace :: inner ++ Token.rbrace :: toks))
  | constant {name words p toks} : Written p toks →
      Written (.constant name words :: p) (Form.labelWord :: name.text ::
        (Token.lbrace :: (Form.equWord :: terminated words) ++ Token.rbrace :: toks))
  | move {dest src tok p toks} : Ended src.text tok → Written p toks →
      Written (.move dest src :: p)
        (Form.moveWord :: dest.text :: Token.arrow :: tok :: toks)
  | call {callee args close p toks} : Ended [Byte.rparen] close → Written p toks →
      Written (.call callee args :: p)
        (callTokens close (callee.word.text ++ [Byte.lparen]) (argTexts args) ++ toks)
  | directive {d tok p toks} : Ended (Directive.word d) tok → Written p toks →
      Written (.directive d :: p) (tok :: toks)
  | instr {first others p toks} : Written p toks →
      Written (.instr first others :: p) (terminated (first :: others) ++ toks)

/-- Every program can be written. -/
theorem exists_written : ∀ p : Program, ∃ toks, Written p toks
  | [] => ⟨_, .nil⟩
  | s :: p => by
    obtain ⟨toks, h⟩ := exists_written p
    cases s with
    | define name value => exact ⟨_, .define (.inl rfl) h⟩
    | undefine name => exact ⟨_, .undefine (.inl rfl) h⟩
    | global name => exact ⟨_, .global (.inl rfl) h⟩
    | sectionOf kind body =>
      obtain ⟨inner, hb⟩ := exists_written body
      exact ⟨_, .sectionOf hb h⟩
    | label name body =>
      obtain ⟨inner, hb⟩ := exists_written body
      exact ⟨_, .label hb h⟩
    | constant name words => exact ⟨_, .constant h⟩
    | move dest src => exact ⟨_, .move (.inl rfl) h⟩
    | call callee args => exact ⟨_, .call (.inl rfl) h⟩
    | directive d => exact ⟨_, .directive (.inl rfl) h⟩
    | instr first others => exact ⟨_, .instr h⟩

end Program

end BlockAsm
