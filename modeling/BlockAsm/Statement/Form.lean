/-
  BlockAsm: the forms of statements.

  The first token of a statement tells its form: nine words are directives,
  three of them also with a terminator behind, and the other forms are told by
  the first bytes or by a parenthesis behind an identifier.
-/
import BlockAsm.Numeral
import BlockAsm.Token

namespace BlockAsm

/-- The form of a statement. -/
inductive Form where
  /-- a word of the target, passed on -/
  | generic
  /-- `$define NAME VALUE` -/
  | define
  /-- `$undef NAME` -/
  | undefine
  /-- `$section KIND` and a block -/
  | sectionBlock
  /-- `$global NAME` -/
  | global
  /-- `label NAME` and a block -/
  | label
  /-- `label NAME` and a block that starts with `equ` -/
  | constant
  /-- `$pstk` -/
  | prologue
  /-- `$fstk` -/
  | epilogue
  /-- `$return` -/
  | ret
  /-- a comment, from slash and star to star and slash -/
  | comment
  /-- a string between two quotes of one kind -/
  | string
  /-- `move DEST <- SRC` -/
  | move
  /-- `NAME(ARG, …)` -/
  | call
  deriving DecidableEq, Repr

namespace Form

/-- All forms, each at the place of its number. -/
def all : List Form :=
  [generic, define, undefine, sectionBlock, global, label, constant, prologue, epilogue, ret,
    comment, string, move, call]

/-- The number of a form. -/
def number (f : Form) : Nat := all.idxOf f

/-- The name of a form. -/
def name : Form → Text
  | generic => utf8 "Generic"
  | define => utf8 "Define"
  | undefine => utf8 "Undef"
  | sectionBlock => utf8 "Section"
  | global => utf8 "Global"
  | label => utf8 "Label"
  | constant => utf8 "ConstLabel"
  | prologue => utf8 "StackPrologue"
  | epilogue => utf8 "StackEpilogue"
  | ret => utf8 "Return"
  | comment => utf8 "Comment"
  | string => utf8 "StringLiteral"
  | move => utf8 "Move"
  | call => utf8 "Call"

/-- The form of a number. -/
def ofNumber? : Int → Option Form
  | .ofNat n => all[n]?
  | .negSucc _ => none

/-- The name of the form of a number, or the number itself if no form has it. -/
def nameOfNumber (n : Int) : Text :=
  match ofNumber? n with
  | some f => f.name
  | none => utf8 "Kind(" ++ Numeral.ofInt n ++ utf8 ")"

/-- The directive of a section. -/
def sectionWord : Token := utf8 "$section"

/-- The directive of a label. -/
def labelWord : Token := utf8 "label"

/-- The directive of a move. -/
def moveWord : Token := utf8 "move"

/-- The directives and their forms. -/
def directives : List (Token × Form) :=
  [ (utf8 "$define", define), (utf8 "$undef", undefine), (sectionWord, sectionBlock),
    (utf8 "$global", global), (labelWord, label), (utf8 "$pstk", prologue),
    (utf8 "$fstk", epilogue), (utf8 "$return", ret), (moveWord, move) ]

/-- The form of a directive. -/
def ofDirective? (tok : Token) : Option Form := directives.lookup tok

/-- Whether a directive of this form may have a terminator behind it. -/
def takesTerminator : Form → Bool
  | prologue | epilogue | ret => true
  | _ => false

end Form

/-- A letter, an underscore, a point or a dollar sign. -/
def Byte.isIdentifierStart (b : UInt8) : Bool :=
  b == 0x5F || b == 0x2E || b == 0x24 || (0x61 ≤ b && b ≤ 0x7A) || (0x41 ≤ b && b ≤ 0x5A)

/-- A byte of an identifier: one that may start it, or a digit. -/
def Byte.isIdentifierPart (b : UInt8) : Bool :=
  Byte.isIdentifierStart b || (0x30 ≤ b && b ≤ 0x39)

namespace Text

/-- A text of ASCII letters, digits, underscores, points and dollar signs that
    is not empty and does not start with a digit. -/
def isIdentifier : Text → Bool
  | [] => false
  | b :: rest => Byte.isIdentifierStart b && rest.all Byte.isIdentifierPart

/-- An identifier with an opening parenthesis right behind it, and anything after. -/
def isCallHead (t : Text) : Bool :=
  match t.cutFirst? Byte.lparen with
  | some (name, _) => name.isIdentifier
  | none => false

end Text

namespace Form

/-- The mark that opens a comment. -/
def commentOpen : Text := utf8 "/*"

/-- The mark that closes a comment. -/
def commentClose : Text := utf8 "*/"

/-- The form that the first bytes of a token tell. -/
def ofShape (tok : Token) : Form :=
  if commentOpen.isPrefixOf tok then comment
  else if [Byte.singleQuote].isPrefixOf tok || [Byte.doubleQuote].isPrefixOf tok then string
  else if tok.isCallHead then call
  else generic

/-- The form of the statement that a token opens. -/
def ofToken (tok : Token) : Form :=
  match ofDirective? tok with
  | some f => f
  | none =>
    match (ofDirective? tok.dropTerminator).filter takesTerminator with
    | some f => f
    | none => ofShape tok

/-- The token that makes the block of a label a constant. -/
def equWord : Token := utf8 "equ"

/-- The form of a label whose block starts with the given token. -/
def ofLabel (first : Token) : Form := if first = equWord then constant else label

/-- The tokens of a source, each with the form of the statement that it would open. -/
def classify (source : Text) : List (Token × Form) := source.tokens.map fun tok => (tok, ofToken tok)

end Form

end BlockAsm
