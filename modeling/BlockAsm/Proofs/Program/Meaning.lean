/-
  BlockAsm: what programs stand for.

  The meaning of a program is a list of target lines.  It is given by recursion on the
  tree, with the macros defined so far as an environment, and knows nothing of
  tokens, of braces or of lines that are still open.

  * `Atom.target`: the target form of an operand;
  * `Stmt.lines`, `Program.lines`: the lines of a statement and of a program;
  * `Program.target`: the target text of a whole program.
-/
import BlockAsm.Lowering.Execution
import BlockAsm.Proofs.Lines
import BlockAsm.Proofs.Program.Syntax

namespace BlockAsm

namespace Program

/-! ## Environments -/

/-- What the words stand for: a word without a value stands for itself. -/
def Env := Word → Option Atom

namespace Env

/-- Every word stands for itself. -/
def empty : Env := fun _ => none

/-- The environment in which `name` has the given value, or none. -/
def set (e : Env) (name : Word) (value : Option Atom) : Env :=
  fun w => if w = name then value else e w

/-- What a word stands for. -/
def value (e : Env) (w : Word) : Atom := (e w).getD (.word w)

/-- The environment in which a block starts. -/
def child (opts : Options) (e : Env) : Env := if opts.inherit then e else empty

end Env

/-! ## Operands and directives -/

/-- The number in base ten. -/
def Number.decimal (n : Number) : Text := Numeral.ofInt n.value.toInt

/-- The memory operand of the given text. -/
def memory (t : Text) : Text := utf8 "[" ++ t ++ utf8 "]"

/-- The target form of an atom that stands for itself. -/
def Atom.direct : Atom → Text
  | word w => w.text
  | number n => n.decimal
  | address w => memory w.text

/-- The target form of an atom.  Words are replaced once; what replaces the word
    of an address is not looked at. -/
def Atom.target (e : Env) : Atom → Text
  | word w => (e.value w).direct
  | number n => n.decimal
  | address w => memory (e.value w).text

/-- The target lines of a directive. -/
def Directive.lines : Directive → List Text
  | prologue => [utf8 "push rbp", utf8 "mov rbp, rsp"]
  | epilogue => [utf8 "mov rsp, rbp", utf8 "pop rbp"]
  | ret => [utf8 "ret"]

end Program

open Program

/-! ## Statements -/

/-- The environment behind a statement. -/
def Stmt.env (e : Env) : Stmt → Env
  | define name value => e.set name (some value)
  | undefine name => e.set name none
  | _ => e

/-- What becomes of a line of a block: it stands behind the indentation.  An indentation
    that has line ends or braces of its own is tidied together with the line. -/
def Program.indented (indentation l : Text) : List Text :=
  if Layout.Inert indentation then [indentation ++ l]
  else Layout.lines (Layout.tidy (Layout.indentLine indentation l))

mutual

/-- The target lines of a statement. -/
def Stmt.lines (opts : Options) (e : Env) : Stmt → List Text
  | define _ _ | undefine _ => []
  | global name => [utf8 "global " ++ name.text]
  | sectionOf kind body =>
    (utf8 "section ." ++ kind.text.toLower) ::
      (Stmt.linesAll opts (e.child opts) body).flatMap (indented opts.indentation)
  | label name body =>
    (name.text ++ utf8 ":") ::
      (Stmt.linesAll opts (e.child opts) body).flatMap (indented opts.indentation)
  | constant name words =>
    [Token.unwords (name.text :: Form.equWord :: words.map (Atom.target (e.child opts)))]
  | move dest src => [utf8 "mov " ++ (e.value dest).text ++ utf8 ", " ++ src.target e]
  | call callee args =>
    (args.reverse.map fun a => utf8 "push " ++ a.atom.target e) ++
      [utf8 "call " ++ (e.value callee.word).text]
  | directive d => d.lines
  | instr first others => [Token.unwords ((first :: others).map (Atom.target e))]

/-- The target lines of statements that follow each other. -/
def Stmt.linesAll (opts : Options) (e : Env) : List Stmt → List Text
  | [] => []
  | s :: p => s.lines opts e ++ linesAll opts (s.env e) p

end

namespace Program

/-- The environment behind a program. -/
def env (e : Env) (p : Program) : Env := p.foldl Stmt.env e

/-- The target lines of a program. -/
def lines (opts : Options) (e : Env) (p : Program) : List Text := Stmt.linesAll opts e p

/-- The target text of a whole program. -/
def target (opts : Options) (p : Program) : Text := Layout.finished (p.lines opts .empty)

@[simp]
theorem lines_nil (opts : Options) (e : Env) : lines opts e [] = [] := by
  rw [lines, Stmt.linesAll]

theorem lines_cons (opts : Options) (e : Env) (s : Stmt) (p : Program) :
    lines opts e (s :: p) = s.lines opts e ++ lines opts (s.env e) p := by
  rw [lines, Stmt.linesAll]; rfl

end Program

end BlockAsm
