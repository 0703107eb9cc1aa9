/-
  BlockAsm: running the program.

  An invocation is planned before anything is read: it prints, aborts, or reads
  one source and makes a product of it.  A product is what is printed at once, a
  target text, or a failure.  Nothing is written unless the whole source was
  lowered.

  `Host.run` carries the plan out on a host; its outcome has the exit code, what
  appears on the standard streams, and the files.
-/
import BlockAsm.Command.Invocation
import BlockAsm.Host
import BlockAsm.Session

namespace BlockAsm

/-- Why a run of the program failed. -/
inductive Failure where
  | usage (cause : UsageError)
  | source (cause : SourceError)
  | program (cause : FileError)
  | listing (cause : Error)
  | target (cause : TargetError)

/-- What the program prints about a failure. -/
def Failure.report (f : Failure) : Text :=
  let (message, hint) := match f with
    | usage cause => (cause.message, cause.hint)
    | source cause => (cause.message, [])
    | program cause => (cause.message, [])
    | listing cause => (cause.message, [])
    | target cause => (cause.message, [])
  utf8 "Error: " ++ message ++ utf8 "\n" ++ hint

/-- What is made of a source. -/
inductive Product where
  /-- print this and succeed -/
  | printed (out : Text)
  /-- write the text to the target at a path -/
  | target (given text : Text)
  /-- print this and fail -/
  | failed (out : Text) (cause : Failure)

/-- What an invocation does. -/
inductive Plan where
  | finish (product : Product)
  /-- end at once, without an exit code of the program's own -/
  | abort (words : Text)
  /-- read the source at a path and go on with its text -/
  | withSource (given : Text) (next : Text → Product)

namespace Plan

/-- The version of the program. -/
def versionText : Text := programName ++ utf8 " version 0.3.0\n"

/-- How the program is used. -/
def usageText : Text :=
  utf8 "Translate block-structured assembly programs into flat assembly text.\n\n" ++
  utf8 "Usage:\n" ++
  utf8 "  hasm translate [--output FILE] [--indent N] [--inherit-macros] [--strict] SOURCE\n" ++
  utf8 "  hasm tokens [--no-color] [--macros] SOURCE\n" ++
  utf8 "  hasm --version\n"

/-- Lower a source and hand the text to the target. -/
def targetProduct (settings : TranslateSettings) (given source : Text) : Product :=
  let opts : Options :=
    { inherit := settings.inherit
      strict := settings.strict
      indentation := List.replicate settings.indent.toNat Byte.space }
  match lowerAs opts given source with
  | .ok text => .target settings.output text
  | .error e => .failed [] (.program e)

/-- List the tokens of a source and, on demand, the macros that it leaves defined. -/
def listingProduct (settings : TokensSettings) (source : Text) : Product :=
  let style : Listing.Style := if settings.noColour then .plain else .coloured
  let listing := Listing.tokens style (Form.classify source)
  if settings.macros then
    match (Session.ofSource {} source).resume with
    | (.ok _, s) => .printed (listing ++ Listing.macros style s.macros)
    | (.error e, _) => .failed listing (.listing e)
  else .printed listing

/-- The plan of an invocation.  A negative indentation aborts before the source is read. -/
def ofInvocation : Invocation → Plan
  | .help => .finish (.printed usageText)
  | .version => .finish (.printed versionText)
  | .translate settings given =>
    if settings.indent < 0 then .abort (utf8 "strings: negative Repeat count")
    else .withSource given (targetProduct settings given)
  | .tokens settings given => .withSource given (listingProduct settings)

/-- The plan of the program's arguments. -/
def ofArguments (args : List Text) : Plan :=
  match Invocation.parse args with
  | .ok i => ofInvocation i
  | .error e => .finish (.failed [] (.usage e))

end Plan

/-- How a run of the program ended. -/
inductive Outcome where
  | exit (code : Nat) (out err : Text) (files : FileTree)
  | aborted (words : Text) (files : FileTree)

namespace Outcome

/-- A run that succeeded. -/
def success (out : Text) (files : FileTree) : Outcome := .exit 0 out [] files

/-- A run that failed after printing `out`. -/
def failure (out : Text) (cause : Failure) (files : FileTree) : Outcome :=
  .exit 1 out cause.report files

/-- The files after the run. -/
def files : Outcome → FileTree
  | exit _ _ _ files | aborted _ files => files

end Outcome

namespace Host

/-- Hand out a product. -/
def deliver (h : Host) : Product → Outcome
  | .printed out => .success out h.files
  | .failed out cause => .failure out cause h.files
  | .target given text =>
    match h.writeTarget given text with
    | .ok (out, files) => .success out files
    | .error e => .failure [] (.target e) h.files

/-- Carry a plan out. -/
def carryOut (h : Host) : Plan → Outcome
  | .finish product => h.deliver product
  | .abort words => .aborted words h.files
  | .withSource given next =>
    match h.readSource given with
    | .ok source => h.deliver (next source)
    | .error e => .failure [] (.source e) h.files

/-- Run the program with the given arguments. -/
def run (h : Host) (args : List Text) : Outcome := h.carryOut (Plan.ofArguments args)

end Host

end BlockAsm
