/-
  BlockAsm: the command line.

  The first operand names a command; the flags and operands around it are the
  command's own.  Which argument is the first operand is settled before any flag
  is known: a flag without an equals sign is taken to have the next argument as
  its value, except at the end.  A name that is close to that of a command is
  answered with suggestions.
-/
import BlockAsm.Command.Flag
import BlockAsm.Listing
import BlockAsm.Text.EditDistance
import BlockAsm.Text.LowerCase
import BlockAsm.Lowering.Execution

namespace BlockAsm

/-- The name of the program. -/
def programName : Text := utf8 "hasm"

/-- The words for refused arguments. -/
def UsageError.message : UsageError → Text
  | badSyntax arg => utf8 "bad flag syntax: " ++ arg
  | unknownFlag name => utf8 "unknown flag: --" ++ name
  | unknownLetter letter cluster =>
    utf8 "unknown shorthand flag: " ++ quotedChar (Char.ofNat letter.toNat) ++ utf8 " in -" ++
      cluster
  | missingValue arg => utf8 "flag needs an argument: " ++ arg
  | missingLetterValue letter cluster =>
    utf8 "flag needs an argument: " ++ quotedChar (Char.ofNat letter.toNat) ++ utf8 " in -" ++
      cluster
  | badValue value flag cause =>
    utf8 "invalid argument " ++ value.quoted ++ utf8 " for " ++ flag.quoted ++ utf8 " flag: " ++
      cause.message
  | operandCount received =>
    utf8 "accepts 1 arg(s), received " ++ Numeral.ofNat received
  | unknownCommand name suggestions =>
    utf8 "unknown command " ++ name.quoted ++ utf8 " for " ++ programName.quoted ++
      if suggestions = [] then []
      else
        utf8 "\n\nDid you mean this?\n" ++
          suggestions.flatMap fun s => utf8 "\t" ++ s ++ utf8 "\n"

/-- A line that follows the message of refused arguments. -/
def UsageError.hint : UsageError → Text
  | unknownCommand _ _ => utf8 "Run '" ++ programName ++ utf8 " --help' for usage.\n"
  | _ => []

/-- The commands of the program. -/
inductive Command where
  | translate
  | tokens
  | help
  | completion
  deriving DecidableEq, Repr

namespace Command

/-- The name of a command. -/
def name : Command → Text
  | translate => utf8 "translate"
  | tokens => utf8 "tokens"
  | help => utf8 "help"
  | completion => utf8 "completion"

/-- The command of a name. -/
def ofName? (t : Text) : Option Command :=
  [translate, tokens, help, completion].find? (·.name = t)

/-- Whether a command is suggested in place of an unknown one: at most two edits
    away, or with the unknown name at its front, whatever the case. -/
def resembles (c : Command) (typed : Text) : Bool :=
  EditDistance.distance typed.toLower c.name ≤ 2 || typed.toLower.isPrefixOf c.name

/-- The names suggested in place of an unknown one. -/
def suggestions (typed : Text) : List Text :=
  ([translate, tokens, completion].filter (·.resembles typed)).map name

/-- Whether an argument is taken to have the next one as its value. -/
def takesNext (arg : Text) : Bool :=
  Byte.equals ∉ arg &&
    ((utf8 "--").isPrefixOf arg || ([Byte.dash].isPrefixOf arg && arg.length == 2))

/-- Whether an argument is an operand wherever it stands. -/
def isOperand (arg : Text) : Bool := arg ≠ [] && arg.head? ≠ some Byte.dash

/-- The operands among the arguments, before any flag is known. -/
def operands : List Text → List Text
  | [] => []
  | arg :: rest =>
    if arg = Flag.terminator then []
    else if takesNext arg then
      match rest with
      | [] | [_] => []
      | _ :: next :: rest => operands (next :: rest)
    else if isOperand arg then arg :: operands rest
    else operands rest

/-- The arguments without the first operand that is `name`. -/
def withoutOperand (name : Text) : List Text → List Text
  | [] => []
  | arg :: rest =>
    if arg = Flag.terminator then arg :: rest
    else if takesNext arg then
      match rest with
      | [] => [arg]
      | value :: rest => arg :: value :: withoutOperand name rest
    else if isOperand arg ∧ arg = name then rest
    else arg :: withoutOperand name rest

end Command

/-- The settings of the program itself. -/
structure ProgramSettings where
  help : Bool := false
  version : Bool := false

/-- The settings of the command `translate`. -/
structure TranslateSettings where
  help : Bool := false
  output : Text := []
  indent : Int := 0
  inherit : Bool := false
  strict : Bool := false
  deriving DecidableEq

/-- The settings of the command `tokens`. -/
structure TokensSettings where
  help : Bool := false
  noColour : Bool := false
  macros : Bool := false
  deriving DecidableEq

/-- The switch that asks for help. -/
def Flag.help {σ : Type} (set : Bool → σ → σ) : Flag σ :=
  { Flag.switch (utf8 "help") set with letter? := some 0x68 }

/-- The flags of the program itself. -/
def ProgramSettings.flags : List (Flag ProgramSettings) :=
  [ .help fun b s => { s with help := b },
    .switch (utf8 "version") fun b s => { s with version := b } ]

/-- The flags of the command `translate`. -/
def TranslateSettings.flags : List (Flag TranslateSettings) :=
  [ .help fun b s => { s with help := b },
    { name := utf8 "output", letter? := some 0x6F, isSwitch := false,
      set := fun value s => .ok { s with output := value } },
    { name := utf8 "indent", isSwitch := false,
      set := fun value s => (Value.readNumber value).map fun n => { s with indent := n } },
    .switch (utf8 "inherit-macros") fun b s => { s with inherit := b },
    .switch (utf8 "strict") fun b s => { s with strict := b } ]

/-- The flags of the command `tokens`. -/
def TokensSettings.flags : List (Flag TokensSettings) :=
  [ .help fun b s => { s with help := b },
    .switch (utf8 "no-color") fun b s => { s with noColour := b },
    .switch (utf8 "macros") fun b s => { s with macros := b } ]

/-- What the program is asked to do. -/
inductive Invocation where
  | help
  | version
  | translate (settings : TranslateSettings) (path : Text)
  | tokens (settings : TokensSettings) (path : Text)
  deriving DecidableEq

namespace Invocation

/-- The one operand that a command takes. -/
def operand : List Text → Except UsageError Text
  | [path] => .ok path
  | paths => .error (.operandCount paths.length)

/-- Read the arguments of a command. -/
def ofCommand (args : List Text) : Command → Except UsageError Invocation
  | .translate => do
    let (settings, paths) ← Flag.parse TranslateSettings.flags {} args
    if settings.help then .ok .help else (operand paths).map (.translate settings)
  | .tokens => do
    let (settings, paths) ← Flag.parse TokensSettings.flags {} args
    if settings.help then .ok .help else (operand paths).map (.tokens settings)
  | .help | .completion => .ok .help

/-- Read arguments that name no command. -/
def ofFlags (args : List Text) : Except UsageError Invocation := do
  let (settings, _) ← Flag.parse ProgramSettings.flags {} args
  if settings.help then .ok .help
  else if settings.version then .ok .version
  else .ok .help

/-- Read the arguments of the program. -/
def parse (args : List Text) : Except UsageError Invocation :=
  match Command.operands args with
  | [] => ofFlags args
  | name :: _ =>
    match Command.ofName? name with
    | some c => ofCommand (Command.withoutOperand name args) c
    | none => .error (.unknownCommand name (Command.suggestions name))

end Invocation

end BlockAsm
