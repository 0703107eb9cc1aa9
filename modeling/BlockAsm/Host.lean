/-
  BlockAsm: sources and targets.

  A host is what the program runs on: the files, the working directory and the
  standard streams.  A source path `-` is standard input; a target path that is
  empty or `-` is standard output.  A source is read at its cleaned path and a
  target is written at the path as given.
-/
import BlockAsm.Files.Tree
import BlockAsm.Lowering.Run

namespace BlockAsm

/-- The files, the working directory and the standard streams. -/
structure Host where
  files : FileTree
  directory : Path
  /-- what standard input holds, or the words of its failure -/
  input : Except Text Text
  /-- the words of the failure of standard output, if it fails -/
  outputFault? : Option Text

/-- The path that stands for a standard stream. -/
def Host.dash : Text := utf8 "-"

/-- Why a source cannot be read. -/
inductive SourceError where
  | input (words : Text)
  | file (given : Text) (cause : FileTree.AccessError)
  deriving DecidableEq, Repr

/-- The words for a source that cannot be read. -/
def SourceError.message : SourceError → Text
  | input words => utf8 "failed to read standard input: " ++ words
  | file given cause =>
    utf8 "failed to read source file " ++ given.quoted ++ utf8 ": " ++ cause.message

/-- Why a target cannot be written. -/
inductive TargetError where
  | output (words : Text)
  | file (given : Text) (cause : FileTree.AccessError)
  deriving DecidableEq, Repr

/-- The words for a target that cannot be written. -/
def TargetError.message : TargetError → Text
  | output words => words
  | file given cause =>
    utf8 "failed to write output file " ++ given.quoted ++ utf8 ": " ++ cause.message

/-- Why a file cannot be lowered. -/
inductive FileError where
  | source (cause : SourceError)
  | program (given : Text) (cause : Error)
  deriving DecidableEq, Repr

/-- The words for a file that cannot be lowered. -/
def FileError.message : FileError → Text
  | source cause => cause.message
  | program given cause => given ++ utf8 ": " ++ cause.message

/-- The target text of the source at a path. -/
def lowerAs (opts : Options) (given source : Text) : Except FileError Text :=
  (lower opts source).mapError (.program given)

/-- Whether a target path stands for standard output. -/
def isStandardOutput (given : Text) : Bool := given = [] ∨ given = Host.dash

namespace Host

/-- The clean path of a written one. -/
def locate (h : Host) (given : Text) : Path := Path.clean h.directory given

/-- The text of the source at a path. -/
def readSource (h : Host) (given : Text) : Except SourceError Text :=
  if given = dash then h.input.mapError .input
  else (h.files.read (h.locate given)).mapError (.file given)

/-- Write a text to the target at a path: what appears on standard output, and
    the files afterwards. -/
def writeTarget (h : Host) (given text : Text) : Except TargetError (Text × FileTree) :=
  if isStandardOutput given then
    match h.outputFault? with
    | some words => .error (.output words)
    | none => .ok (text, h.files)
  else match h.files.write h.directory given text with
    | .ok files => .ok ([], files)
    | .error e => .error (.file given e)

end Host

end BlockAsm
