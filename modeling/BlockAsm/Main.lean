/-
  BlockAsm: the program.

  The arguments are planned by `Plan.ofArguments`; what is left to do here is to
  read one source, print, and write one target.
-/
import BlockAsm.Command.Run

namespace BlockAsm.Main

/-- The bytes of a string. -/
def toText (s : String) : Text := s.toUTF8.toList

/-- Print a text on a stream. -/
def print (stream : IO.FS.Stream) (t : Text) : IO Unit := do
  stream.write t.toByteArray
  stream.flush

/-- Whether a system error code, of either sign, has the given number. -/
def hasNumber (code number : UInt32) : Bool := code == number || code == 0 - number

/-- The fault that a system error stands for. -/
def faultOf : IO.Error → FileTree.Fault
  | .noFileOrDirectory _ _ _ => .noSuchFile
  | .inappropriateType _ code _ => if hasNumber code 20 then .notADirectory else .isADirectory
  | .invalidArgument _ code _ => if hasNumber code 36 then .nameTooLong else .invalidPath
  | .permissionDenied _ _ _ => .denied
  | _ => .invalidPath

/-- Read the source at a path. -/
def readSource (given : Text) : IO (Except SourceError Text) := do
  if given = Host.dash then
    try return .ok (← (← IO.getStdin).readBinToEnd).toList
    catch e => return .error (.input (toText (toString e)))
  else
    let directory := Path.clean [] (toText (toString (← IO.currentDir)))
    let path := (Path.clean directory given).text
    let failed := fun (attempt : Text) f => Except.error (SourceError.file given ⟨attempt, path, f⟩)
    match String.fromUTF8? path.toByteArray with
    | none => return failed (utf8 "open") .noSuchFile
    | some name =>
      try return .ok (← IO.FS.readBinFile name).toList
      catch e => match faultOf e with
        | .isADirectory => return failed (utf8 "read") .isADirectory
        | f => return failed (utf8 "open") f

/-- Write a text to the target at a path. -/
def writeTarget (given text : Text) : IO (Except TargetError Unit) := do
  if isStandardOutput given then
    try
      print (← IO.getStdout) text
      return .ok ()
    catch e => return .error (.output (toText (toString e)))
  else
    let failed := fun f => Except.error (TargetError.file given ⟨utf8 "open", given, f⟩)
    match String.fromUTF8? given.toByteArray with
    | none => return failed .noSuchFile
    | some name =>
      try
        IO.FS.writeBinFile name text.toByteArray
        return .ok ()
      catch e => return failed (faultOf e)

/-- Report a failure. -/
def fail (cause : Failure) : IO UInt32 := do
  print (← IO.getStderr) cause.report
  return 1

/-- Hand out a product. -/
def deliver : Product → IO UInt32
  | .printed out => do
    print (← IO.getStdout) out
    return 0
  | .failed out cause => do
    print (← IO.getStdout) out
    fail cause
  | .target given text => do
    match ← writeTarget given text with
    | .ok () => return 0
    | .error e => fail (.target e)

end BlockAsm.Main

open BlockAsm in
/-- Run the program. -/
def main (args : List String) : IO UInt32 := do
  match Plan.ofArguments (args.map Main.toText) with
  | .finish product => Main.deliver product
  | .abort words =>
    Main.print (← IO.getStderr) (words ++ utf8 "\n")
    return 2
  | .withSource given next =>
    match ← Main.readSource given with
    | .ok source => Main.deliver (next source)
    | .error e => Main.fail (.source e)
