/-
  BlockAsm: file trees.

  A file tree gives each path a file, a directory, or nothing; the root is
  always a directory.  Reading takes a clean path.  Writing takes a path as it
  is written and follows it name by name, so that each name but the last must
  be a directory; a missing file is made, and its directory is not.  Both look
  at the text of the path first: a name has a greatest length, and so has a
  path.
-/
import BlockAsm.Files.Path

namespace BlockAsm

/-- What a path can lead to. -/
inductive Node where
  | file (content : Text)
  | directory
  deriving DecidableEq, Repr

/-- Files and directories by path. -/
structure FileTree where
  nodes : List (Path × Node)
  deriving DecidableEq, Repr

namespace FileTree

/-- The most bytes that a name in a directory has. -/
def nameLimit : Nat := 255

/-- The most bytes that a path has when it is opened. -/
def pathLimit : Nat := 4095

/-- Why a path cannot be read or written. -/
inductive Fault where
  | noSuchFile
  | notADirectory
  | isADirectory
  /-- a name is longer than `nameLimit`, or the path than `pathLimit` -/
  | nameTooLong
  /-- access is not permitted; the files of a tree are never so -/
  | denied
  /-- the path cannot be one, as when it has a zero byte in it -/
  | invalidPath
  deriving DecidableEq, Repr

/-- The words for a fault. -/
def Fault.message : Fault → Text
  | noSuchFile => utf8 "no such file or directory"
  | notADirectory => utf8 "not a directory"
  | isADirectory => utf8 "is a directory"
  | nameTooLong => utf8 "file name too long"
  | denied => utf8 "permission denied"
  | invalidPath => utf8 "invalid argument"

/-- A failed access: what was tried, on which path, and why it failed. -/
structure AccessError where
  attempt : Text
  path : Text
  fault : Fault
  deriving DecidableEq, Repr

/-- The words for a failed access. -/
def AccessError.message (e : AccessError) : Text :=
  e.attempt ++ utf8 " " ++ e.path ++ utf8 ": " ++ e.fault.message

/-- The tree that has nothing but its root. -/
def empty : FileTree := ⟨[]⟩

/-- What a path leads to. -/
def node? (t : FileTree) (p : Path) : Option Node :=
  if p = [] then some .directory else t.nodes.lookup p

/-- The tree in which a path leads to `n` and all others to what they led to. -/
def put (t : FileTree) (p : Path) (n : Node) : FileTree :=
  ⟨(p, n) :: t.nodes.filter fun e => e.1 ≠ p⟩

/-- What a name in a directory leads to. -/
def entry (t : FileTree) (directory : Path) (name : Text) : Except Fault Node :=
  if nameLimit < name.length then .error .nameTooLong
  else match t.node? (directory ++ [name]) with
    | some n => .ok n
    | none => .error .noSuchFile

/-- Enter the directory that a name leads to. -/
def enter (t : FileTree) (directory : Path) (name : Text) : Except Fault Path :=
  let next := directory.follow name
  if name = [] ∨ name = Path.here ∨ name = Path.up then .ok next
  else match t.entry directory name with
    | .ok .directory => .ok next
    | .ok (.file _) => .error .notADirectory
    | .error f => .error f

/-- What a clean path leads to. -/
def find (t : FileTree) (p : Path) : Except Fault Node :=
  match p.getLast? with
  | none => .ok .directory
  | some name => p.dropLast.foldlM t.enter [] >>= fun directory => t.entry directory name

/-- Check the text of a path, before any of its names is looked up. -/
def checkText (path : Text) : Except Fault Unit :=
  if 0 ∈ path then .error .invalidPath
  else if pathLimit < path.length then .error .nameTooLong
  else .ok ()

/-- The content of the file at a clean path. -/
def read (t : FileTree) (p : Path) : Except AccessError Text :=
  match checkText p.text >>= fun _ => t.find p with
  | .error f => .error ⟨utf8 "open", p.text, f⟩
  | .ok .directory => .error ⟨utf8 "read", p.text, .isADirectory⟩
  | .ok (.file content) => .ok content

/-- The path of the file that a written path names for writing.  It is not a
    directory, and nothing but a name stands at its end. -/
def target (t : FileTree) (directory : Path) (written : Text) : Except Fault Path :=
  let names := (written.split Byte.slash).reverse
  match names.dropWhile (· = []) with
  | [] => .error .isADirectory
  | name :: before => do
    let directory ← before.reverse.foldlM t.enter (Path.start directory written)
    if name = Path.here ∨ name = Path.up ∨ names.head? = some [] then .error .isADirectory
    else match t.entry directory name with
      | .ok .directory => .error .isADirectory
      | .ok (.file _) | .error .noSuchFile => .ok (directory ++ [name])
      | .error f => .error f

/-- The tree in which the file at a written path has the given content. -/
def write (t : FileTree) (directory : Path) (written content : Text) :
    Except AccessError FileTree :=
  match checkText written >>= fun _ => t.target directory written with
  | .ok p => .ok (t.put p (.file content))
  | .error f => .error ⟨utf8 "open", written, f⟩

end FileTree

end BlockAsm
