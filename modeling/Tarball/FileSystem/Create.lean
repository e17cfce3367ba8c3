/-
  Creating files.

  * `FileSystem.create` opens a path for writing: a file that is there is
    emptied, one that is not there is made;
  * `Output` is what was opened, `Output.sink` takes what is written to it, and
    `Output.sync` sees to it that it lasts.
-/
import Tarball.FileSystem.Open

namespace Tarball

/-- What has been opened for writing. -/
inductive Output where
  | file (location : Location)
  | nullDevice
  | fullDevice
  deriving DecidableEq, Repr

namespace Output

/-- The sink for what is written. -/
def sink : Output → Sink
  | file location => { place := some location }
  | nullDevice => {}
  | fullDevice => { room := some 0, refusal := .system .noSpace }

/-- Only what is in a file can be made to last. -/
def sync : Output → Except Cause Unit
  | file _ => .ok ()
  | nullDevice | fullDevice => .error (.system .invalidArgument)

end Output

namespace FileSystem

/-- A path to be created, cut into the names on the way to it and its own
    name.  It has none of its own if it ends in a slash or with a name for a
    directory that is there already. -/
def creationTarget (path : Bytes) : List Bytes × Option Bytes :=
  match (pathNames path).reverse with
  | [] => ([], none)
  | last :: above =>
    if last = [] then (((last :: above).dropWhile (· = [])).tail.reverse, none)
    else (above.reverse, if last = dotName ∨ last = dotDotName then none else some last)

/-- What opening an item for writing gives. -/
def openForWriting (fs : FileSystem) (loc : Location) (node : Node) :
    Except SystemFailure (FileSystem × Output) :=
  match node with
  | .file mode _ => .ok (fs.put loc (.file mode []), .file loc)
  | .directory _ => .error .isDirectory
  | .link _ => .error .linkLoop
  | .socket _ => .error .noDevice
  | .nullDevice => .ok (fs, .nullDevice)
  | .fullDevice => .ok (fs, .fullDevice)

/-- The creation of a path, seen from a directory, when so many links may still
    be met. -/
def createFrom (fs : FileSystem) (links : Nat) (here : Location) (path : Bytes) :
    Except SystemFailure (FileSystem × Output) := do
  let (way, name) := creationTarget path
  let (dir, left) ← fs.follow links (start here path) way
  match fs.node? dir with
  | some (.directory _) =>
    match name with
    | none => throw .isDirectory
    | some name =>
      if maxName < name.length then throw .nameTooLong
      else
        match fs.node? (name :: dir) with
        | none => pure (fs.put (name :: dir) (.file newFileMode []), .file (name :: dir))
        | some (.link target) =>
          match _h : min left links with
          | 0 => throw .linkLoop
          | fewer + 1 => fs.createFrom fewer dir target
        | some node => fs.openForWriting (name :: dir) node
  | _ => throw .notDirectory
  termination_by links
  decreasing_by omega

/-- The creation of a file at a path. -/
def create (fs : FileSystem) (path : Bytes) : Except Cause (FileSystem × Output) :=
  if 0 ∈ path then .error .pathHasNul
  else if isTooLong path then .error (.system .nameTooLong)
  else if path = [] then .error (.system .missing)
  else (fs.createFrom maxLinks fs.workingDirectory path).mapError .system

end FileSystem

end Tarball
