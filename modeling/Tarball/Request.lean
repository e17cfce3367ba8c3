/-
  What a caller asks to be added to an archive.

  * `Request` names an entry and says what it is; whatever it leaves open is
    filled in by the archive;
  * `Request.file`, `Request.directory` and `Request.symlink` are the usual
    ones.
-/
import Tarball.Content
import Tarball.Kind
import Tarball.Setting.Owner

namespace Tarball

/-- A request to add one entry. -/
structure Request where
  name : String
  kind : Kind
  content : Content := .empty
  mode : Option UInt32 := none
  mtime : Option UInt64 := none
  owner : Option Owner := none
  /-- Where a link leads; it is stored as it is. -/
  target : Option String := none
  deriving DecidableEq, Repr

namespace Request

/-- A file with its content and, if they matter, its permission bits. -/
def file (name : String) (content : Content) (mode : Option UInt32 := none) : Request where
  name := name
  kind := .file
  content := content
  mode := mode

/-- A directory. -/
def directory (name : String) : Request where
  name := name
  kind := .directory

/-- A symbolic link. -/
def symlink (name target : String) : Request where
  name := name
  kind := .symlink
  target := some target

/-- The content that is stored: only a file has any. -/
def stored (r : Request) : Content :=
  match r.kind with
  | .file => r.content
  | .directory | .symlink => .empty

/-- The link target that is stored: only a link has one. -/
def storedTarget (r : Request) : Option String :=
  match r.kind with
  | .symlink => r.target
  | .file | .directory => none

end Request

end Tarball
