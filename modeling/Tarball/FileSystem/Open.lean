/-
  Opening and reading files.

  * `FileSystem.openPath` opens what a path leads to for reading: its size and what
    comes when it is read;
  * `FileSystem.readText` reads a whole file as text, and
    `FileSystem.mayExecute` looks at the permission bits of one;
  * `FileSystem.including` is a file system with what a sink holds in the sink's
    place, and `FileSystem.openDuring` opens an item of it (`openDuring_eq`).
-/
import Tarball.FileSystem.Resolve
import Tarball.Sink
import Tarball.Text.Quoted

namespace Tarball

/-- What is announced as the size of an opened directory. -/
def directorySize : UInt64 := 4096

/-- What an opened item gives.  A directory can be opened, but not be read; a
    socket cannot even be opened, and the devices are at their end at once. -/
def Node.open : Node → Except Cause Content
  | .file _ content => .ok (.stream { chunks := [content] } (UInt64.ofNat content.length))
  | .directory _ => .ok (.stream { failure := some (.system .isDirectory) } directorySize)
  | .link _ => .error (.system .linkLoop)
  | .socket _ => .error (.system .noDevice)
  | .nullDevice | .fullDevice => .ok (.stream {} 0)

namespace FileSystem

/-- What the item at a location gives. -/
def openAt (fs : FileSystem) (loc : Location) : Except Cause Content :=
  match fs.node? loc with
  | some node => node.open
  | none => .error (.system .missing)

/-- What a path leads to, opened for reading. -/
def openPath (fs : FileSystem) (path : Bytes) : Except Cause Content :=
  fs.resolve path >>= fs.openAt

/-- All bytes of a file. -/
def read (fs : FileSystem) (path : Bytes) : Except Cause Bytes := do
  let content ← fs.openPath path
  match content.reading.failure with
  | some cause => throw cause
  | none => pure content.reading.bytes

/-- A whole file as text. -/
def readUtf8 (fs : FileSystem) (path : Bytes) : Except Cause String := do
  match Utf8.decode? (← fs.read path) with
  | some text => pure text
  | none => throw .notText

/-- A whole file as text; a failure names the file. -/
def readText (fs : FileSystem) (path : Bytes) : Except Error String :=
  (fs.readUtf8 path).mapError fun cause => ⟨[.readingFile (quoted path)], cause⟩

/-- The permission bits that let anybody execute a file. -/
def executeBits : UInt32 := 0o111

/-- Whether anybody may execute what a path leads to; a failure names the
    path. -/
def mayExecute (fs : FileSystem) (path : Bytes) : Except Error Bool :=
  match fs.status path with
  | .ok node => .ok (node.mode &&& executeBits != 0)
  | .error cause => .error ⟨[.readingMetadata (quoted path)], cause⟩

/-- Whether a path leads to a directory. -/
def isDirectory (fs : FileSystem) (path : Bytes) : Bool :=
  match fs.status path with
  | .ok node => node.isDirectory
  | .error _ => false

/-- Whether a path leads to a regular file. -/
def isFile (fs : FileSystem) (path : Bytes) : Bool :=
  match fs.status path with
  | .ok node => node.isFile
  | .error _ => false

/-- The permission bits of a file that is made anew. -/
def newFileMode : UInt32 := 0o644

/-- The permission bits a file keeps when it is written over. -/
def modeAt (fs : FileSystem) (loc : Location) : UInt32 :=
  match fs.node? loc with
  | some (.file mode _) => mode
  | _ => newFileMode

/-- A file system with what a sink holds in the place of the sink. -/
def including (fs : FileSystem) (s : Sink) : FileSystem :=
  match s.place with
  | none => fs
  | some loc => fs.put loc (.file (fs.modeAt loc) s.contents)

/-- What the item at a location gives while a sink is being filled. -/
def openDuring (fs : FileSystem) (s : Sink) (loc : Location) : Except Cause Content :=
  if s.place = some loc then (fs.including s).openAt loc else fs.openAt loc

/-- It is what the item gives with all that the sink holds by then. -/
theorem openDuring_eq (fs : FileSystem) (s : Sink) (loc : Location) :
    fs.openDuring s loc = (fs.including s).openAt loc := by
  unfold openDuring
  split
  · rfl
  · next h =>
    unfold including
    split
    · rfl
    · next place hp =>
      have hne : loc ≠ place := fun he => h (by rw [hp, he])
      rw [openAt, openAt, node?_put, if_neg hne]

end FileSystem

end Tarball
