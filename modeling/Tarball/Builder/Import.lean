/-
  Adding files and directory trees of a file system.

  * `Builder.importFile` adds a file under a name;
  * `Builder.importTree` adds a directory and all that is in it, item by item in
    the order of `FileSystem.walk`; a source that is a file goes in as a file;
  * `itemName` is the name that an item gets: the destination and the names on
    the way to the item.
-/
import Tarball.Builder.Basic
import Tarball.FileSystem.Open
import Tarball.FileSystem.Walk

namespace Tarball

/-- The destination of a tree as the start of names: `.` is the root. -/
def treeStart (dest : String) : String :=
  if dest = "." then "" else dest

/-- The path from one place to another, as messages show it. -/
def shownPath (names : List Bytes) : String :=
  "/".intercalate (names.map Utf8.display)

/-- The name of an item of a tree, by the names on the way to it, outermost
    first. -/
def itemName (dest : String) (names : List Bytes) : Except Cause String :=
  match names.mapM Utf8.decode? with
  | some segments => .ok (segments.foldl appendSegment (treeStart dest))
  | none => .error (.nameNotText (shownPath names))

namespace Builder

/-- A file with its content; its permission bits are the usual ones unless others
    are asked for. -/
def storedFile (name : String) (content : Content) (mode : Option UInt32) : Request :=
  .file name content (some (mode.getD Kind.file.mode))

/-- The item at a location, opened: the archive's own file gives what the archive
    holds by now. -/
def openNow (fs : FileSystem) (loc : Location) : Building Content := do
  MonadExcept.ofExcept (fs.openDuring (← get).sink loc)

/-- A place that a walk has come to, opened by its whole path. -/
def openSpot (fs : FileSystem) (spot : Spot) : Building Content :=
  if FileSystem.isTooLong spot.path then throw (.system .nameTooLong)
  else openNow fs spot.location

/-- A file, under a name. -/
def importFile (fs : FileSystem) (name : String) (source : Bytes) (mode : Option UInt32) :
    Building Unit := do
  let content ← openNow fs (← MonadExcept.ofExcept (fs.resolve source))
  add (storedFile name content mode)

/-- An item of a tree: directories and files are added, anything else is told
    about. -/
def importItem (fs : FileSystem) (dest : String) (mode : Option UInt32) (spot : Spot) :
    Building Unit := do
  let name ← MonadExcept.ofExcept (itemName dest spot.below.reverse)
  match fs.node? spot.location with
  | some (.directory _) => addInTree (.directory name)
  | some (.file _ _) =>
    let content ← openSpot fs spot
    addInTree (storedFile name content mode)
  | _ => tell (.special (Utf8.display spot.path))

/-- The items of a walk, and the failure it halts with. -/
def importWalk (fs : FileSystem) (dest : String) (mode : Option UInt32) (walk : Walk) :
    Building Unit := do
  walk.spots.forM (importItem fs dest mode)
  match walk.halt with
  | some cause => throw cause
  | none => pure ()

/-- A directory tree below a destination, or a single file there. -/
def importTree (fs : FileSystem) (dest : String) (source : Bytes) (mode : Option UInt32) :
    Building Unit := do
  requireOpen
  let node ← MonadExcept.ofExcept (fs.status source)
  if node.isDirectory then
    importWalk fs dest mode (← MonadExcept.ofExcept (fs.walk source))
  else
    importFile fs dest source mode

end Builder

end Tarball
