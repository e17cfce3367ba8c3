/-
  File systems, as far as an archive is made from one.

  A file system says what there is at each location.  A location is the list of
  names on the way to it, the innermost first, so that the directory around it
  is the rest of the list; the root directory is always there.

  * `FileSystem.node?` is what there is at a location, and `FileSystem.names`
    lists what a directory holds, in no particular order;
  * `FileSystem.put` replaces or adds one item (`node?_put`: that one and no
    other).
-/
import Tarball.Text.Utf8

namespace Tarball

/-- The names on the way to a place, innermost first. -/
abbrev Location := List Bytes

/-- What there can be at a location.  The permission bits of an item are kept
    where something depends on them. -/
inductive Node where
  | file (mode : UInt32) (content : Bytes)
  | directory (mode : UInt32)
  | link (target : Bytes)
  | socket (mode : UInt32)
  /-- A device that swallows everything. -/
  | nullDevice
  /-- A device that is always full. -/
  | fullDevice
  deriving DecidableEq, Repr

namespace Node

/-- The permission bits of a directory that nobody set any for. -/
def directoryMode : UInt32 := 0o755

/-- The permission bits of a device. -/
def deviceMode : UInt32 := 0o666

/-- The permission bits of an item. -/
def mode : Node → UInt32
  | file m _ | directory m | socket m => m
  | link _ => 0o777
  | nullDevice | fullDevice => deviceMode

/-- Whether an item is a directory. -/
def isDirectory : Node → Bool
  | directory _ => true
  | _ => false

/-- Whether an item is a link. -/
def isLink : Node → Bool
  | link _ => true
  | _ => false

/-- Whether an item is a regular file. -/
def isFile : Node → Bool
  | file _ _ => true
  | _ => false

end Node

/-- A file system and the directory that paths start from. -/
structure FileSystem where
  items : List (Location × Node) := []
  workingDirectory : Location := []
  /-- The working directory, as messages name it. -/
  workingPath : String := "/"
  distinct : (items.map Prod.fst).Nodup := by decide
  deriving DecidableEq

namespace FileSystem

/-- What there is at a location. -/
def node? (fs : FileSystem) (loc : Location) : Option Node :=
  match fs.items.lookup loc with
  | some node => some node
  | none => if loc = [] then some (.directory Node.directoryMode) else none

/-- The name of an item that stands directly in a directory. -/
def nameIn (dir : Location) : Location → Option Bytes
  | [] => none
  | name :: above => if above = dir then some name else none

/-- The names in a directory. -/
def names (fs : FileSystem) (dir : Location) : List Bytes :=
  fs.items.filterMap fun item => nameIn dir item.1

/-- The items at other locations. -/
def others (fs : FileSystem) (loc : Location) : List (Location × Node) :=
  fs.items.filter fun item => item.1 ≠ loc

theorem distinct_cons_others (fs : FileSystem) (loc : Location) (node : Node) :
    (((loc, node) :: fs.others loc).map Prod.fst).Nodup := by
  rw [List.map_cons, List.nodup_cons]
  constructor
  · simp [others]
  · exact fs.distinct.sublist (List.filter_sublist.map Prod.fst)

/-- A file system with one item replaced or added. -/
def put (fs : FileSystem) (loc : Location) (node : Node) : FileSystem :=
  { fs with
    items := (loc, node) :: fs.others loc
    distinct := fs.distinct_cons_others loc node }

theorem lookup_filter_ne {loc loc' : Location} (h : loc' ≠ loc) (items : List (Location × Node)) :
    (items.filter fun item => item.1 ≠ loc).lookup loc' = items.lookup loc' := by
  induction items with
  | nil => rfl
  | cons item items ih =>
    by_cases hi : item.1 = loc
    · have hne : (loc' == item.1) = false := by simpa [hi] using h
      rw [List.filter_cons_of_neg (by simpa using hi), ih]
      rw [show item = (item.1, item.2) from rfl, List.lookup_cons, hne]
    · rw [List.filter_cons_of_pos (by simpa using hi)]
      rw [show item = (item.1, item.2) from rfl, List.lookup_cons, List.lookup_cons, ih]

/-- Putting an item changes what is at its own location and nothing else. -/
theorem node?_put (fs : FileSystem) (loc loc' : Location) (node : Node) :
    (fs.put loc node).node? loc' = if loc' = loc then some node else fs.node? loc' := by
  unfold node? put others
  by_cases h : loc' = loc
  · simp [h]
  · have hne : (loc' == loc) = false := by simpa using h
    rw [if_neg h, List.lookup_cons, hne]
    simp only [lookup_filter_ne h]

end FileSystem

end Tarball
