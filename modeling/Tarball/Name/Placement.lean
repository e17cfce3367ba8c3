/-
  The place of an entry in an archive.

  A place is the way down from the archive's root.  Every directory on the way
  has to be in the archive before the entry is.  When a directory tree is
  imported at `./`, its entries keep a `.` segment that spells the root once
  more: the way up to there is no directory of its own.

  * `Placement.name` and `Placement.ancestors` are the entry's name and those
    of the directories on the way, the shortest first;
  * `Placement.entry` places the path of a single entry and
    `Placement.treeEntry` that of an item of an imported tree, below an
    optional root directory.
-/
import Tarball.Name.Segment

namespace Tarball

/-- A way down from the root of an archive. -/
structure Placement where
  segments : List Segment
  /-- How many segments spell the root once more. -/
  rootLength : Option Nat := none
  deriving DecidableEq, Repr

namespace Placement

/-- The name of the entry at a place. -/
def name (p : Placement) : String :=
  String.ofList (joined p.segments)

/-- How many segments the directories on the way have. -/
def ancestorLengths (p : Placement) : List Nat :=
  (List.range p.segments.length).filter fun n => n ≠ 0 ∧ some n ≠ p.rootLength

/-- The names of the directories on the way, the shortest first. -/
def ancestors (p : Placement) : List String :=
  p.ancestorLengths.map fun n => String.ofList (joined (p.segments.take n))

/-- Whether a place is the root of the archive itself. -/
def isRoot (p : Placement) : Bool :=
  p.segments.isEmpty

/-- The segments of a root directory, none if there is no such directory. -/
def rootSegments (root : Option String) : List Segment :=
  match root with
  | none => []
  | some r => Tarball.segments r.toList

/-- The place of a single entry below the root directory. -/
def entry (root : Option String) (path : String) : Placement where
  segments := rootSegments root ++ Tarball.segments path.toList

/-- The place of an item of an imported tree below the root directory.  A `./`
    in front of anything is kept as a segment that spells the root. -/
def treeEntry (root : Option String) (path : String) : Placement :=
  let below := Tarball.segments path.toList
  let top := rootSegments root
  if ['.', '/'] <+: path.toList ∧ below ≠ [] then
    { segments := top ++ ['.'] :: below, rootLength := some (top.length + 1) }
  else
    { segments := top ++ below }

/-- Without a `./` the items of a tree are placed like single entries. -/
theorem treeEntry_of_not_dotSlash {path : String} (h : ¬ ['.', '/'] <+: path.toList)
    (root : Option String) : treeEntry root path = entry root path := by
  simp [treeEntry, entry, h]

/-- The segment that spells the root is no directory on the way. -/
example : (treeEntry (some "pkg") "./a/b").ancestors = ["pkg", "pkg/./a"] := by decide

end Placement

end Tarball
