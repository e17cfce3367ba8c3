/-
  The items of a directory tree.

  A tree is walked from the top: each directory comes before what it holds, and
  what it holds in the order of the bytes of the names.  Symbolic links stand
  for what they lead to.  The walk halts at the first item that cannot be
  reached, that is a link back to a directory above it, or that is a directory
  too far down.  A link is followed and a directory is listed by its whole path,
  which must not be too long for that; any other item is met whatever the length
  of its path.

  * `Walk` is how far a walk comes: the items met and why it halts, if it does;
  * `FileSystem.enter` goes from a directory to what one of its names leads to;
  * `FileSystem.tour` walks a directory that so many levels may be below, and
    `FileSystem.walk` the tree at a path.
-/
import Tarball.FileSystem.Resolve

namespace Tarball

/-- A path with one more name. -/
def joinPath (path name : Bytes) : Bytes :=
  if path = [] ∨ path.getLast? = some slashByte then path ++ name else path ++ slashByte :: name

/-- A place that a walk has come to. -/
structure Spot where
  location : Location
  /-- The way to it, as messages show it. -/
  path : Bytes
  /-- The names on the way from where the walk started, innermost first. -/
  below : List Bytes := []
  /-- How many links may still be met from here on. -/
  links : Nat
  deriving DecidableEq, Repr

/-- The place that a name in a directory leads to. -/
def Spot.child (dir : Spot) (name : Bytes) (location : Location) (links : Nat) : Spot where
  location := location
  path := joinPath dir.path name
  below := name :: dir.below
  links := links

/-- How far a walk comes. -/
structure Walk where
  spots : List Spot := []
  halt : Option Cause := none
  deriving DecidableEq, Repr

namespace Walk

/-- The walk that halts at once, at a path that cannot be followed. -/
def haltedAt (path : Bytes) (failure : SystemFailure) : Walk :=
  { halt := some (.item (Utf8.display path) failure) }

/-- A walk and, unless it halts, another one after it. -/
def andThen (w : Walk) (next : Unit → Walk) : Walk :=
  match w.halt with
  | some _ => w
  | none =>
    let more := next ()
    { spots := w.spots ++ more.spots, halt := more.halt }

/-- The walks from several starts, one after the other. -/
def inTurn {α : Type} (go : α → Walk) : List α → Walk
  | [] => {}
  | a :: rest => (go a).andThen fun _ => inTurn go rest

end Walk

namespace FileSystem

/-- How many levels below its start a walk may find directories. -/
def levelLimit : Nat := 100

/-- The names in a directory in the order of their bytes. -/
def sortedNames (fs : FileSystem) (dir : Location) : List Bytes :=
  (fs.names dir).mergeSort fun a b => decide (a ≤ b)

/-- Whether there is a directory at a location. -/
def isDirectoryAt (fs : FileSystem) (loc : Location) : Bool :=
  (fs.node? loc).any Node.isDirectory

/-- Whether there is a link at a location. -/
def isLinkAt (fs : FileSystem) (loc : Location) : Bool :=
  (fs.node? loc).any Node.isLink

/-- The place that a name in a directory leads to.  Only a link needs its whole
    path to be followed. -/
def enter (fs : FileSystem) (dir : Spot) (name : Bytes) : Except SystemFailure Spot :=
  if fs.isLinkAt (name :: dir.location) && isTooLong (joinPath dir.path name) then
    .error .nameTooLong
  else
    (fs.follow dir.links dir.location [name]).map fun (location, links) =>
      dir.child name location links

/-- The directory that an item leads back to, if it is a link and one of the
    directories is where it leads. -/
def ledBackTo (fs : FileSystem) (item : Location) (leadsTo : Location) (dirs : List Spot) :
    Option Spot :=
  if fs.isLinkAt item then dirs.find? (·.location = leadsTo) else none

/-- The walk of the directory at a spot, below the directories `above`
    (innermost first), when so many levels may follow. -/
def tour (fs : FileSystem) : Nat → List Spot → Spot → Walk
  | 0, _, here => { spots := [here], halt := some (.tooDeep (Utf8.display here.path)) }
  | levels + 1, above, here =>
    Walk.andThen { spots := [here] } fun _ =>
      if isTooLong here.path then .haltedAt here.path .nameTooLong
      else Walk.inTurn (fun name =>
        match fs.enter here name with
        | .error failure => .haltedAt (joinPath here.path name) failure
        | .ok spot =>
          if fs.isDirectoryAt spot.location then
            match fs.ledBackTo (name :: here.location) spot.location (here :: above) with
            | some ancestor =>
              { halt := some (.cycle (Utf8.display spot.path) (Utf8.display ancestor.path)) }
            | none => fs.tour levels (here :: above) spot
          else { spots := [spot] })
        (fs.sortedNames here.location)

/-- The walk of the tree at a path. -/
def walk (fs : FileSystem) (path : Bytes) : Except Cause Walk := do
  let (location, links) ← fs.resolveLinks path
  pure (fs.tour levelLimit [] { location, path, links })

end FileSystem

end Tarball
