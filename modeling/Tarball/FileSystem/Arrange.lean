/-
  Arranging a file system.

  * `FileSystem.arrange` puts an item at a path, and before it the directories
    on the way that are not there yet;
  * `FileSystem.ofList` is a file system made of items, one after the other, in
    which the usual devices are.
-/
import Tarball.FileSystem.Resolve

namespace Tarball.FileSystem

/-- The way from a directory by names, made as far as it is not there. -/
def makeWay (fs : FileSystem) (here : Location) : List Bytes → FileSystem × Location
  | [] => (fs, here)
  | name :: rest =>
    match fs.follow maxLinks here [name] with
    | .ok (there, _) => fs.makeWay there rest
    | .error _ => (fs.put (name :: here) (.directory Node.directoryMode)).makeWay (name :: here) rest

/-- A file system with an item at a path. -/
def arrange (fs : FileSystem) (path : Bytes) (node : Node) : FileSystem :=
  let names := (pathNames path).filter (· ≠ [])
  let (made, dir) := fs.makeWay (start fs.workingDirectory path) names.dropLast
  match names.getLast? with
  | none => made
  | some name => made.put (name :: dir) node

/-- The place of the devices. -/
def deviceDirectory : Location := [bytesOf "dev"]

/-- A file system with nothing in it but the devices and the working
    directory. -/
def bare (workingDirectory : Location) (workingPath : String) : FileSystem :=
  (((({ workingDirectory, workingPath } : FileSystem).put deviceDirectory
    (.directory Node.directoryMode)).put (bytesOf "null" :: deviceDirectory) .nullDevice).put
    (bytesOf "full" :: deviceDirectory) .fullDevice).put workingDirectory
    (.directory Node.directoryMode)

/-- A file system made of items, one after the other. -/
def ofList (workingDirectory : Location) (workingPath : String) (items : List (Bytes × Node)) :
    FileSystem :=
  items.foldl (fun fs item => fs.arrange item.1 item.2) (bare workingDirectory workingPath)

end Tarball.FileSystem
