/-
  The program on a real file system.

  What the arguments name is read first, the archive is built from that, and
  then it is written where it belongs.  Permission bits cannot be seen from
  here, so that a file counts as one that nobody may execute.
-/
import Tarball.CommandLine
import Tarball.FileSystem.Arrange

namespace Tarball.Main

/-- The items found, each with its path. -/
abbrev Items := List (Bytes × Node)

/-- A link to what is not there. -/
def brokenLink : Node := .link [0]

/-- The devices that are in every file system. -/
def isDevice (path : String) : Bool :=
  path = "/dev/null" || path = "/dev/full"

/-- What a path names, without what is below it. -/
def gatherShallow (path : String) : IO Items := do
  if isDevice path then return []
  try
    match (← System.mkFilePath [path] |>.metadata).type with
    | .dir => pure [(bytesOf path, .directory Node.directoryMode)]
    | .file => pure [(bytesOf path, .file FileSystem.newFileMode [])]
    | _ => pure [(bytesOf path, .socket Node.deviceMode)]
  catch _ => pure []

/-- What a path names, and all that is below it. -/
partial def gather (path : String) : StateT Items IO Unit := do
  let file := System.mkFilePath [path]
  let here := bytesOf path
  if isDevice path ∨ (← get).any (·.1 = here) then return
  try
    match (← file.symlinkMetadata).type with
    | .dir =>
      modify ((here, .directory Node.directoryMode) :: ·)
      for entry in ← file.readDir do
        gather entry.path.toString
    | .file =>
      let content ← IO.FS.readBinFile file
      modify ((here, .file FileSystem.newFileMode content.toList) :: ·)
    | .symlink =>
      try
        let target ← IO.FS.realPath file
        modify ((here, .link (bytesOf target.toString)) :: ·)
        gather target.toString
      catch _ => modify ((here, brokenLink) :: ·)
    | .other => modify ((here, .socket Node.deviceMode) :: ·)
  catch _ => pure ()

/-- The files of arguments that arguments name. -/
partial def gatherArguments (args : List String) : StateT Items IO Unit := do
  for file in args.filterMap Argument.file? do
    unless (← get).any (·.1 = bytesOf file) do
      gather file
      for item in ← get do
        if item.1 = bytesOf file then
          if let .file _ content := item.2 then
            gatherArguments (Argument.ofText (Utf8.display content))

/-- The directory around a path. -/
def around (path : String) : String :=
  ((System.mkFilePath [path]).parent.map (·.toString)).getD "."

/-- What a build names. -/
def gatherBuild (b : Build) : StateT Items IO Unit := do
  gather (b.settingsFile.getD FileSettings.usualName)
  for arg in b.files do
    gather (mapping arg Build.separator).1
  for path in [around b.output, b.output] do
    let found ← gatherShallow path
    modify fun items => found.filter (fun item => !items.any (·.1 = item.1)) ++ items

/-- The writing of an archive to where it belongs. -/
def deliver (r : Response) : IO Unit := do
  if let some (.file loc) := r.output then
    if let some (.file _ content) := r.fileSystem.node? loc then
      let path := "/" ++ "/".intercalate (loc.reverse.map Utf8.display)
      IO.FS.writeBinFile path ⟨content.toArray⟩

/-- What the program does with its arguments. -/
def perform (args : List String) : IO UInt32 := do
  let cwd := (← IO.currentDir).toString
  let place := ((pathNames (bytesOf cwd)).filter (· ≠ [])).reverse
  let line := CommandLine.programName :: args
  let files := (← (gatherArguments args).run []).2
  let fs := FileSystem.ofList place cwd files.reverse
  let items ← match (expandArguments fs line).toOption.bind fun all => CommandLine.parse all.tail with
    | some (.build b) => do pure (← (gatherBuild b).run files).2
    | _ => pure files
  let response := CommandLine.run (FileSystem.ofList place cwd items.reverse) line
  deliver response
  IO.print response.text
  IO.eprint response.complaint
  for notice in response.notices do
    IO.eprintln s!"WARN {notice.message}"
  if let some e := response.failure then
    IO.eprintln s!"Error: {e.message}"
  pure response.status.toUInt32

end Tarball.Main

/-- The program. -/
def main (args : List String) : IO UInt32 := Tarball.Main.perform args
