/-
  Building an archive from what a command line asks for.

  The settings are found first, then the archive is created, each input is added
  in its turn, and the archive is finished.  A failure ends it all; an archive
  that was begun by then is closed all the same.

  * `Build` is what is asked for, and `Build.run` does it;
  * `Built` is what has come of it: the failure, if there was one, what there
    was to tell, and the file system afterwards.
-/
import Tarball.Builder.Import
import Tarball.FileSystem.Create
import Tarball.Mapping
import Tarball.Name.Destination
import Tarball.Setting.Effective

namespace Tarball

/-- What is asked for. -/
structure Build where
  output : String
  /-- Sources, each with its destination. -/
  files : List String := []
  /-- Links, each with its target. -/
  links : List String := []
  flags : Flags := {}
  /-- The settings file. -/
  settingsFile : Option String := none
  deriving DecidableEq, Repr

/-- What has come of it. -/
structure Built where
  failure : Option Error
  notices : List Notice := []
  /-- What the archive was written to, if it came to that. -/
  output : Option Output := none
  fileSystem : FileSystem

/-- A step of the making whose failure tells what was being done. -/
abbrev Assembling := EStateM Error Builder

namespace Assembling

/-- A step as part of a greater one. -/
def ofBuilding (act : Building Unit) : Assembling Unit := fun b =>
  match act b with
  | .ok _ b' => .ok () b'
  | .error cause b' => .error cause b'

/-- A step within an undertaking. -/
def within (context : Context) (act : Assembling Unit) : Assembling Unit := fun b =>
  match act b with
  | .ok _ b' => .ok () b'
  | .error e b' => .error (e.within context) b'

end Assembling

namespace Build

/-- The separator in arguments that hold two things. -/
def separator : Char := '='

/-- The permission bits of a file that may be executed. -/
def executableMode : UInt32 := 0o755

/-- The permission bits that a source is stored with. -/
def modeFor (fs : FileSystem) (source : Bytes) : Option UInt32 → Except Error UInt32
  | some mode => .ok mode
  | none => do
    if ← fs.mayExecute source then pure executableMode else pure Kind.file.mode

/-- The adding of a source: a directory with all that is in it, anything else as
    a file. -/
def addSource (fs : FileSystem) (mode : Option UInt32) (source : Bytes) (dest : String) :
    Assembling Unit := do
  if fs.isDirectory source then
    Assembling.ofBuilding (Builder.importTree fs dest source mode)
  else
    let mode ← MonadExcept.ofExcept (modeFor fs source mode)
    Assembling.ofBuilding (Builder.importFile fs dest source (some mode))

/-- The adding of a file that is asked for. -/
def addFile (fs : FileSystem) (mode : Option UInt32) (arg : String) : Assembling Unit :=
  let (source, dest) := mapping arg separator
  Assembling.within (.adding source)
    (addSource fs mode (bytesOf source) (plainDestination dest))

/-- The adding of a link that is asked for. -/
def addLink (arg : String) : Assembling Unit :=
  let (link, target) := mapping arg separator
  Assembling.within (.linking link)
    (Assembling.ofBuilding (Builder.add (.symlink (plainDestination link) target)))

/-- The adding of all that is asked for. -/
def addAll (b : Build) (fs : FileSystem) (mode : Option UInt32) : Assembling Unit := do
  b.files.forM (addFile fs mode)
  b.links.forM addLink

/-- What has come of it once there is a builder. -/
def ended (fs : FileSystem) (output : Output) (failure : Option Error) (b : Builder) : Built where
  failure := failure
  notices := b.notices
  output := some output
  fileSystem := fs.including b.sink

/-- The closing of an archive that an input was missed for. -/
def giveUp (b : Builder) : Builder :=
  match Builder.close b with
  | .ok _ b' => b'
  | .error cause b' =>
    { b' with noticeLog := .closingFailed (Error.message cause) :: b'.noticeLog }

/-- The end of an archive that holds all that was asked for. -/
def complete (b : Build) (fs : FileSystem) (output : Output) (builder : Builder) : Built :=
  match Builder.finish builder with
  | .error cause last => ended fs output (some ⟨[.finalizing b.output], cause⟩) last
  | .ok _ last =>
    match output.sync with
    | .error cause => ended fs output (some ⟨[.syncing b.output], cause⟩) last
    | .ok _ => ended fs output none last

/-- The making of an archive that has been created. -/
def fill (b : Build) (fs : FileSystem) (output : Output) (settings : Settings) : Built :=
  match Builder.start settings.options output.sink with
  | .error cause begun => ended fs output (some ⟨[.creating b.output], cause⟩) begun.drop
  | .ok _ begun =>
    match b.addAll fs settings.mode begun with
    | .error e last => ended fs output (some e) (giveUp last)
    | .ok _ last => b.complete fs output last

/-- The settings that take effect. -/
def settings (b : Build) (fs : FileSystem) : Except Error Settings := do
  let file ← FileSettings.load fs b.settingsFile
  (Settings.effective b.flags file).mapError Error.ofCause

/-- All that is asked for. -/
def run (b : Build) (fs : FileSystem) : Built :=
  match b.settings fs with
  | .error e => { failure := some e, fileSystem := fs }
  | .ok settings =>
    match fs.create (bytesOf b.output) with
    | .error cause => { failure := some ⟨[.creating b.output], cause⟩, fileSystem := fs }
    | .ok (created, output) => b.fill created output settings

end Build

end Tarball
