/-
  The settings that take effect.

  What the command line sets comes before what a file sets, and that before what
  is usual: the portable time, the owner zero without a name, no root directory,
  and only the first of several files of one name.

  * `Flags` is what the command line sets;
  * `Settings.effective` is what takes effect, or the first fault in it.
-/
import Tarball.Builder.Basic
import Tarball.Setting.File
import Tarball.Setting.Permissions

namespace Tarball

/-- What the command line sets. -/
structure Flags where
  mtime : Option String := none
  root : Option String := none
  mode : Option String := none
  owner : Option String := none
  ownerName : Option String := none
  allowDuplicates : Bool := false
  deriving DecidableEq, Repr

/-- The settings that take effect. -/
structure Settings where
  options : Options
  /-- The permission bits of every file; without them a file that may be
      executed keeps being so. -/
  mode : Option UInt32
  deriving DecidableEq, Repr

namespace Settings

/-- The modification time that takes effect. -/
def mtime (flags : Flags) (file : FileSettings) : Except Cause Mtime :=
  match flags.mtime, file.mtime with
  | some text, _ => Mtime.parse text
  | none, some written => written.meaning
  | none, none => .ok .portable

/-- The permission bits that take effect. -/
def fileMode (flags : Flags) (file : FileSettings) : Except Cause (Option UInt32) :=
  match flags.mode <|> file.mode with
  | some text => (Permissions.parse text).map some
  | none => .ok none

/-- The numbers of the owner that take effect. -/
def ownerIds (flags : Flags) (file : FileSettings) : Except Cause (UInt64 × UInt64) :=
  match flags.owner <|> file.owner with
  | some text => Owner.readNumbers text
  | none => .ok (0, 0)

/-- The names of the owner that take effect. -/
def ownerNames (flags : Flags) (file : FileSettings) : Except Cause (String × String) :=
  match flags.ownerName <|> file.ownerName with
  | some text => Owner.readNames text
  | none => .ok ("", "")

/-- What happens to files of one name. -/
def duplicates (flags : Flags) (file : FileSettings) : Duplicates :=
  if flags.allowDuplicates ∨ file.keepFirst = some false then .allow else .keepFirst

/-- The settings that take effect. -/
def effective (flags : Flags) (file : FileSettings) : Except Cause Settings := do
  let mtime ← mtime flags file
  let mode ← fileMode flags file
  let (userId, groupId) ← ownerIds flags file
  let (userName, groupName) ← ownerNames flags file
  let owner := { userId, groupId, userName, groupName }
  let root := flags.root <|> file.root
  pure { options := { mtime, root, owner, duplicates := duplicates flags file }, mode }

end Settings

end Tarball
