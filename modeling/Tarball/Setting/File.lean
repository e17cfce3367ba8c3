/-
  Settings files.

  * `FileSettings` is what a file sets, each setting at most once;
  * `FileSettings.parse` reads the text of one, and `FileSettings.load` finds
    and reads the file: the one asked for, or the one of the usual name in the
    working directory, if there is any.
-/
import Tarball.FileSystem.Open
import Tarball.Name.Segment
import Tarball.Setting.Document
import Tarball.Setting.Mtime

namespace Tarball

/-- A modification time as it is written in a file. -/
inductive WrittenMtime where
  | seconds (n : Int)
  | text (text : String)
  deriving DecidableEq, Repr

/-- The time that is meant. -/
def WrittenMtime.meaning : WrittenMtime → Except Cause Mtime
  | seconds n => Mtime.ofInteger n
  | text t => Mtime.parse t

/-- What a settings file sets. -/
structure FileSettings where
  mtime : Option WrittenMtime := none
  root : Option String := none
  mode : Option String := none
  owner : Option String := none
  ownerName : Option String := none
  keepFirst : Option Bool := none
  deriving DecidableEq, Repr

namespace FileSettings

/-- One more setting, if there is one of this name and the value suits it. -/
def set (s : FileSettings) : String × SettingValue → Option FileSettings
  | ("default_mtime", .integer n) => some { s with mtime := some (.seconds n) }
  | ("default_mtime", .text t) => some { s with mtime := some (.text t) }
  | ("root_directory", .text t) => some { s with root := some t }
  | ("mode", .text t) => some { s with mode := some t }
  | ("owner", .text t) => some { s with owner := some t }
  | ("owner_name", .text t) => some { s with ownerName := some t }
  | ("keep_first_duplicate", .flag b) => some { s with keepFirst := some b }
  | _ => none

/-- The settings of a document that sets nothing twice. -/
def ofDocument (d : Document) : Option FileSettings :=
  if (d.map Prod.fst).Nodup then d.foldlM set {} else none

/-- The settings in the text of a file. -/
def parse (text : String) : Option FileSettings :=
  (Document.parse text).bind ofDocument

/-- The name of the settings file in the working directory. -/
def usualName : String := ".reprotar.toml"

/-- The settings in a file, which messages call by a name. -/
def loadFrom (fs : FileSystem) (path : Bytes) (shown : String) : Except Error FileSettings :=
  match fs.readUtf8 path with
  | .error cause => .error ⟨[.readingSettings shown], cause⟩
  | .ok text =>
    match parse text with
    | none => .error ⟨[.parsingSettings shown], .settingsFile⟩
    | some s => .ok s

/-- The settings in the file asked for, which has to be there, or else in the
    one of the usual name, if it is a file. -/
def load (fs : FileSystem) : Option String → Except Error FileSettings
  | some path => loadFrom fs (bytesOf path) path
  | none =>
    if fs.isFile (bytesOf usualName) then
      loadFrom fs (bytesOf usualName) (appendSegment fs.workingPath usualName)
    else .ok {}

end FileSettings

end Tarball
