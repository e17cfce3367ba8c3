/-
  What can go wrong, and how it is told.

  A failure has a cause and, around it, what was being done when it happened,
  outermost first.  A report reads from the outside in, its parts joined by
  colons.

  * `SystemFailure` is a refusal of the operating system, with its number;
  * `Cause` lists every reason for a failure, `Context` every undertaking that
    can be named around one;
  * `Error.message` is the whole report.
-/
import Tarball.Kind

namespace Tarball

/-! ## Refusals of the operating system -/

/-- A refusal of the operating system. -/
inductive SystemFailure where
  | missing
  | noDevice
  | notDirectory
  | isDirectory
  | invalidArgument
  | noSpace
  | nameTooLong
  | linkLoop
  deriving DecidableEq, Repr

namespace SystemFailure

/-- The number of a refusal. -/
def number : SystemFailure → Nat
  | missing => 2
  | noDevice => 6
  | notDirectory => 20
  | isDirectory => 21
  | invalidArgument => 22
  | noSpace => 28
  | nameTooLong => 36
  | linkLoop => 40

/-- The words for a refusal. -/
def words : SystemFailure → String
  | missing => "No such file or directory"
  | noDevice => "No such device or address"
  | notDirectory => "Not a directory"
  | isDirectory => "Is a directory"
  | invalidArgument => "Invalid argument"
  | noSpace => "No space left on device"
  | nameTooLong => "File name too long"
  | linkLoop => "Too many levels of symbolic links"

/-- The words for a refusal and its number. -/
def message (f : SystemFailure) : String :=
  s!"{f.words} (os error {f.number})"

end SystemFailure

/-! ## Causes -/

/-- A setting that cannot be understood, with the text it was given as. -/
inductive SettingFault where
  /-- Neither an octal number nor one that fits a word. -/
  | modeNotOctal (text : String)
  /-- An octal number with more than the twelve permission bits. -/
  | modeTooLarge (text : String)
  /-- Owner and group numbers without the dot between them. -/
  | ownerNotPair (text : String)
  /-- An owner or a group that is no number. -/
  | ownerNotNumeric (text : String)
  /-- Owner and group names without the dot between them. -/
  | ownerNamesNotPair (text : String)
  deriving DecidableEq, Repr

/-- The words for a setting that cannot be understood. -/
def SettingFault.message : SettingFault → String
  | modeNotOctal t => s!"Invalid octal mode '{t}'"
  | modeTooLarge t => s!"Mode '{t}' is out of range"
  | ownerNotPair t => s!"Invalid owner '{t}': expected two parts separated by '.'"
  | ownerNotNumeric t => s!"Invalid numeric owner '{t}': expected UID.GID"
  | ownerNamesNotPair t => s!"Invalid owner name '{t}': expected two parts separated by '.'"

/-- The two names a header has room for. -/
inductive OwnerField where
  | user
  | group
  deriving DecidableEq, Repr

/-- The word for a name's place in a header. -/
def OwnerField.label : OwnerField → String
  | user => "username"
  | group => "groupname"

/-- Why a name does not fit its place in a header. -/
inductive OwnerFault where
  | tooLong
  | hasNul
  deriving DecidableEq, Repr

/-- The words for a name that does not fit. -/
def OwnerFault.message : OwnerFault → String
  | tooLong => "provided value is too long"
  | hasNul => "provided value contains a nul byte"

/-- Why an operation failed. -/
inductive Cause where
  /-- A modification time that is neither a number nor `portable`. -/
  | mtime (text : String)
  /-- Another setting that cannot be understood. -/
  | setting (fault : SettingFault)
  /-- A settings file that is not written as one, or sets what there is not. -/
  | settingsFile
  /-- An addition to an archive that has been closed. -/
  | closed
  /-- A file or a link at the place of the archive's root. -/
  | nameless (name : String) (kind : Kind)
  /-- A file name that is not text. -/
  | nameNotText (name : String)
  /-- A directory too far below the one being imported. -/
  | tooDeep (path : String)
  /-- Argument files that include one another too deeply. -/
  | argumentsTooDeep (file : String)
  /-- A refusal of the operating system. -/
  | system (failure : SystemFailure)
  /-- A refusal of the operating system for an item met in a directory. -/
  | item (path : String) (failure : SystemFailure)
  /-- A link met in a directory that leads back to a directory above it. -/
  | cycle (path ancestor : String)
  /-- A path that holds the byte zero. -/
  | pathHasNul
  /-- A file read as text that is not UTF-8. -/
  | notText
  /-- A store of bytes that takes no more. -/
  | sinkFull
  /-- Content that ended so many bytes before its announced size. -/
  | contentShort (missing : Nat)
  /-- Content that could not be read on. -/
  | contentFailed (reason : String)
  /-- A name that does not fit its place in a header, which by then holds the
      user name given last. -/
  | owner (field : OwnerField) (fault : OwnerFault) (user : String)
  deriving DecidableEq, Repr

/-- The words for a cause.  A settings file that cannot be read as one is told
    by its name alone. -/
def Cause.message : Cause → Option String
  | mtime t => some s!"Invalid default mtime '{t}': expected an integer or \"portable\""
  | setting f => some s!"Configuration error: {f.message}"
  | settingsFile => none
  | closed => some "Archive has already been closed"
  | nameless n k =>
    some s!"Invalid entry name '{n}': a {k.label} entry needs a non-empty name"
  | nameNotText n => some s!"Invalid entry name '{n}': file name is not valid UTF-8"
  | tooDeep p =>
    some s!"Recursion depth exceeded at '{p}', probably an infinite directory loop"
  | argumentsTooDeep f =>
    some s!"Argument parsing error: argument files nested too deeply at '{f}'"
  | system f => some f.message
  | item p f => some s!"IO error for operation on {p}: {f.message}: {f.message}"
  | cycle p a => some s!"File system loop found: {p} points to an ancestor {a}"
  | pathHasNul => some "file name contained an unexpected NUL byte"
  | notText => some "stream did not contain valid UTF-8"
  | sinkFull => some "sink is full"
  | contentShort n => some s!"content ended {n} bytes short of its declared size"
  | contentFailed r => some r
  | owner field fault user =>
    some s!"{fault.message} when setting {field.label} for :{user}"

/-! ## Reports -/

/-- What was being done when a failure happened. -/
inductive Context where
  | readingFile (path : String)
  | readingMetadata (path : String)
  | readingSettings (path : String)
  | parsingSettings (path : String)
  | creating (archive : String)
  | adding (source : String)
  | linking (name : String)
  | finalizing (archive : String)
  | syncing (archive : String)
  deriving DecidableEq, Repr

/-- The words for an undertaking that failed; a path read as a file is given
    the way it is quoted. -/
def Context.message : Context → String
  | readingFile p => s!"Failed to read file {p}"
  | readingMetadata p => s!"Failed to read metadata of {p}"
  | readingSettings p => s!"Failed to read configuration file: {p}"
  | parsingSettings p => s!"Failed to parse TOML from file: {p}"
  | creating a => s!"Failed to create archive {a}"
  | adding s => s!"Failed to add '{s}' to the archive"
  | linking n => s!"Failed to add symlink '{n}'"
  | finalizing a => s!"Failed to finalize archive {a}"
  | syncing a => s!"Failed to sync archive {a}"

/-- A failure: its cause and the undertakings around it, outermost first. -/
structure Error where
  context : List Context := []
  cause : Cause
  deriving DecidableEq, Repr

namespace Error

/-- A failure with nothing around its cause. -/
def ofCause (c : Cause) : Error := { cause := c }

/-- A failure within one more undertaking. -/
def within (c : Context) (e : Error) : Error :=
  { e with context := c :: e.context }

/-- The report of a failure, from the outside in. -/
def message (e : Error) : String :=
  ": ".intercalate (e.context.map Context.message ++ e.cause.message.toList)

end Error

/-- A cause by itself is a failure. -/
instance : Coe Cause Error := ⟨Error.ofCause⟩

end Tarball
