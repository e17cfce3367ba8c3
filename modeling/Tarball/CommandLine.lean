/-
  The command line.

  An option is given by its long name and, if it takes one, a value: as the next
  argument, which must not look like an option then, or after an equals sign.
  Sources and links can be given again and again, anything else once.  Nothing
  but options is understood.

  * `CommandLine.parse` is what the arguments ask for, if they are understood;
  * `CommandLine.run` does it, argument files expanded before.
-/
import Tarball.ArgumentFile
import Tarball.Build

namespace Tarball

/-- What a command line asks for. -/
inductive CommandLine where
  | help
  | version
  | build (build : Build)
  deriving DecidableEq, Repr

/-- What is shown for a command line, and the status the program ends with. -/
structure Response where
  status : Nat
  text : String := ""
  /-- What is said to somebody who was not understood. -/
  complaint : String := ""
  /-- The failure that is reported. -/
  failure : Option Error := none
  notices : List Notice := []
  /-- What an archive was written to. -/
  output : Option Output := none
  fileSystem : FileSystem

namespace CommandLine

/-- The name of the program. -/
def programName : String := "reprotar"

/-- The version of the program. -/
def programVersion : String := "0.1.0"

/-! ## Options -/

/-- The options that take a value. -/
inductive Key where
  | output
  | file
  | link
  | mode
  | directory
  | owner
  | ownerName
  | mtime
  | config
  deriving DecidableEq, Repr

/-- The options that take none. -/
inductive Switch where
  | allowDuplicates
  | verbose
  | help
  | version
  deriving DecidableEq, Repr

/-- The long names of the options that take a value. -/
def Key.ofName? : String → Option Key
  | "output" => some .output
  | "file" => some .file
  | "link" => some .link
  | "mode" => some .mode
  | "directory" => some .directory
  | "owner" => some .owner
  | "owner_name" => some .ownerName
  | "mtime" => some .mtime
  | "config" => some .config
  | _ => none

/-- The long names of the options that take none. -/
def Switch.ofName? : String → Option Switch
  | "allow-duplicates" => some .allowDuplicates
  | "verbose" => some .verbose
  | "help" => some .help
  | "version" => some .version
  | _ => none

/-- The letters of the options that have one. -/
def Switch.ofLetter? : Char → Option Switch
  | 'v' => some .verbose
  | 'h' => some .help
  | 'V' => some .version
  | _ => none

/-! ## What has been asked for so far -/

/-- What has been asked for so far. -/
structure Wanted where
  output : Option String := none
  files : List String := []
  links : List String := []
  flags : Flags := {}
  settingsFile : Option String := none
  deriving DecidableEq, Repr

/-- What an argument leads to: more to look at, or an answer at once. -/
inductive Progress where
  | more (wanted : Wanted)
  | answer (line : CommandLine)
  deriving DecidableEq, Repr

/-- A value for an option that can be given once. -/
def once {α : Type} (old : Option α) (value : α) : Option (Option α) :=
  if old.isNone then some (some value) else none

namespace Wanted

/-- A value for an option.  A path must not be empty. -/
def setKey (w : Wanted) (value : String) : Key → Option Wanted
  | .output =>
    if value = "" then none else (once w.output value).map fun v => { w with output := v }
  | .config =>
    if value = "" then none
    else (once w.settingsFile value).map fun v => { w with settingsFile := v }
  | .file => some { w with files := w.files ++ [value] }
  | .link => some { w with links := w.links ++ [value] }
  | .mode => (once w.flags.mode value).map fun v => { w with flags.mode := v }
  | .directory => (once w.flags.root value).map fun v => { w with flags.root := v }
  | .owner => (once w.flags.owner value).map fun v => { w with flags.owner := v }
  | .ownerName => (once w.flags.ownerName value).map fun v => { w with flags.ownerName := v }
  | .mtime => (once w.flags.mtime value).map fun v => { w with flags.mtime := v }

/-- An option that takes no value.  Asking for more messages changes nothing
    that is asked for. -/
def setSwitch (w : Wanted) : Switch → Option Progress
  | .help => some (.answer .help)
  | .version => some (.answer .version)
  | .verbose => some (.more w)
  | .allowDuplicates =>
    if w.flags.allowDuplicates then none
    else some (.more { w with flags.allowDuplicates := true })

/-- Options given by their letters, one after the other. -/
def setLetters (w : Wanted) : List Char → Option Progress
  | [] => some (.more w)
  | c :: rest =>
    match (Switch.ofLetter? c).bind w.setSwitch with
    | some (.more w') => w'.setLetters rest
    | found => found

/-- All that was asked for, once there is nothing more to look at. -/
def build? (w : Wanted) : Option Build :=
  w.output.map fun output =>
    { output, files := w.files, links := w.links, flags := w.flags, settingsFile := w.settingsFile }

end Wanted

/-! ## Arguments -/

/-- What an argument is. -/
inductive Shape where
  /-- An option by its long name, perhaps with a value. -/
  | long (name : String) (value : Option String)
  /-- Options by their letters. -/
  | letters (letters : List Char)
  /-- The mark after which nothing is an option. -/
  | ending
  | plain
  deriving DecidableEq, Repr

/-- A long name and the value after an equals sign. -/
def longShape (cs : List Char) : Shape :=
  match cs.dropWhile (· ≠ '=') with
  | [] => .long (String.ofList cs) none
  | _ :: value => .long (String.ofList (cs.takeWhile (· ≠ '='))) (some (String.ofList value))

/-- What an argument is, by its first characters. -/
def shape (arg : String) : Shape :=
  match arg.toList with
  | ['-', '-'] => .ending
  | '-' :: '-' :: rest => longShape rest
  | ['-'] => .plain
  | '-' :: rest => .letters rest
  | _ => .plain

/-- What the arguments ask for; nothing if they are not understood. -/
def parseFrom (w : Wanted) : List String → Option CommandLine
  | [] => w.build?.map .build
  | arg :: rest =>
    match shape arg with
    | .plain => none
    | .ending => if rest = [] then w.build?.map .build else none
    | .letters cs =>
      match w.setLetters cs with
      | some (.more w') => parseFrom w' rest
      | some (.answer line) => some line
      | none => none
    | .long name value =>
      match Key.ofName? name, value, rest with
      | some key, some value, rest => (w.setKey value key).bind (parseFrom · rest)
      | some key, none, value :: rest =>
        if shape value = .plain then (w.setKey value key).bind (parseFrom · rest) else none
      | some _, none, [] => none
      | none, some _, _ => none
      | none, none, rest =>
        match (Switch.ofName? name).bind w.setSwitch with
        | some (.more w') => parseFrom w' rest
        | some (.answer line) => some line
        | none => none

/-- What the arguments after the program's name ask for. -/
def parse (args : List String) : Option CommandLine :=
  parseFrom {} args

/-! ## Running -/

/-- How the program is called. -/
def usage : String := s!"Usage: {programName} [OPTIONS] --output <OUTPUT>"

/-- The text that `--help` asks for. -/
def helpText : String :=
  String.intercalate "\n" [
    "Build deterministic, reproducible tar archives from files and directory trees.",
    "Arguments starting with '@' are read from the named file, one per line.",
    "",
    usage,
    "",
    "Options:",
    "      --output <OUTPUT>           The archive to write",
    "      --file <SRC=DEST>           A file or a directory tree to add",
    "      --link <LINK=TARGET>        A symbolic link to add",
    "      --mode <MODE>               The mode of added files, in octal",
    "      --directory <DIRECTORY>     The directory to store everything in",
    "      --owner <UID.GID>           The owner of all entries, in numbers",
    "      --owner_name <USER.GROUP>   The owner of all entries, by name",
    "      --mtime <MTIME>             The modification time: seconds or \"portable\"",
    "      --config <CONFIG>           The settings file",
    "      --allow-duplicates          Keep every file of one name",
    "  -v, --verbose                   More messages",
    "  -h, --help                      This text",
    "  -V, --version                   The version",
    ""]

/-- What `--version` asks for. -/
def versionText : String := s!"{programName} {programVersion}\n"

/-- The status after doing what was asked for. -/
def success : Nat := 0

/-- The status after failing to do it. -/
def failed : Nat := 1

/-- The status after not understanding it. -/
def misused : Nat := 2

/-- What is said to somebody who was not understood. -/
def complaint : String := s!"error: the arguments are not understood\n\n{usage}\n"

/-- What is shown once it is known what is asked for. -/
def respond (fs : FileSystem) : Option CommandLine → Response
  | none => { status := misused, complaint, fileSystem := fs }
  | some .help => { status := success, text := helpText, fileSystem := fs }
  | some .version => { status := success, text := versionText, fileSystem := fs }
  | some (.build b) =>
    let built := b.run fs
    { status := if built.failure.isNone then success else failed
      failure := built.failure
      notices := built.notices
      output := built.output
      fileSystem := built.fileSystem }

/-- What the program does, given its own name and its arguments. -/
def run (fs : FileSystem) (args : List String) : Response :=
  match expandArguments fs args with
  | .error e => { status := misused, failure := some e, fileSystem := fs }
  | .ok expanded => respond fs (parse expanded.tail)

end CommandLine

end Tarball
