/-
  Building an archive.

  A builder writes members as they are asked for, at once and in that order.
  Each directory on the way to a member is written before it, once; a name that
  was written as a directory is never written again.

  * `Options` is what an archive is to be like, and `Builder` one in the making;
  * `Builder.add` and `Builder.addInTree` add what a request asks for;
  * `Builder.close` and `Builder.finish` end an archive, and `Builder.drop` ends
    one that is given up;
  * `Builder.start` begins one, with its root directory as the first member.
-/
import Tarball.Entry
import Tarball.Name.Placement
import Tarball.Request
import Tarball.Setting.Mtime

namespace Tarball

/-- What happens to a name that is added again, unless it is a directory's. -/
inductive Duplicates where
  | allow
  | keepFirst
  deriving DecidableEq, Repr

/-- What an archive is to be like. -/
structure Options where
  mtime : Mtime := .unset
  /-- The directory that everything goes below. -/
  root : Option String := none
  owner : Owner := {}
  duplicates : Duplicates := .allow
  deriving DecidableEq, Repr

/-- What somebody who has an archive built should know, though it is no
    failure. -/
inductive Notice where
  | duplicate (name : String)
  | special (path : String)
  | closingFailed (report : String)
  deriving DecidableEq, Repr

/-- The words of a notice. -/
def Notice.message : Notice → String
  | duplicate name => s!"Duplicate file in archive: {name}, picking first occurrence"
  | special path => s!"Skipping special file {path}"
  | closingFailed report => s!"Failed to close archive after error: {report}"

/-- An archive in the making. -/
structure Builder where
  mtime : UInt64
  /-- The name of the directory that everything goes below. -/
  root : Option String
  owner : Owner
  duplicates : Duplicates
  sink : Sink
  isOpen : Bool := true
  /-- The names of the directories written, the latest first. -/
  directories : List String := []
  /-- The names that later entries must not have, where the first one counts. -/
  claimed : List String := []
  /-- The members written, the latest first. -/
  log : List Member := []
  /-- What there was to tell, the latest first. -/
  noticeLog : List Notice := []
  deriving DecidableEq, Repr

/-- A step in the making of an archive; what it has done when it fails stays
    done. -/
abbrev Building := EStateM Cause Builder

/-- The zeros that end an archive. -/
def endMarker : Bytes := Header.zeros (2 * Header.blockLength)

namespace Builder

/-- The members written, in their order. -/
def members (b : Builder) : List Member := b.log.reverse

/-- What there was to tell, in its order. -/
def notices (b : Builder) : List Notice := b.noticeLog.reverse

/-! ## Steps -/

/-- Writing to the archive's sink. -/
def writing (act : Writing Unit) : Building Unit := fun b =>
  match act b.sink with
  | .ok _ s => .ok () { b with sink := s }
  | .error cause s => .error cause { b with sink := s }

/-- Something to tell. -/
def tell (notice : Notice) : Building Unit :=
  modify fun b => { b with noticeLog := notice :: b.noticeLog }

/-- Nothing can be added to a closed archive. -/
def requireOpen : Building Unit := do
  unless (← get).isOpen do throw .closed

/-- The builder after a member has been written. -/
def record (m : Member) (b : Builder) : Builder :=
  { b with
    log := m :: b.log
    directories :=
      if m.entry.kind = .directory then m.entry.name :: b.directories else b.directories }

/-- The writing of a member. -/
def store (e : Entry) (content : Reading) : Building Unit := do
  writing (e.write content)
  modify (record ⟨e, content.bytes.take e.size.toNat⟩)

/-- The entry of a directory that nobody asked for by itself. -/
def directoryEntry (b : Builder) (owner : Owner) (name : String) : Entry where
  name := name
  kind := .directory
  mode := Kind.directory.mode
  mtime := b.mtime
  owner := owner

/-- A directory on the way to a member, unless it has been written. -/
def addMissing (owner : Owner) (name : String) : Building Unit := do
  let b ← get
  unless name ∈ b.directories do store (b.directoryEntry owner name) {}

/-- Whether an entry is to be written under a name.  Where the first one counts
    the name is claimed, and a later one is told about. -/
def claim (kind : Kind) (name : String) : Building Bool := do
  let b ← get
  if kind = .directory ∨ b.duplicates = .allow then pure true
  else if name ∈ b.claimed then
    tell (.duplicate name)
    pure false
  else
    set { b with claimed := name :: b.claimed }
    pure true

/-- The entry that a request asks for, under its name in the archive. -/
def entryFor (b : Builder) (r : Request) (owner : Owner) (name : String) : Entry where
  name := name
  kind := r.kind
  size := r.stored.size
  mode := r.mode.getD r.kind.mode
  mtime := r.mtime.getD b.mtime
  owner := owner
  target := r.storedTarget

/-- What a request asks for, at its place in the archive.  The root itself is
    there without being written, and only a directory can be there. -/
def addAt (r : Request) (place : Placement) : Building Unit := do
  requireOpen
  let owner := r.owner.getD (← get).owner
  place.ancestors.forM (addMissing owner)
  let b ← get
  if place.isRoot then
    unless r.kind = .directory do throw (.nameless r.name r.kind)
  else unless place.name ∈ b.directories do
    if ← claim r.kind place.name then
      store (b.entryFor r owner place.name) r.stored.reading

/-! ## Operations -/

/-- What a request asks for, placed as a single entry. -/
def add (r : Request) : Building Unit := do
  addAt r (Placement.entry (← get).root r.name)

/-- What a request asks for, placed as an item of a tree. -/
def addInTree (r : Request) : Building Unit := do
  addAt r (Placement.treeEntry (← get).root r.name)

/-- The end of an archive.  It is closed even if the end cannot be written, and
    closing it again does nothing. -/
def close : Building Unit := do
  let b ← get
  if b.isOpen then
    set { b with isOpen := false }
    writing (Sink.write endMarker)

/-- The end of an archive that is handed over: it has to be open. -/
def finish : Building Unit := do
  requireOpen
  close

/-- The builder after it has been given up: the archive is closed, if it can
    be. -/
def drop (b : Builder) : Builder :=
  match close b with
  | .ok _ b' | .error _ b' => b'

/-- A builder that has written nothing. -/
def fresh (o : Options) (sink : Sink) : Builder where
  mtime := o.mtime.seconds
  root := (o.root.map fun r => (Placement.entry none r).name).filter (· ≠ "")
  owner := o.owner
  duplicates := o.duplicates
  sink := sink

/-- The root directory, if there is to be one. -/
def addRoot : Building Unit := do
  if (← get).root.isSome then add (.directory "")

/-- A new archive, its root directory written. -/
def start (o : Options) (sink : Sink) : EStateM.Result Cause Builder Unit :=
  addRoot (fresh o sink)

end Builder

end Tarball
