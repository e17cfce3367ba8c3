/-
  Archive members as they are written.

  A member is a header block and its content, filled up with zeros to whole
  blocks.  A name or a link target that is too long for the header goes before
  it, as the content of a record of its own.

  * `Entry` is all that is said about a member, and `Entry.header` its header;
  * `Entry.longRecords` are the records before it;
  * `Member` is an entry with its content, and `Member.encode` all of its bytes;
  * `Entry.write` writes records, header and content, in this order
    (`Entry.write_of_le`: where nothing stands in the way, the bytes of the
    member).
-/
import Tarball.Header.Block
import Tarball.Kind
import Tarball.Setting.Owner
import Tarball.Sink

namespace Tarball

/-- The zeros that fill content up to whole blocks. -/
def padding (size : Nat) : Bytes :=
  Header.zeros ((Header.blockLength - size % Header.blockLength) % Header.blockLength)

/-- Content and its padding are whole blocks. -/
theorem blockLength_dvd_add_padding (size : Nat) :
    Header.blockLength ∣ size + (padding size).length := by
  simp only [padding, Header.length_zeros, Header.blockLength]
  omega

/-- What is said about a member. -/
structure Entry where
  name : String
  kind : Kind
  size : UInt64 := 0
  mode : UInt32
  mtime : UInt64
  owner : Owner := {}
  /-- Where a link leads. -/
  target : Option String := none
  deriving DecidableEq, Repr

/-- Why the name of a user or a group does not fit a header. -/
def OwnerFault.ofName (name : String) : Option OwnerFault :=
  if Header.ownerWidth < (bytesOf name).length then some .tooLong
  else if 0 ∈ bytesOf name then some .hasNul
  else none

/-- Why the names of an owner do not fit a header, the user first. -/
def Owner.fault (o : Owner) : Option Cause :=
  (OwnerFault.ofName o.userName).map (.owner .user · "") <|>
    (OwnerFault.ofName o.groupName).map (.owner .group · o.userName)

/-- What a record before a header says about the member. -/
inductive LongRecord where
  | name
  | target
  deriving DecidableEq, Repr

namespace LongRecord

/-- The byte for a record in its header. -/
def typeFlag : LongRecord → UInt8
  | name => 0x4C
  | target => 0x4B

/-- The name in the header of every record. -/
def recordName : Bytes := bytesOf "././@LongLink"

/-- The content of a record: a text closed by a NUL. -/
def content (text : Bytes) : Bytes := text ++ [0]

/-- The header of a record. -/
def header (field : LongRecord) (text : Bytes) : Header where
  name := recordName
  mode := Kind.file.mode
  size := UInt64.ofNat (content text).length
  typeFlag := field.typeFlag

/-- A record in full. -/
def encode (field : LongRecord) (text : Bytes) : Bytes :=
  (field.header text).block ++ content text ++ padding (content text).length

/-- The record for a text, if the header has no room for it. -/
def encodeIfLong (field : LongRecord) (text : Bytes) : Bytes :=
  if Header.nameWidth < text.length then field.encode text else []

end LongRecord

namespace Entry

/-- The name in the header, by which a directory can be told. -/
def storedName (e : Entry) : String :=
  match e.kind with
  | .directory => e.name ++ "/"
  | .file | .symlink => e.name

/-- The link target in the header, empty if there is none. -/
def linkName (e : Entry) : String :=
  e.target.getD ""

/-- The header of a member. -/
def header (e : Entry) : Header where
  name := bytesOf e.storedName
  mode := e.mode
  userId := e.owner.userId
  groupId := e.owner.groupId
  size := e.size
  mtime := e.mtime
  typeFlag := e.kind.typeFlag
  linkName := bytesOf e.linkName
  userName := bytesOf e.owner.userName
  groupName := bytesOf e.owner.groupName

/-- The records before the header. -/
def longRecords (e : Entry) : Bytes :=
  LongRecord.name.encodeIfLong (bytesOf e.storedName) ++
    LongRecord.target.encodeIfLong (bytesOf e.linkName)

/-- The writing of a member.  An owner that does not fit is found after the
    records have been written. -/
def write (e : Entry) (content : Reading) : Writing Unit := do
  Sink.write e.longRecords
  if let some fault := e.owner.fault then throw fault
  Sink.write e.header.block
  Sink.copy content.failure e.size.toNat content.chunks
  Sink.write (padding e.size.toNat)

end Entry

/-- A member: what is said about it, and its content. -/
structure Member where
  entry : Entry
  content : Bytes
  deriving DecidableEq, Repr

/-- All bytes of a member. -/
def Member.encode (m : Member) : Bytes :=
  m.entry.longRecords ++ m.entry.header.block ++ m.content ++ padding m.entry.size.toNat

/-- With an owner that fits, enough content and no limit to the room, writing an
    entry adds the bytes of the member. -/
theorem Entry.write_of_le {e : Entry} {r : Reading} {s : Sink} (hroom : s.room = none)
    (howner : e.owner.fault = none) (h : e.size.toNat ≤ r.bytes.length) :
    ∃ s', e.write r s = .ok () s' ∧ s'.room = none ∧
      s'.contents = s.contents ++ Member.encode ⟨e, r.bytes.take e.size.toNat⟩ := by
  obtain ⟨s₁, h₁, hroom₁, hc₁⟩ := Sink.write_of_room_eq_none hroom e.longRecords
  obtain ⟨s₂, h₂, hroom₂, hc₂⟩ := Sink.write_of_room_eq_none hroom₁ e.header.block
  obtain ⟨s₃, h₃, hroom₃, hc₃⟩ := Sink.copy_of_le r.failure hroom₂ h
  obtain ⟨s₄, h₄, hroom₄, hc₄⟩ := Sink.write_of_room_eq_none hroom₃ (padding e.size.toNat)
  refine ⟨s₄, ?_, hroom₄, ?_⟩
  · simp only [Entry.write, bind, EStateM.bind, h₁, howner, h₂, h₃, h₄]
  · simp only [hc₄, hc₃, hc₂, hc₁, Member.encode, Reading.bytes, List.append_assoc]

end Tarball
