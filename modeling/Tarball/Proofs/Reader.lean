/-
  Reading archives.

  This is what a program that unpacks archives does.  An archive is a sequence
  of records, each a header block and its content filled up to whole blocks; it
  ends with two blocks of zeros.  A record of type `L` or `K` says more about
  the member after it: its full name, or its full link target.

  * `Item` is a member as a reader finds it, and `Member.item` what it should
    find;
  * `Reader.header?` reads a block, and refuses it if the sum is wrong;
  * `Reader.records?` cuts an archive into records, up to its end;
  * `Reader.items?` joins the records of each member, and `Reader.read?` reads a
    whole archive.
-/
import Tarball.Entry

namespace Tarball

/-- A member as it is found in an archive. -/
structure Item where
  name : Bytes
  kind : Kind
  size : Nat
  mode : Nat
  mtime : Nat
  userId : Nat
  groupId : Nat
  userName : Bytes
  groupName : Bytes
  /-- Where a link leads; an empty text is none. -/
  target : Option Bytes
  content : Bytes
  deriving DecidableEq, Repr

namespace Reader

/-! ## Fields -/

/-- A step of reading: it takes bytes off the front. -/
abbrev Scan := StateT Bytes Option

theorem bind_eq_some {α β : Type} {x : Scan α} {f : α → Scan β} {bytes : Bytes} {r : β × Bytes} :
    (x >>= f) bytes = some r ↔ ∃ a rest, x bytes = some (a, rest) ∧ f a rest = some r := by
  simp only [bind, StateT.bind, Option.bind_eq_some_iff, Prod.exists]

/-- What has been read, if it makes sense. -/
def accept {α : Type} (a : Option α) : Scan α := fun bytes =>
  a.map fun a => (a, bytes)

/-- So many bytes. -/
def take (n : Nat) : Scan Bytes := fun bytes =>
  if n ≤ bytes.length then some (bytes.take n, bytes.drop n) else none

/-- A text, up to its first NUL. -/
def upToNul (field : Bytes) : Bytes :=
  field.takeWhile (· ≠ 0)

/-- The number that bytes spell in a base, each standing for a digit. -/
def value (base : Nat) (digit : UInt8 → Nat) (bytes : Bytes) : Nat :=
  bytes.foldl (fun v b => v * base + digit b) 0

/-- Whether a byte is an octal digit. -/
def isOctalDigit (b : UInt8) : Bool := 0x30 ≤ b && b ≤ 0x37

/-- The digit that a byte shows. -/
def octalDigit (b : UInt8) : Nat := b.toNat - 0x30

/-- Octal digits, blanks in front of them and a blank or a NUL after them. -/
def octal? (field : Bytes) : Option Nat :=
  let body := field.dropWhile (· = 0x20)
  let digits := body.takeWhile isOctalDigit
  let after := (body.dropWhile isOctalDigit).head?
  if digits ≠ [] ∧ after.all (fun b => b = 0 ∨ b = 0x20) then some (value 8 octalDigit digits)
  else none

/-- A number: in base 256 if the highest bit of its first byte is set, otherwise
    in octal digits. -/
def number? : Bytes → Option Nat
  | [] => none
  | b :: rest =>
    if 0x80 ≤ b then some (value 256 UInt8.toNat ((b - 0x80) :: rest)) else octal? (b :: rest)

/-- A text in a field of a width. -/
def text (width : Nat) : Scan Bytes := do
  pure (upToNul (← take width))

/-- A number in a field of a width. -/
def number (width : Nat) : Scan Nat := do
  accept (number? (← take width))

/-! ## Headers -/

/-- What a header block says. -/
structure Fields where
  name : Bytes
  mode : Nat
  userId : Nat
  groupId : Nat
  size : Nat
  mtime : Nat
  checksum : Nat
  typeFlag : UInt8
  linkName : Bytes
  magic : Bytes
  userName : Bytes
  groupName : Bytes
  deriving DecidableEq, Repr

/-- The fields of a header, in their order. -/
def fields : Scan Fields := do
  let name ← text 100
  let mode ← number 8
  let userId ← number 8
  let groupId ← number 8
  let size ← number 12
  let mtime ← number 12
  let checksum ← number 8
  let typeFlag ← take 1
  let linkName ← text 100
  let magic ← take 8
  let userName ← text 32
  let groupName ← text 32
  pure
    { name, mode, userId, groupId, size, mtime, checksum, typeFlag := typeFlag.headD 0, linkName,
      magic, userName, groupName }

/-- The sum of a block's bytes, the place of the sum taken as blank. -/
def blockSum (block : Bytes) : Nat :=
  Header.sum (block.take 148 ++ Header.blankSum ++ block.drop 156)

/-- A header block of the format whose sum is right. -/
def header? (block : Bytes) : Option Fields := do
  let f ← fields.run' block
  if f.magic = Header.magic ∧ f.checksum = blockSum block then some f else none

/-! ## Records -/

/-- A header with the content that follows it. -/
structure Record where
  fields : Fields
  content : Bytes
  deriving DecidableEq, Repr

/-- How many bytes fill content up to whole blocks. -/
def fill (size : Nat) : Nat := (512 - size % 512) % 512

/-- A record with all its blocks. -/
def record : Scan Record := do
  let f ← accept (header? (← take 512))
  let content ← take f.size
  let _ ← take (fill f.size)
  pure ⟨f, content⟩

theorem take_eq_some {n : Nat} {bytes field rest : Bytes} (h : take n bytes = some (field, rest)) :
    rest.length + n = bytes.length := by
  unfold take at h
  split at h
  · obtain ⟨-, rfl⟩ : _ ∧ bytes.drop n = rest := by simpa using h
    rw [List.length_drop]; omega
  · cases h

/-- A record takes a block at least. -/
theorem length_of_record {bytes rest : Bytes} {r : Record} (h : record bytes = some (r, rest)) :
    rest.length < bytes.length := by
  simp only [record, bind_eq_some, accept, Option.map_eq_some_iff, Prod.mk.injEq] at h
  obtain ⟨block, b₁, h₁, f, b₂, ⟨_, -, -, rfl⟩, content, b₃, h₃, _, b₄, h₄, hr⟩ := h
  have hrest : some (Record.mk f content, b₄) = some (r, rest) := hr
  cases hrest
  have := take_eq_some h₁
  have := take_eq_some h₃
  have := take_eq_some h₄
  omega

/-- The two blocks that end an archive. -/
def ending : Bytes := List.replicate 1024 0

/-- The records of an archive, and what follows its end. -/
def records? (bytes : Bytes) : Option (List Record × Bytes) :=
  if bytes.take 1024 = ending then some ([], bytes.drop 1024)
  else
    match _h : record bytes with
    | none => none
    | some (r, rest) => (records? rest).map fun (rs, left) => (r :: rs, left)
  termination_by bytes.length
  decreasing_by exact length_of_record _h

/-! ## Members -/

/-- What records before a member have said about it. -/
structure Pending where
  name : Option Bytes := none
  target : Option Bytes := none
  deriving DecidableEq, Repr

/-- The name that marks a record about the member after it. -/
def longName : Bytes := bytesOf "././@LongLink"

/-- The content of such a record: a text, without the NUL that closes it. -/
def longText (content : Bytes) : Bytes :=
  if content.getLast? = some 0 then content.dropLast else content

/-- The kind that a byte stands for. -/
def kind? (typeFlag : UInt8) : Option Kind :=
  if typeFlag = 0x30 then some .file
  else if typeFlag = 0x35 then some .directory
  else if typeFlag = 0x32 then some .symlink
  else none

/-- A text that is there only if it is not empty. -/
def present (text : Bytes) : Option Bytes :=
  if text = [] then none else some text

/-- The member that a record is, with what was said about it before. -/
def item? (pending : Pending) (r : Record) : Option Item :=
  (kind? r.fields.typeFlag).map fun kind =>
    { name := pending.name.getD r.fields.name
      kind := kind
      size := r.fields.size
      mode := r.fields.mode
      mtime := r.fields.mtime
      userId := r.fields.userId
      groupId := r.fields.groupId
      userName := r.fields.userName
      groupName := r.fields.groupName
      target := present (pending.target.getD r.fields.linkName)
      content := r.content }

/-- The members that records make up.  At the end nothing may be left that was
    said about a member to come. -/
def items? (pending : Pending) : List Record → Option (List Item)
  | [] => if pending = {} then some [] else none
  | r :: rs =>
    if r.fields.typeFlag = 0x4C ∧ r.fields.name = longName then
      items? { pending with name := some (longText r.content) } rs
    else if r.fields.typeFlag = 0x4B ∧ r.fields.name = longName then
      items? { pending with target := some (longText r.content) } rs
    else do
      let item ← item? pending r
      let rest ← items? {} rs
      pure (item :: rest)

/-- The members of an archive, and what follows its end. -/
def read? (bytes : Bytes) : Option (List Item × Bytes) := do
  let (rs, left) ← records? bytes
  let items ← items? {} rs
  pure (items, left)

end Reader

/-- A member as a reader should find it. -/
def Member.item (m : Member) : Item where
  name := bytesOf m.entry.storedName
  kind := m.entry.kind
  size := m.entry.size.toNat
  mode := m.entry.mode.toNat
  mtime := m.entry.mtime.toNat
  userId := m.entry.owner.userId.toNat
  groupId := m.entry.owner.groupId.toNat
  userName := bytesOf m.entry.owner.userName
  groupName := bytesOf m.entry.owner.groupName
  target := m.entry.target.bind fun t => Reader.present (bytesOf t)
  content := m.content

end Tarball
