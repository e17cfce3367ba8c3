/-
  Header blocks.

  A header is a block of 512 bytes: the fields of the member that follows it,
  one after the other, and zeros up to the end.  One of the fields is the sum
  of all bytes of the block, taken with blanks in the place of that field.

  * `Header` is what one block says about a member;
  * `Header.block` is the block (`Header.length_block`: it is 512 bytes long).
-/
import Tarball.Header.Number

namespace Tarball

/-- What a header block says. -/
structure Header where
  name : Bytes
  mode : UInt32
  userId : UInt64 := 0
  groupId : UInt64 := 0
  size : UInt64
  mtime : UInt64 := 0
  typeFlag : UInt8
  linkName : Bytes := []
  userName : Bytes := []
  groupName : Bytes := []
  deriving DecidableEq, Repr

namespace Header

/-- The length of a block. -/
def blockLength : Nat := 512

/-- Zero bytes. -/
def zeros (n : Nat) : Bytes := List.replicate n 0

@[simp] theorem length_zeros (n : Nat) : (zeros n).length = n :=
  List.length_replicate

/-- The room for a member's name and for its link target. -/
def nameWidth : Nat := 100

/-- The room for the name of a user or a group. -/
def ownerWidth : Nat := 32

/-- A text in a field: cut off at its end, filled up with zeros. -/
def textField (width : Nat) (text : Bytes) : Bytes :=
  text.take width ++ zeros (width - text.length)

@[simp] theorem length_textField (width : Nat) (text : Bytes) :
    (textField width text).length = width := by
  simp only [textField, List.length_append, List.length_take, length_zeros]
  omega

/-- What stands in the place of the sum while it is taken. -/
def blankSum : Bytes := [0x20, 0x20, 0x20, 0x20, 0x20, 0x20, 0x20, 0x20]

/-- The format's name and version. -/
def magic : Bytes := [0x75, 0x73, 0x74, 0x61, 0x72, 0x20, 0x20, 0]

/-- The bytes before the place of the sum. -/
def front (h : Header) : Bytes :=
  textField nameWidth h.name ++ octal 8 h.mode.toNat ++ number 8 h.userId.toNat
    ++ number 8 h.groupId.toNat ++ number 12 h.size.toNat ++ number 12 h.mtime.toNat

/-- The bytes after the place of the sum. -/
def back (h : Header) : Bytes :=
  [h.typeFlag] ++ textField nameWidth h.linkName ++ magic ++ textField ownerWidth h.userName
    ++ textField ownerWidth h.groupName ++ zeros 183

/-- The sum of bytes. -/
def sum (bytes : Bytes) : Nat :=
  bytes.foldr (fun b total => b.toNat + total) 0

/-- The sum of a block's bytes, its own place taken as blank. -/
def checksum (h : Header) : Nat :=
  sum (h.front ++ blankSum ++ h.back)

/-- The block of a header. -/
def block (h : Header) : Bytes :=
  h.front ++ octal 8 h.checksum ++ h.back

@[simp] theorem length_front (h : Header) : h.front.length = 148 := by
  simp [front, nameWidth]

@[simp] theorem length_back (h : Header) : h.back.length = 356 := by
  simp [back, magic, nameWidth, ownerWidth]

@[simp] theorem length_block (h : Header) : h.block.length = blockLength := by
  simp [block, blockLength]

end Header

end Tarball
