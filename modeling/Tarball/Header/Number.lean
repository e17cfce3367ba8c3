/-
  Numbers in the fields of a header.

  A number stands in a field as octal digits, filled up with zeros in front and
  closed by a NUL.  One with too many digits stands there in base 256 instead,
  the highest bit of the first byte set.

  * `Header.digits` and `Header.bigEndian` are the last places of a number in
    base 8, as ASCII, and in base 256;
  * `Header.octal` and `Header.number` are the two ways to fill a field
    (`Header.length_octal`, `Header.length_number`: to its full width).
-/
import Tarball.Text.Utf8

namespace Tarball.Header

/-- The last octal digits of a number, as many as asked for. -/
def digits : Nat → Nat → Bytes
  | 0, _ => []
  | width + 1, n => digits width (n / 8) ++ [UInt8.ofNat (48 + n % 8)]

/-- The last bytes of a number, as many as asked for, the highest first. -/
def bigEndian : Nat → Nat → Bytes
  | 0, _ => []
  | width + 1, n => bigEndian width (n / 256) ++ [UInt8.ofNat n]

@[simp] theorem length_digits (width n : Nat) : (digits width n).length = width := by
  induction width generalizing n with
  | zero => rfl
  | succ width ih => simp [digits, ih]

@[simp] theorem length_bigEndian (width n : Nat) : (bigEndian width n).length = width := by
  induction width generalizing n with
  | zero => rfl
  | succ width ih => simp [bigEndian, ih]

/-- A byte with its highest bit set. -/
def flagged (b : UInt8) : UInt8 := b ||| 0x80

/-- A number as octal digits and a NUL. -/
def octal (width n : Nat) : Bytes :=
  digits (width - 1) n ++ [0]

/-- A number in base 256, marked by the highest bit of its first byte. -/
def binary (width n : Nat) : Bytes :=
  (bigEndian width n).modifyHead flagged

/-- A number as octal digits if the field has room for all of them, otherwise
    in base 256. -/
def number (width n : Nat) : Bytes :=
  if n < Nat.pow 8 (width - 1) then octal width n else binary width n

@[simp] theorem length_octal {width : Nat} (h : 0 < width) (n : Nat) :
    (octal width n).length = width := by
  simp only [octal, List.length_append, length_digits, List.length_singleton]
  omega

@[simp] theorem length_number {width : Nat} (h : 0 < width) (n : Nat) :
    (number width n).length = width := by
  unfold number
  split
  · exact length_octal h n
  · simp [binary]

/-- The first number that eight bytes cannot hold as octal digits. -/
example : number 8 2097152 = [0x80, 0, 0, 0, 0, 0x20, 0, 0] := by decide

end Tarball.Header
