/-
  Paths between quotation marks, as messages show them.

  A path is any bytes.  Shown between quotation marks, a mark, a backslash and
  every character without a shape of its own is written by an escape, and so
  is every byte that is no part of a character; what remains is printed as it
  is.

  * `Quoted.escaped` is the written form of one character;
  * `quoted` is the written form of a path.
-/
import Tarball.Text.Unprintable
import Tarball.Text.Utf8

namespace Tarball

namespace Quoted

/-- A number in base sixteen, small letters, no leading zeros. -/
def hex (n : Nat) : List Char := Nat.toDigits 16 n

/-- The written form of a character between quotation marks: the usual letters
    for tab and line ends, a backslash before a mark or a backslash, the number
    of a character without a shape. -/
def escaped (c : Char) : List Char :=
  if c = '\x00' then ['\\', '0']
  else if c = '\t' then ['\\', 't']
  else if c = '\n' then ['\\', 'n']
  else if c = '\r' then ['\\', 'r']
  else if c = '"' ∨ c = '\\' then ['\\', c]
  else if isUnprintable c then ['\\', 'u', '\x7b'] ++ hex c.toNat ++ ['\x7d']
  else [c]

/-- The written form of a byte that is no part of a character: two capital
    digits in base sixteen. -/
def byte (b : UInt8) : List Char :=
  let digit n := (Nat.digitChar n).toUpper
  ['\\', 'x', digit (b.toNat / 16), digit (b.toNat % 16)]

/-- The written form of a piece of a path. -/
def piece : Utf8.Piece → List Char
  | .whole c _ => escaped c
  | .broken bs => bs.flatMap byte

end Quoted

/-- A path between quotation marks. -/
def quoted (path : Bytes) : String :=
  String.ofList (['"'] ++ (Utf8.pieces path).flatMap Quoted.piece ++ ['"'])

/-- Marks, backslashes and controls are escaped, an apostrophe is not. -/
example : quoted (bytesOf "q'\"\\\t\x01") = "\"q'\\\"\\\\\\t\\u\x7b1\x7d\"" := by
  decide +kernel

end Tarball
