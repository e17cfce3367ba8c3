/-
  Permission bits given as a setting.

  * `Permissions.parse` reads an octal number, with or without `0o` in front and
    with blanks around it, of at most twelve bits.
-/
import Tarball.Error
import Tarball.Numeral
import Tarball.Text.Blank

namespace Tarball.Permissions

/-- An octal number without the `0o` it may start with. -/
def dropPrefix : List Char → List Char
  | '0' :: 'o' :: rest => rest
  | cs => cs

/-- All the permission bits that a file can have. -/
def all : Nat := 0o7777

/-- The permission bits a text asks for.  A number that does not even fit a
    word of 32 bits is refused like one that is not octal. -/
def parse (text : String) : Except Cause UInt32 :=
  match Numeral.read? 8 UInt32.size (dropPrefix (trim text.toList)) with
  | none => .error (.setting (.modeNotOctal text))
  | some n =>
    if n ≤ all then .ok (UInt32.ofNat n) else .error (.setting (.modeTooLarge text))

end Tarball.Permissions
