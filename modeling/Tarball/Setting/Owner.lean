/-
  The owner recorded for entries.

  It is two numbers and two names, for a user and a group, and never taken
  from the machine.

  * `Owner` holds them;
  * `Owner.readNumbers` and `Owner.readNames` read a user and a group written with
    a dot between them.
-/
import Tarball.Error
import Tarball.Numeral

namespace Tarball

/-- The owner of an entry. -/
structure Owner where
  userId : UInt64 := 0
  groupId : UInt64 := 0
  userName : String := ""
  groupName : String := ""
  deriving DecidableEq, Repr

namespace Owner

/-- The parts of a text before and after its first dot. -/
def splitAtDot (text : List Char) : Option (List Char × List Char) :=
  match text.dropWhile (· ≠ '.') with
  | [] => none
  | _ :: after => some (text.takeWhile (· ≠ '.'), after)

/-- The numbers of a user and a group. -/
def readNumbers (text : String) : Except Cause (UInt64 × UInt64) :=
  match splitAtDot text.toList with
  | none => .error (.setting (.ownerNotPair text))
  | some (user, group) =>
    match Numeral.readWord? user, Numeral.readWord? group with
    | some u, some g => .ok (u, g)
    | _, _ => .error (.setting (.ownerNotNumeric text))

/-- The names of a user and a group. -/
def readNames (text : String) : Except Cause (String × String) :=
  match splitAtDot text.toList with
  | none => .error (.setting (.ownerNamesNotPair text))
  | some (user, group) => .ok (String.ofList user, String.ofList group)

end Owner

end Tarball
