/-
  The modification time of entries that have none of their own.

  It is left unset, given in seconds since 1970, or `portable`: the first
  second of the year 2000, which no tool refuses for being too old.

  * `Mtime.seconds` is what stands in a header;
  * `Mtime.parse` reads the written form, `Mtime.ofInteger` a whole number, and
    `Mtime.text` is the written form.
-/
import Tarball.Error
import Tarball.Numeral
import Tarball.Text.Blank

namespace Tarball

/-- A modification time as it is asked for. -/
inductive Mtime where
  | unset
  | epoch (seconds : UInt64)
  | portable
  deriving DecidableEq, Repr

namespace Mtime

/-- The seconds of `portable`, 2000-01-01 00:00:00 UTC. -/
def portableSeconds : UInt64 := 946684800

/-- The seconds since 1970 that stand in a header. -/
def seconds : Mtime → UInt64
  | unset => 0
  | epoch s => s
  | portable => portableSeconds

/-- The word for the portable time. -/
def portableWord : List Char := ['p', 'o', 'r', 't', 'a', 'b', 'l', 'e']

/-- The time written as a word or as a number, if the text is either; blanks
    around it do not count. -/
def read? (text : List Char) : Option Mtime :=
  if trim text = portableWord then some portable
  else (Numeral.readWord? (trim text)).map epoch

/-- The time a text asks for. -/
def parse (text : String) : Except Cause Mtime :=
  match read? text.toList with
  | some m => .ok m
  | none => .error (.mtime text)

/-- The time a whole number asks for: a number of seconds, not below zero. -/
def ofInteger (n : Int) : Except Cause Mtime :=
  if 0 ≤ n ∧ n.toNat < UInt64.size then .ok (epoch (UInt64.ofNat n.toNat))
  else .error (.mtime (toString n))

/-- The written form of a time. -/
def text : Mtime → String
  | unset => "0"
  | epoch s => toString s.toNat
  | portable => String.ofList portableWord

end Mtime

end Tarball
