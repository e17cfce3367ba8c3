/-
  Whole numbers in a settings document.

  A number is written in base ten with an optional sign and no zeros in front,
  or in base two, eight or sixteen after `0b`, `0o` or `0x`.  Between two digits
  there may be an underscore.

  * `Integer.read?` reads a number, as far as it fits a signed word.
-/
import Tarball.Setting.Document.Quotation

namespace Tarball.Integer

/-- The value of a digit of a base. -/
def digit? (base : Nat) (c : Char) : Option Nat :=
  (Quotation.hexDigit? c).filter (· < base)

/-- The digits of a number, without the underscores between them. -/
def digits? (base : Nat) (cs : List Char) : Option (List Nat) :=
  let groups := cs.splitOn '_'
  if [] ∈ groups then none else groups.flatten.mapM (digit? base)

/-- The number that digits spell. -/
def value (base : Nat) (digits : List Nat) : Nat :=
  digits.foldl (fun n d => n * base + d) 0

/-- A number in base ten without a sign.  It starts with a zero only if it is
    zero. -/
def decimal? (cs : List Char) : Option Nat :=
  if cs.head? = some '0' ∧ cs ≠ ['0'] then none else (digits? 10 cs).map (value 10)

/-- A number as it is written. -/
def written? : List Char → Option Int
  | '0' :: 'x' :: cs => (digits? 16 cs).map fun ds => (value 16 ds : Int)
  | '0' :: 'o' :: cs => (digits? 8 cs).map fun ds => (value 8 ds : Int)
  | '0' :: 'b' :: cs => (digits? 2 cs).map fun ds => (value 2 ds : Int)
  | '-' :: cs => (decimal? cs).map fun n => -(n : Int)
  | '+' :: cs => (decimal? cs).map fun n => (n : Int)
  | cs => (decimal? cs).map fun n => (n : Int)

/-- A number that fits a signed word of 64 bits. -/
def read? (cs : List Char) : Option Int :=
  (written? cs).filter fun n => Int64.minValue.toInt ≤ n ∧ n ≤ Int64.maxValue.toInt

/-- Underscores stand between digits only. -/
example : read? ['1', '_', '0'] = some 10 ∧ read? ['1', '_'] = none := by decide

end Tarball.Integer
