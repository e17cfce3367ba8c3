/-
  Blank characters.

  The characters of the Unicode property White_Space, which may surround a
  setting's value without being part of it.

  * `isBlank` tells them (`isBlank_of_isWhitespace`: the ASCII ones are among
    them);
  * `trim` takes them off both ends of a text.
-/

namespace Tarball

/-- The property White_Space. -/
def isBlank (c : Char) : Bool :=
  let n := c.toNat
  (0x09 ≤ n && n ≤ 0x0D) || n == 0x20 || n == 0x85 || n == 0xA0 || n == 0x1680
    || (0x2000 ≤ n && n ≤ 0x200A) || n == 0x2028 || n == 0x2029 || n == 0x202F
    || n == 0x205F || n == 0x3000

theorem isBlank_of_isWhitespace {c : Char} (h : c.isWhitespace) : isBlank c := by
  simp only [Char.isWhitespace, Bool.or_eq_true, decide_eq_true_eq] at h
  rcases h with ((rfl | rfl) | rfl) | rfl <;> decide

/-- A text without the blanks around it. -/
def trim (cs : List Char) : List Char :=
  ((cs.dropWhile isBlank).reverse.dropWhile isBlank).reverse

/-- Blanks inside a text stay. -/
example : trim [' ', 'a', ' ', 'b', '\u2003', '\n'] = ['a', ' ', 'b'] := by decide

end Tarball
