/-
  The lines of a text.

  A line ends at a line feed; a carriage return right before the line feed
  belongs to the line's end too.  The text after the last line feed is a line
  as it stands, unless it is empty.

  * `textLines` cuts a text into its lines (`textLines_append`: a line followed
    by its end comes off the front).
-/

namespace Tarball

/-- A line without a carriage return at its end. -/
def dropReturn (line : List Char) : List Char :=
  if line.getLast? = some '\r' then line.dropLast else line

/-- The lines of a text whose line feeds stand between the given parts. -/
def linesOfParts : List (List Char) → List (List Char)
  | [] => []
  | [last] => if last = [] then [] else [last]
  | part :: rest => dropReturn part :: linesOfParts rest

/-- The lines of a text. -/
def textLines (text : List Char) : List (List Char) :=
  linesOfParts (text.splitOn '\n')

theorem linesOfParts_cons {part : List Char} {rest : List (List Char)} (h : rest ≠ []) :
    linesOfParts (part :: rest) = dropReturn part :: linesOfParts rest := by
  cases rest with
  | nil => exact absurd rfl h
  | cons => rfl

/-- What stands before a line feed is the first line, and the lines after it
    are those of the rest. -/
theorem textLines_append {line : List Char} (rest : List Char) (h : '\n' ∉ line) :
    textLines (line ++ '\n' :: rest) = dropReturn line :: textLines rest := by
  unfold textLines
  rw [List.splitOn_append_cons_self, List.splitOn_eq_singleton (by simpa using h)]
  exact linesOfParts_cons (List.splitOn_ne_nil _ _)

/-- A carriage return is dropped before a line feed only. -/
example : textLines ['x', '\r', '\n', '\n', 'y', '\r'] = [['x'], [], ['y', '\r']] := by decide

end Tarball
