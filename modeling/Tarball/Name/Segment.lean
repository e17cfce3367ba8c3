/-
  Names inside an archive, as segments.

  A name leads from the archive's root down through its segments, the parts
  between slashes.  Empty parts say nothing and are left out.

  * `slashed` cuts a text at its slashes (`slashed_append`: cutting at a slash
    cuts the two sides; `slashed_joined`: it undoes `joined`);
  * `joined` writes segments with a slash between them;
  * `segments` reads a path as it is given for an entry: a leading `./` and a
    trailing slash are no part of it, and `.` alone is the root;
  * `appendSegment` writes a name one segment further down.
-/

namespace Tarball

/-- A part of a name between slashes. -/
abbrev Segment := List Char

/-- The non-empty parts of a text between its slashes. -/
def slashed (path : List Char) : List Segment :=
  (path.splitOn '/').filter (· ≠ [])

/-- The text of segments, a slash between each two. -/
def joined (segs : List Segment) : List Char :=
  ['/'].intercalate segs

@[simp] theorem slashed_nil : slashed [] = [] := rfl

/-- Cutting at a slash cuts the text before it and the text after it. -/
theorem slashed_append (p q : List Char) :
    slashed (p ++ '/' :: q) = slashed p ++ slashed q := by
  simp only [slashed, List.splitOn_append_cons_self, List.filter_append]

theorem slashed_cons_slash (p : List Char) : slashed ('/' :: p) = slashed p :=
  slashed_append [] p

/-- Cutting undoes joining. -/
theorem slashed_joined {segs : List Segment} (h : ∀ s ∈ segs, s ≠ [] ∧ '/' ∉ s) :
    slashed (joined segs) = segs := by
  rcases segs with _ | ⟨s, rest⟩
  · rfl
  · unfold slashed joined
    rw [List.splitOn_intercalate '/' (fun l hl => (h l hl).2) (by simp)]
    exact List.filter_eq_self.2 fun l hl => by simpa using (h l hl).1

/-- A path without the `./` it may start with. -/
def dropDotSlash : List Char → List Char
  | '.' :: '/' :: rest => rest
  | path => path

/-- A path without the one slash it may end with. -/
def dropLastSlash (path : List Char) : List Char :=
  if path.getLast? = some '/' then path.dropLast else path

/-- The segments of a path given for an entry. -/
def segments (path : List Char) : List Segment :=
  let body := dropLastSlash (dropDotSlash path)
  if body = ['.'] then [] else slashed body

/-- A name with one more segment. -/
def appendSegment (name segment : String) : String :=
  if name = "" ∨ name.toList.getLast? = some '/' then name ++ segment
  else name ++ "/" ++ segment

/-- A dot inside a path is a segment like any other. -/
example : segments ['.', '/', 'a', '/', '/', '.', '/'] = [['a'], ['.']] := by decide

end Tarball
