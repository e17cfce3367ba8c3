/-
  Destinations given on the command line.

  A destination is read the way a shell user means it: slashes in front,
  repeated slashes and `.` say nothing, and `..` takes back the segment before
  it.  A `..` with nothing to take back stays.

  * `descend` follows one segment from a place, whose segments are listed
    innermost first (`descend_name`, `descend_back`, `descend_replicate`);
  * `plainDestination` is the plain form of a destination, `.` if nothing is
    left of it.
-/
import Tarball.Name.Segment

namespace Tarball

/-- The segment for this place. -/
def dot : Segment := ['.']

/-- The segment for the place above. -/
def dotDot : Segment := ['.', '.']

/-- One segment further from a place, given innermost segment first. -/
def descend (place : List Segment) (s : Segment) : List Segment :=
  if s = dot then place
  else if s = dotDot then
    match place with
    | [] => [dotDot]
    | last :: above => if last = dotDot then dotDot :: place else above
  else s :: place

theorem descend_dot (place : List Segment) : descend place dot = place := if_pos rfl

theorem descend_name (place : List Segment) {s : Segment} (hdot : s ≠ dot) (hup : s ≠ dotDot) :
    descend place s = s :: place := by
  unfold descend
  rw [if_neg hdot, if_neg hup]

/-- A name is taken back by `..`. -/
theorem descend_back {last : Segment} (above : List Segment) (h : last ≠ dotDot) :
    descend (last :: above) dotDot = above := by
  unfold descend
  rw [if_neg (by decide), if_pos rfl]
  exact if_neg h

/-- Another `..` is not. -/
theorem descend_replicate (n : Nat) :
    descend (List.replicate n dotDot) dotDot = List.replicate (n + 1) dotDot := by
  cases n with
  | zero => rfl
  | succ n => rfl

/-- The segments of a destination in plain form. -/
def plainSegments (dest : List Char) : List Segment :=
  ((slashed dest).foldl descend []).reverse

/-- The plain form of a destination. -/
def plainDestination (dest : String) : String :=
  match plainSegments dest.toList with
  | [] => "."
  | segs => String.ofList (joined segs)

/-- Only segments before it are taken back by a `..`. -/
example : plainDestination "/../a/./b//../c/" = "../a/c" := by decide

end Tarball
