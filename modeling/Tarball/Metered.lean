/-
  Reading with a meter.

  Content that is read while a member is written is copied bit by bit, each time as much
  as there is room for.  A meter counts the bytes that are still to come of those that
  were announced: it asks for no more of them, and refuses a reading that ends before.

  * `Reading.next` is what comes next of a reading;
  * `Metered` is a reading with a meter, and `Metered.next` what comes next through it
    (`Metered.remaining_lt`: the meter goes down);
  * `Sink.pour` is the copying.
-/
import Tarball.Sink

namespace Tarball

/-- What comes next of a reading, as much as there is room for: the beginning of the first
    piece that has anything in it.  At the end nothing comes, or the failure does. -/
def Reading.next (room : Nat) (r : Reading) : Except Cause (Bytes × Reading) :=
  match r.chunks.dropWhile List.isEmpty with
  | chunk :: rest => .ok (chunk.take room, { r with chunks := chunk.drop room :: rest })
  | [] =>
    match r.failure with
    | none => .ok ([], { r with chunks := [] })
    | some cause => .error cause

/-- A reading and how many bytes are still to be taken of it. -/
structure Metered where
  source : Reading
  remaining : Nat
  deriving DecidableEq, Repr

namespace Metered

/-- What comes next of those bytes, as much as there is room for.  When all have been taken
    nothing comes, and the reading is left alone. -/
def next (room : Nat) (m : Metered) : Except Cause (Bytes × Metered) :=
  if m.remaining = 0 ∨ room = 0 then .ok ([], m)
  else
    match m.source.next (min m.remaining room) with
    | .error cause => .error cause
    | .ok ([], _) => .error (.contentShort m.remaining)
    | .ok (bytes, source) => .ok (bytes, ⟨source, m.remaining - bytes.length⟩)

/-- Whenever something comes there is less to be taken. -/
theorem remaining_lt {room : Nat} {m rest : Metered} {bytes : Bytes}
    (h : m.next room = .ok (bytes, rest)) (hbytes : bytes ≠ []) : rest.remaining < m.remaining := by
  unfold next at h
  split at h
  · cases h
    exact absurd rfl hbytes
  next hopen =>
  split at h
  · cases h
  · cases h
  · cases h
    have hpos : 0 < m.remaining := Nat.pos_of_ne_zero fun hzero => hopen (.inl hzero)
    have hlength : 0 < bytes.length := List.length_pos_iff.2 hbytes
    show m.remaining - bytes.length < m.remaining
    omega

end Metered

/-- Copying: what comes next is written, again and again until nothing comes.  How much
    room there is may change from one time to the next. -/
def Sink.pour (room : Metered → Nat) (m : Metered) (s : Sink) :
    EStateM.Result Cause (Metered × Sink) Unit :=
  match _hnext : m.next (room m) with
  | .error cause => .error cause (m, s)
  | .ok (bytes, rest) =>
    if _hbytes : bytes = [] then .ok () (rest, s)
    else
      match write bytes s with
      | .error cause s' => .error cause (rest, s')
      | .ok _ s' => pour room rest s'
  termination_by m.remaining
  decreasing_by exact Metered.remaining_lt _hnext _hbytes

end Tarball
