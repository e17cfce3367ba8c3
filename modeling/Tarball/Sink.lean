/-
  Where the bytes of an archive go.

  A sink takes bytes one write after the other.  It may have room for so many
  only: the write that does not fit is stored as far as it fits, and refused.

  * `Sink.contents` is all that a sink holds, and `Sink.contentsSince` what it
    holds beyond an earlier state (`contents_append_contentsSince`);
  * `Sink.write` adds bytes at the end, all or as many as there is room for
    (`contents_push`);
  * `Sink.copy` adds a number of bytes as they are read (`copy_of_le`: where
    reading gives enough and there is no limit, just the first ones).
-/
import Tarball.Content
import Tarball.FileSystem.Basic

namespace Tarball

/-- A store of bytes. -/
structure Sink where
  /-- What was written, the latest first. -/
  writes : List Bytes := []
  /-- How many more bytes it takes, if there is a limit. -/
  room : Option Nat := none
  /-- Why a write is refused. -/
  refusal : Cause := .sinkFull
  /-- Where a reader of the file system meets the bytes. -/
  place : Option Location := none
  deriving DecidableEq, Repr

/-- An action that writes and may fail; what was written by then stays. -/
abbrev Writing := EStateM Cause Sink

namespace Sink

/-- All that a sink holds. -/
def contents (s : Sink) : Bytes :=
  s.writes.reverse.flatten

/-- What a sink holds beyond what it held before. -/
def contentsSince (s before : Sink) : Bytes :=
  (s.writes.take (s.writes.length - before.writes.length)).reverse.flatten

/-- The part of a write that is stored. -/
def fitting (s : Sink) (bytes : Bytes) : Bytes :=
  match s.room with
  | none => bytes
  | some n => bytes.take n

/-- Whether a write is stored in full. -/
def fits (s : Sink) (bytes : Bytes) : Bool :=
  match s.room with
  | none => true
  | some n => bytes.length ≤ n

/-- The sink after a write, refused or not. -/
def push (s : Sink) (bytes : Bytes) : Sink :=
  { s with writes := s.fitting bytes :: s.writes, room := s.room.map (· - bytes.length) }

/-- A write. -/
def write (bytes : Bytes) : Writing Unit := fun s =>
  if s.fits bytes then .ok () (s.push bytes) else .error s.refusal (s.push bytes)

@[simp] theorem contents_push (s : Sink) (bytes : Bytes) :
    (s.push bytes).contents = s.contents ++ s.fitting bytes := by
  simp [contents, push]

/-- What was held before and what is held beyond it are all that is held. -/
theorem contents_append_contentsSince {s before : Sink} (h : before.writes <:+ s.writes) :
    before.contents ++ s.contentsSince before = s.contents := by
  obtain ⟨later, hw⟩ := h
  simp [contents, contentsSince, ← hw]

theorem fitting_of_fits {s : Sink} {bytes : Bytes} (h : s.fits bytes) : s.fitting bytes = bytes := by
  unfold fits at h
  unfold fitting
  split at h
  · rfl
  · next n hr => exact List.take_of_length_le (by simpa using h)

theorem write_of_room_eq_none {s : Sink} (h : s.room = none) (bytes : Bytes) :
    ∃ s', write bytes s = .ok () s' ∧ s'.room = none ∧ s'.contents = s.contents ++ bytes := by
  have hfits : s.fits bytes := by simp [fits, h]
  refine ⟨s.push bytes, if_pos hfits, by simp [push, h], ?_⟩
  rw [contents_push, fitting_of_fits hfits]

/-- As many bytes as asked for, written as they are read; with too few of them
    it is the failure that counts. -/
def copy (failure : Option Cause) : Nat → List Bytes → Writing Unit
  | 0, _ => pure ()
  | n + 1, [] => throw (failure.getD (.contentShort (n + 1)))
  | n + 1, chunk :: rest => do
    write (chunk.take (n + 1))
    copy failure (n + 1 - chunk.length) rest

/-- With enough bytes to read and no limit to the room, the first of them are
    written, whatever pieces they come in. -/
theorem copy_of_le (failure : Option Cause) {n : Nat} {chunks : List Bytes} {s : Sink}
    (hroom : s.room = none) (h : n ≤ chunks.flatten.length) :
    ∃ s', copy failure n chunks s = .ok () s' ∧ s'.room = none ∧
      s'.contents = s.contents ++ chunks.flatten.take n := by
  induction chunks generalizing n s with
  | nil =>
    obtain rfl : n = 0 := by simpa using h
    exact ⟨s, rfl, hroom, by simp⟩
  | cons chunk rest ih =>
    cases n with
    | zero => exact ⟨s, rfl, hroom, by simp⟩
    | succ n =>
      have hfits : s.fits (chunk.take (n + 1)) := by simp [fits, hroom]
      have hrest : n + 1 - chunk.length ≤ rest.flatten.length := by
        simp only [List.flatten_cons, List.length_append] at h
        omega
      obtain ⟨s', hrun, hroom', hcontents⟩ :=
        ih (s := s.push (chunk.take (n + 1))) (by simp [push, hroom]) hrest
      refine ⟨s', ?_, hroom', ?_⟩
      · rw [← hrun, copy]
        simp [bind, EStateM.bind, write, hfits]
      · rw [hcontents, contents_push, fitting_of_fits hfits, List.flatten_cons,
          List.append_assoc, List.take_append]

end Sink

end Tarball
