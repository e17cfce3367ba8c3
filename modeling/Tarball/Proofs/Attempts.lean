/-
  What is left of writes.

  A write that breaks off leaves a part of its bytes, and the next one goes on
  after them.  On a sink that takes everything, all that is there follows from
  what was tried to be written, one entry after the other.

  * `Attempt` is an entry whose writing was tried, and `Attempt.bytes` what it
    leaves (`Entry.write_leaves`);
  * `Step.Tries` and `Builder.Tried` are the attempts of a step and of steps: the
    members that were written, and those at which a step broke off;
  * `Builder.Traced` says of a builder that its sink holds what some attempts
    leave, and its members are those that succeeded;
  * `Builder.exists_account`: so it is after all steps.
-/
import Tarball.Proofs.RoundTrip

namespace Tarball

/-- An entry whose writing was tried, and what came when its content was read. -/
structure Attempt where
  entry : Entry
  content : Reading
  deriving DecidableEq

namespace Attempt

/-- Whether the names of the owner have room in a header. -/
def Fits (a : Attempt) : Prop := a.entry.owner.fault = none

/-- Whether there was as much content as announced. -/
def Delivers (a : Attempt) : Prop := a.entry.size.toNat ≤ a.content.bytes.length

/-- Whether a member came of it. -/
def Succeeds (a : Attempt) : Prop := a.Fits ∧ a.Delivers

instance (a : Attempt) : Decidable a.Fits := inferInstanceAs (Decidable (_ = _))

instance (a : Attempt) : Decidable a.Delivers := inferInstanceAs (Decidable (_ ≤ _))

instance (a : Attempt) : Decidable a.Succeeds := inferInstanceAs (Decidable (_ ∧ _))

/-- The member that came of it, if one did. -/
def member (a : Attempt) : Member := ⟨a.entry, a.content.bytes.take a.entry.size.toNat⟩

/-- The bytes that it leaves.  The records before a header stay there without it
    if the owner does not fit, and too little content stays as it is, not filled
    up. -/
def bytes (a : Attempt) : Bytes :=
  a.entry.longRecords ++
    if a.Fits then
      a.entry.header.block ++ a.member.content ++
        if a.Delivers then padding a.entry.size.toNat else []
    else []

theorem bytes_of_succeeds {a : Attempt} (h : a.Succeeds) : a.bytes = a.member.encode := by
  rw [bytes, if_pos h.1, if_pos h.2, Member.encode]
  simp only [member, List.append_assoc]

theorem bytes_of_short {a : Attempt} (hfits : a.Fits) (h : ¬ a.Delivers) :
    a.bytes = a.entry.longRecords ++ (a.entry.header.block ++ a.content.bytes) := by
  have hall : a.content.bytes.take a.entry.size.toNat = a.content.bytes :=
    List.take_of_length_le (Nat.le_of_lt (Nat.lt_of_not_le h))
  rw [bytes, if_pos hfits, if_neg h, member, hall, List.append_nil]

theorem whole_of_succeeds {a : Attempt} (h : a.Succeeds) : a.member.Whole := by
  refine ⟨h.1, ?_⟩
  show (a.content.bytes.take a.entry.size.toNat).length = a.entry.size.toNat
  rw [List.length_take, Nat.min_eq_left h.2]

end Attempt

/-! ## Writes that break off -/

/-- **What an attempt leaves**, whether it succeeds or not. -/
theorem Entry.write_leaves (e : Entry) (r : Reading) {s : Sink} (hroom : s.room = none) :
    ∃ s', s'.room = none ∧ s'.contents = s.contents ++ Attempt.bytes ⟨e, r⟩ ∧
      (Attempt.Succeeds ⟨e, r⟩ ∧ e.write r s = .ok () s' ∨
        ¬ Attempt.Succeeds ⟨e, r⟩ ∧ ∃ cause, e.write r s = .error cause s') := by
  by_cases hfits : Attempt.Fits ⟨e, r⟩
  · have howner : e.owner.fault = none := hfits
    by_cases hdelivers : Attempt.Delivers ⟨e, r⟩
    · have hsucceeds : Attempt.Succeeds ⟨e, r⟩ := ⟨hfits, hdelivers⟩
      obtain ⟨s', hw, hroom', hc⟩ := Entry.write_of_le hroom howner hdelivers
      refine ⟨s', hroom', ?_, .inl ⟨hsucceeds, hw⟩⟩
      rw [hc, Attempt.bytes_of_succeeds hsucceeds]
      rfl
    · have hlt : r.bytes.length < e.size.toNat := Nat.lt_of_not_le hdelivers
      obtain ⟨s', hw, hroom', hc⟩ := Entry.write_of_lt howner hroom hlt
      refine ⟨s', hroom', ?_, .inr ⟨fun hsucceeds => hdelivers hsucceeds.2, _, hw⟩⟩
      rw [hc, Attempt.bytes_of_short hfits hdelivers]
  · obtain ⟨cause, howner⟩ := Option.ne_none_iff_exists'.1 hfits
    obtain ⟨s', hw, hroom', hc⟩ := Entry.write_of_fault howner r hroom
    refine ⟨s', hroom', ?_, .inr ⟨fun hsucceeds => hfits hsucceeds.1, cause, hw⟩⟩
    rw [hc, Attempt.bytes, if_neg hfits, List.append_nil]

namespace Attempt

variable {e : Entry} {r : Reading} {s s' : Sink}

theorem of_write_ok (hroom : s.room = none) (h : e.write r s = .ok () s') :
    Succeeds ⟨e, r⟩ ∧ s'.room = none ∧ s'.contents = s.contents ++ bytes ⟨e, r⟩ := by
  obtain ⟨s₁, hroom₁, hc₁, ⟨hsucceeds, hw⟩ | ⟨-, cause, hw⟩⟩ := e.write_leaves r hroom
  · rw [h] at hw; cases hw; exact ⟨hsucceeds, hroom₁, hc₁⟩
  · rw [h] at hw; cases hw

theorem of_write_error {cause : Cause} (hroom : s.room = none) (h : e.write r s = .error cause s') :
    ¬ Succeeds ⟨e, r⟩ ∧ s'.room = none ∧ s'.contents = s.contents ++ bytes ⟨e, r⟩ := by
  obtain ⟨s₁, hroom₁, hc₁, ⟨-, hw⟩ | ⟨hfails, cause', hw⟩⟩ := e.write_leaves r hroom
  · rw [h] at hw; cases hw
  · rw [h] at hw; cases hw; exact ⟨hfails, hroom₁, hc₁⟩

end Attempt

/-! ## Steps -/

/-- What a step tries to write: the members that it adds and, if it breaks off in
    the middle of a write, that one at last. -/
inductive Step.Tries (fs : FileSystem) (s : Step) (b : Builder) : List Attempt → Prop
  | whole {stored : List Attempt} (each : ∀ a ∈ stored, a.Succeeds)
      (members : (Outcome.ofResult (s.run fs b)).builder.members =
        b.members ++ stored.map Attempt.member) : Tries fs s b stored
  | broken {stored : List Attempt} {last : Attempt} (each : ∀ a ∈ stored, a.Succeeds)
      (members : (Outcome.ofResult (s.run fs b)).builder.members =
        b.members ++ stored.map Attempt.member)
      (breaks : s.Breaks fs b last.entry last.content) (fails : ¬ last.Succeeds) :
      Tries fs s b (stored ++ [last])

/-- What steps try to write, one after the other. -/
inductive Builder.Tried : Builder → List (FileSystem × Step) → List Attempt → Prop
  | nil (b : Builder) : Tried b [] []
  | cons {b : Builder} {fs : FileSystem} {s : Step} {history : List (FileSystem × Step)}
      {now later : List Attempt} (first : s.Tries fs b now)
      (rest : Tried (Outcome.ofResult (s.run fs b)).builder history later) :
      Tried b ((fs, s) :: history) (now ++ later)

namespace Builder

/-- A builder whose sink takes everything and holds what attempts have left, and
    the end of the archive if it is closed; its members came of those that
    succeeded. -/
structure Traced (attempts : List Attempt) (b : Builder) : Prop where
  room : b.sink.room = none
  contents : b.sink.contents =
    attempts.flatMap Attempt.bytes ++ if b.isOpen then [] else endMarker
  members : b.members = (attempts.filter (·.Succeeds)).map Attempt.member

section
variable {places : Placement → Prop} {attempts : List Attempt} {b b' : Builder}

/-- **A move leaves what it writes**, if it writes anything. -/
theorem Move.traced (h : Move places b b') (hb : b.Traced attempts) :
    ∃ stored, (∀ a ∈ stored, a.Succeeds) ∧ b'.members = b.members ++ stored.map Attempt.member ∧
      b'.Traced (attempts ++ stored) := by
  obtain ⟨hroom, hcontents, hmembers⟩ := hb
  cases h with
  | @store p n e content claimed s _ ho _ _ _ _ _ hw =>
    obtain ⟨hsucceeds, hroom', hc⟩ := Attempt.of_write_ok hroom hw
    have hrecord := members_record (Attempt.member ⟨e, content⟩) { b with claimed, sink := s }
    refine ⟨[⟨e, content⟩], by simpa using hsucceeds, hrecord, hroom', ?_, ?_⟩
    · rw [if_pos ho, List.append_nil] at hcontents
      have hopen : (record ⟨e, content.bytes.take e.size.toNat⟩
          { b with claimed, sink := s }).isOpen = true := ho
      rw [if_pos hopen, List.append_nil, List.flatMap_append, List.flatMap_singleton, ← hcontents]
      exact hc
    · rw [List.filter_append, List.filter_cons_of_pos (by simpa using hsucceeds), List.map_append,
        ← hmembers]
      exact hrecord
  | tell notice =>
    refine ⟨[], by simp, (List.append_nil _).symm, ?_⟩
    rw [List.append_nil]
    exact ⟨hroom, hcontents, hmembers⟩
  | @close s ho hw =>
    obtain ⟨s', hw', hroom', hc⟩ := Sink.write_of_room_eq_none hroom endMarker
    obtain rfl : s = s' := by rw [hw] at hw'; cases hw'; rfl
    refine ⟨[], by simp, (List.append_nil _).symm, ?_⟩
    rw [if_pos ho, List.append_nil] at hcontents
    rw [List.append_nil]
    refine ⟨hroom', ?_, hmembers⟩
    rw [hc, hcontents]
    rfl

theorem Moves.traced (h : Moves places b b') (hb : b.Traced attempts) :
    ∃ stored, (∀ a ∈ stored, a.Succeeds) ∧ b'.members = b.members ++ stored.map Attempt.member ∧
      b'.Traced (attempts ++ stored) := by
  induction h with
  | refl => exact ⟨[], by simp, by simp, by simpa using hb⟩
  | tail _ hm ih =>
    obtain ⟨stored, heach, hmembers, htraced⟩ := ih
    obtain ⟨more, heach', hmembers', htraced'⟩ := Move.traced hm htraced
    refine ⟨stored ++ more, ?_, ?_, ?_⟩
    · intro a ha
      exact (List.mem_append.1 ha).elim (heach a) (heach' a)
    · rw [hmembers', hmembers, List.map_append, List.append_assoc]
    · rw [← List.append_assoc]
      exact htraced'

/-- **What breaks off leaves a part of what it was writing**, if it was writing
    anything. -/
theorem Torn.traced {cause : Cause} (h : Torn places cause b b') (hb : b.Traced attempts) :
    b'.Traced attempts ∨ ∃ last : Attempt, Broken places b last.entry last.content cause b' ∧
      ¬ last.Succeeds ∧ b'.Traced (attempts ++ [last]) := by
  obtain ⟨hroom, hcontents, hmembers⟩ := hb
  cases h with
  | clean => exact .inl ⟨hroom, hcontents, hmembers⟩
  | @store _ e content hbroken =>
    right
    obtain ⟨s, hw, rfl⟩ := hbroken.written
    obtain ⟨hfails, hroom', hc⟩ := Attempt.of_write_error hroom hw
    refine ⟨⟨e, content⟩, hbroken, hfails, hroom', ?_, ?_⟩
    · rw [if_pos hbroken.isOpen, List.append_nil] at hcontents
      rw [List.flatMap_append, List.flatMap_singleton, ← hcontents, if_pos hbroken.isOpen,
        List.append_nil]
      exact hc
    · rw [List.filter_append, List.filter_cons_of_neg (by simpa using hfails), List.filter_nil,
        List.append_nil]
      exact hmembers
  | close _ hw =>
    obtain ⟨s', hw', -⟩ := Sink.write_of_room_eq_none hroom endMarker
    rw [hw] at hw'
    cases hw'

/-- **A step leaves what it tries to write.** -/
theorem step_traced (fs : FileSystem) (s : Step) (hb : b.Traced attempts) :
    ∃ now, s.Tries fs b now ∧ (Outcome.ofResult (s.run fs b)).builder.Traced (attempts ++ now) := by
  cases hrun : s.run fs b with
  | ok _ b' =>
    have hmoves : Moves _ b b' := (s.does fs b).ok hrun
    obtain ⟨stored, heach, hmembers, htraced⟩ := hmoves.traced hb
    exact ⟨stored, .whole heach (by rw [hrun]; exact hmembers), htraced⟩
  | error cause b' =>
    obtain ⟨b₁, hmoves, htorn⟩ := (s.does fs b).error hrun
    obtain ⟨stored, heach, hmembers, htraced⟩ := Moves.traced hmoves hb
    have hmembers' : (Outcome.ofResult (s.run fs b)).builder.members =
        b.members ++ stored.map Attempt.member := by
      rw [hrun, ← hmembers]
      exact htorn.members
    rcases htorn.traced htraced with htraced' | ⟨last, hbroken, hfails, htraced'⟩
    · exact ⟨stored, .whole heach hmembers', htraced'⟩
    · refine ⟨stored ++ [last], .broken heach hmembers' ⟨cause, b₁, b', hrun, hmoves, hbroken⟩
        hfails, ?_⟩
      rw [← List.append_assoc]
      exact htraced'

/-- **Steps leave what they try to write**, one after the other. -/
theorem exists_tried (hb : b.Traced attempts) (history : List (FileSystem × Step)) :
    ∃ later, b.Tried history later ∧ (b.after history).Traced (attempts ++ later) := by
  induction history generalizing b attempts with
  | nil => exact ⟨[], .nil b, by rw [List.append_nil]; exact hb⟩
  | cons x history ih =>
    obtain ⟨now, htries, htraced⟩ := step_traced x.1 x.2 hb
    obtain ⟨later, htried, htraced'⟩ := ih htraced
    refine ⟨now ++ later, .cons htries htried, ?_⟩
    rw [← List.append_assoc]
    exact htraced'

end

/-- All that was tried to be written: the root directory, when the archive was
    opened, and what the steps tried. -/
def Account (begun : Builder) (history : List (FileSystem × Step)) (attempts : List Attempt) :
    Prop :=
  ∃ opening later, attempts = opening ++ later ∧ (∀ a ∈ opening, a.Succeeds) ∧
    begun.members = opening.map Attempt.member ∧ begun.Tried history later

/-- **All that a sink holds is accounted for**, after any steps. -/
theorem exists_account {o : Options} {sink : Sink} {begun : Builder} (hroom : sink.room = none)
    (hempty : sink.contents = []) (hstart : start o sink = .ok () begun)
    (history : List (FileSystem × Step)) :
    ∃ attempts, begun.Account history attempts ∧ (begun.after history).Traced attempts := by
  have hfresh : (fresh o sink).Traced [] := ⟨hroom, hempty, rfl⟩
  have hmoves : Moves _ (fresh o sink) begun := (start_does o sink).ok hstart
  obtain ⟨opening, heach, hmembers, htraced⟩ := hmoves.traced hfresh
  obtain ⟨later, htried, htraced'⟩ := exists_tried htraced history
  exact ⟨opening ++ later, ⟨opening, later, rfl, heach, hmembers, htried⟩, htraced'⟩

end Builder

end Tarball
