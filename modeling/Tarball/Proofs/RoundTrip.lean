/-
  An archive reads back as what was written to it.

  As long as the sink takes everything and no step fails, the sink holds the
  members one after the other, and the end marker once the archive is closed
  (`Builder.Sound`).  Every move keeps it so; by the round trip of the format a
  reader then finds those members and nothing else.

  * `Builder.Move.sound`: what one move keeps;
  * `Step.Runs.sound`: what steps keep that succeed;
  * `Session.read?_contents`: the round trip of a whole session.
-/
import Tarball.Proofs.ReadBack
import Tarball.Proofs.Requests

namespace Tarball

/-! ## Writes that succeed or fail -/

/-- With too few bytes to read all of them are copied, and then it is the failure
    of reading that counts, or how many were missing. -/
theorem Sink.copy_of_lt (failure : Option Cause) {n : Nat} {chunks : List Bytes} {s : Sink}
    (hroom : s.room = none) (h : chunks.flatten.length < n) :
    ∃ s', copy failure n chunks s =
        .error (failure.getD (.contentShort (n - chunks.flatten.length))) s' ∧ s'.room = none ∧
      s'.contents = s.contents ++ chunks.flatten := by
  induction chunks generalizing n s with
  | nil =>
    cases n with
    | zero => exact absurd h (Nat.not_lt_zero _)
    | succ n => exact ⟨s, rfl, hroom, (List.append_nil _).symm⟩
  | cons chunk rest ih =>
    cases n with
    | zero => exact absurd h (Nat.not_lt_zero _)
    | succ n =>
      rw [List.flatten_cons, List.length_append] at h
      have hall : chunk.take (n + 1) = chunk := List.take_of_length_le (by omega)
      obtain ⟨s₁, h₁, hroom₁, hc₁⟩ := write_of_room_eq_none hroom (chunk.take (n + 1))
      obtain ⟨s', hs', hroom', hc'⟩ := ih (n := n + 1 - chunk.length) hroom₁ (by omega)
      refine ⟨s', ?_, hroom', ?_⟩
      · rw [copy, bind_of_ok h₁, hs', List.flatten_cons, List.length_append, Nat.sub_sub]
      · rw [hc', hc₁, hall, List.flatten_cons, List.append_assoc]

/-- An owner that does not fit is refused before the header is written, and after
    the records before it. -/
theorem Entry.write_of_fault {e : Entry} {cause : Cause} (h : e.owner.fault = some cause)
    (r : Reading) {s : Sink} (hroom : s.room = none) :
    ∃ s', e.write r s = .error cause s' ∧ s'.room = none ∧
      s'.contents = s.contents ++ e.longRecords := by
  obtain ⟨s₁, h₁, hroom₁, hc⟩ := Sink.write_of_room_eq_none hroom e.longRecords
  refine ⟨s₁, ?_, hroom₁, hc⟩
  rw [write, bind_of_ok h₁, h]
  rfl

/-- Content that falls short is left as it is, after a header that announces more
    of it. -/
theorem Entry.write_of_lt {e : Entry} (howner : e.owner.fault = none) {r : Reading} {s : Sink}
    (hroom : s.room = none) (h : r.bytes.length < e.size.toNat) :
    ∃ s', e.write r s =
        .error (r.failure.getD (.contentShort (e.size.toNat - r.bytes.length))) s' ∧
      s'.room = none ∧
      s'.contents = s.contents ++ (e.longRecords ++ (e.header.block ++ r.bytes)) := by
  obtain ⟨s₁, h₁, hroom₁, hc₁⟩ := Sink.write_of_room_eq_none hroom e.longRecords
  obtain ⟨s₂, h₂, hroom₂, hc₂⟩ := Sink.write_of_room_eq_none hroom₁ e.header.block
  obtain ⟨s₃, h₃, hroom₃, hc₃⟩ := Sink.copy_of_lt r.failure hroom₂ h
  refine ⟨s₃, ?_, hroom₃, ?_⟩
  · rw [write, bind_of_ok h₁]
    simp only [howner, bind_of_ok h₂, bind_of_error h₃, Reading.bytes]
  · simp only [hc₃, hc₂, hc₁, Reading.bytes, List.append_assoc]

/-- An entry that could be written to a sink without a limit has an owner that
    fits and as much content as it says. -/
theorem Entry.write_ok {e : Entry} {r : Reading} {s s' : Sink} (hroom : s.room = none)
    (h : e.write r s = .ok () s') : e.owner.fault = none ∧ e.size.toNat ≤ r.bytes.length := by
  cases howner : e.owner.fault with
  | some fault =>
    obtain ⟨s₁, herror, -⟩ := Entry.write_of_fault howner r hroom
    rw [h] at herror
    cases herror
  | none =>
    refine ⟨rfl, Nat.le_of_not_lt fun hlt => ?_⟩
    obtain ⟨s₁, herror, -⟩ := Entry.write_of_lt howner hroom hlt
    rw [h] at herror
    cases herror

/-! ## Archives without a flaw -/

/-- A builder whose sink holds just its members, and the end of the archive if it
    is closed. -/
structure Builder.Sound (b : Builder) : Prop where
  room : b.sink.room = none
  contents : b.sink.contents =
    b.members.flatMap Member.encode ++ if b.isOpen then [] else endMarker
  whole : ∀ m ∈ b.members, m.Whole

namespace Builder

/-- No move opens an archive again. -/
theorem Move.isOpen {places : Placement → Prop} {b b' : Builder} (h : Move places b b')
    (hopen : b'.isOpen) : b.isOpen := by
  cases h with
  | store place ho => exact ho
  | tell notice => exact hopen
  | close ho hw => exact ho

/-- From one builder to another that is open still: what the sink gains are the new
    members. -/
structure Grows (b b' : Builder) : Prop where
  room : b'.sink.room = none
  written : ∃ ms, b'.members = b.members ++ ms ∧
    b'.sink.contents = b.sink.contents ++ ms.flatMap Member.encode ∧ ∀ m ∈ ms, m.Whole

theorem Grows.refl {b : Builder} (hroom : b.sink.room = none) : b.Grows b :=
  ⟨hroom, [], (List.append_nil _).symm, (List.append_nil _).symm, by simp⟩

theorem Grows.trans {b₁ b₂ b₃ : Builder} (h : b₁.Grows b₂) (h' : b₂.Grows b₃) : b₁.Grows b₃ := by
  obtain ⟨ms, hmembers, hcontents, hwhole⟩ := h.written
  obtain ⟨ms', hmembers', hcontents', hwhole'⟩ := h'.written
  refine ⟨h'.room, ms ++ ms', ?_, ?_, List.forall_mem_append.2 ⟨hwhole, hwhole'⟩⟩
  · rw [hmembers', hmembers, List.append_assoc]
  · rw [hcontents', hcontents, List.flatMap_append, List.append_assoc]

/-- **A move that does not close an archive** writes the members that are new. -/
theorem Move.grows {places : Placement → Prop} {b b' : Builder} (h : Move places b b')
    (hroom : b.sink.room = none) (hopen : b'.isOpen) : b.Grows b' := by
  cases h with
  | @store p n e content claimed s _ ho _ _ _ _ _ hw =>
    obtain ⟨howner, hsize⟩ := Entry.write_ok hroom hw
    obtain ⟨s', hw', hroom', hs'⟩ := Entry.write_of_le hroom howner hsize
    obtain rfl : s = s' := by rw [hw] at hw'; cases hw'; rfl
    refine ⟨hroom', [⟨e, content.bytes.take e.size.toNat⟩], members_record _ _, ?_, ?_⟩
    · rw [List.flatMap_singleton]
      exact hs'
    · intro m hm
      rw [List.mem_singleton.1 hm]
      exact ⟨howner, by rw [List.length_take, Nat.min_eq_left hsize]⟩
  | tell notice => exact ⟨hroom, [], (List.append_nil _).symm, (List.append_nil _).symm, by simp⟩
  | close ho hw => cases hopen

theorem Moves.grows {places : Placement → Prop} {b b' : Builder} (h : Moves places b b')
    (hroom : b.sink.room = none) (hopen : b'.isOpen) : b.Grows b' := by
  induction h with
  | refl => exact .refl hroom
  | tail _ hm ih =>
    have hfirst := ih (hm.isOpen hopen)
    exact hfirst.trans (hm.grows hfirst.room hopen)

/-- **A move keeps a builder without a flaw.** -/
theorem Move.sound {places : Placement → Prop} {b b' : Builder} (h : Move places b b')
    (hb : b.Sound) : b'.Sound := by
  have hcontents := hb.contents
  by_cases hopen : b'.isOpen
  · obtain ⟨hroom, ms, hmembers, hgained, hwhole⟩ := h.grows hb.room hopen
    rw [if_pos (h.isOpen hopen), List.append_nil] at hcontents
    refine ⟨hroom, ?_, ?_⟩
    · rw [if_pos hopen, List.append_nil, hgained, hmembers, List.flatMap_append, hcontents]
    · rw [hmembers]
      exact List.forall_mem_append.2 ⟨hb.whole, hwhole⟩
  · cases h with
    | store _ ho => exact absurd ho hopen
    | tell notice => exact ⟨hb.room, hcontents, hb.whole⟩
    | @close s ho hw =>
      obtain ⟨s', hw', hroom', hs'⟩ := Sink.write_of_room_eq_none hb.room endMarker
      obtain rfl : s = s' := by rw [hw] at hw'; cases hw'; rfl
      refine ⟨hroom', ?_, hb.whole⟩
      rw [if_pos ho, List.append_nil] at hcontents
      rw [hs', hcontents]
      rfl

theorem Moves.sound {places : Placement → Prop} {b b' : Builder} (h : Moves places b b')
    (hb : b.Sound) : b'.Sound := by
  induction h with
  | refl => exact hb
  | tail _ hm ih => exact hm.sound ih

/-- A builder on an empty sink that takes everything has no flaw. -/
theorem sound_fresh (o : Options) {sink : Sink} (hroom : sink.room = none)
    (hempty : sink.contents = []) : (fresh o sink).Sound :=
  ⟨hroom, hempty, fun _ hm => absurd hm List.not_mem_nil⟩

/-- An archive that was closed is not open. -/
theorem isOpen_of_close {b b' : Builder} (h : close b = .ok () b') : b'.isOpen = false := by
  rw [close_eq] at h
  split at h
  · unfold writing at h
    split at h
    · cases h; rfl
    · cases h
  · next ho => cases h; simpa using ho

theorem isOpen_of_finish {b b' : Builder} (h : finish b = .ok () b') : b'.isOpen = false := by
  obtain ⟨-, hclose⟩ := requireOpen_bind_ok h
  exact isOpen_of_close hclose

theorem sound_start {o : Options} {sink : Sink} {b : Builder} (hroom : sink.room = none)
    (hempty : sink.contents = []) (h : start o sink = .ok () b) : b.Sound := by
  have hmoves : Moves _ (fresh o sink) b := (start_does o sink).ok h
  exact hmoves.sound (sound_fresh o hroom hempty)

end Builder

namespace Step

/-- Whether a step ends an archive. -/
def Ends (s : Step) : Prop := s = .close ∨ s = .finish

/-- **Steps that succeed keep an archive without a flaw.** -/
theorem Runs.sound {fs : FileSystem} {steps : List Step} {b b' : Builder} (h : Runs fs b steps b')
    (hb : b.Sound) : b'.Sound := by
  induction h with
  | nil => exact hb
  | @cons s _ b _ _ first _ ih =>
    have hmoves : Builder.Moves _ b _ := (s.does fs b).ok first
    exact ih (hmoves.sound hb)

/-- An archive that was ended last is not open. -/
theorem Runs.isOpen {fs : FileSystem} {steps : List Step} {ending : Step} {b b' : Builder}
    (hend : ending.Ends) (h : Runs fs b (steps ++ [ending]) b') : b'.isOpen = false := by
  induction steps generalizing b with
  | nil =>
    cases h with
    | cons first rest =>
      cases rest
      rcases hend with rfl | rfl
      · exact Builder.isOpen_of_close first
      · exact Builder.isOpen_of_finish first
  | cons s steps ih =>
    cases h with
    | cons first rest => exact ih rest

end Step

/-! ## Sessions -/

/-- Whether a step did what was asked. -/
def Outcome.Succeeds (o : Outcome) : Prop := o.failure = none

instance (o : Outcome) : Decidable o.Succeeds := inferInstanceAs (Decidable (_ = _))

theorem Outcome.ofResult_succeeds {r : EStateM.Result Cause Builder Unit}
    (h : (Outcome.ofResult r).Succeeds) : r = .ok () (Outcome.ofResult r).builder := by
  cases r with
  | ok => rfl
  | error => cases h

theorem Outcome.exists_of_failure {r : EStateM.Result Cause Builder Unit} {cause : Cause}
    (h : (Outcome.ofResult r).failure = some cause) : ∃ b, r = .error cause b := by
  cases r with
  | ok => cases h
  | error _ b => cases h; exact ⟨b, rfl⟩

/-- Where all outcomes are a success the steps have run one after the other. -/
theorem Step.runs_runAll {fs : FileSystem} {b : Builder} {steps : List Step}
    (h : ∀ x ∈ runAll fs b steps, x.2.Succeeds) :
    Runs fs b ((runAll fs b steps).map Prod.fst)
      (((runAll fs b steps).getLast?.map (·.2.builder)).getD b) := by
  induction steps generalizing b with
  | nil => exact .nil b
  | cons s rest ih =>
    have hfirst := Outcome.ofResult_succeeds (h _ List.mem_cons_self)
    rw [runAll] at h ⊢
    refine .cons hfirst ?_
    rw [List.getLast?_cons, Option.map_some, Option.getD_some]
    by_cases hs : s = .finish
    · rw [if_pos hs]; exact .nil _
    · rw [if_neg hs] at h ⊢
      have hrest := ih fun x hx => h x (List.mem_cons_of_mem _ hx)
      cases hlast : (runAll fs (Outcome.ofResult (s.run fs b)).builder rest).getLast? with
      | none => rw [hlast] at hrest; exact hrest
      | some x => rw [hlast] at hrest; exact hrest

/-- Where the last step asked for ends the archive, so does the last one done. -/
theorem Step.runAll_ends {fs : FileSystem} {ending : Step} (hend : ending.Ends) (b : Builder)
    (steps : List Step) : ∃ done last, last.Ends ∧
      (runAll fs b (steps ++ [ending])).map Prod.fst = done ++ [last] := by
  induction steps generalizing b with
  | nil =>
    refine ⟨[], ending, hend, ?_⟩
    rw [List.nil_append, runAll]
    split <;> rfl
  | cons s steps ih =>
    rw [List.cons_append, runAll]
    by_cases hs : s = .finish
    · exact ⟨[], s, .inr hs, by rw [if_pos hs]; rfl⟩
    · obtain ⟨done, last, hlast, hdone⟩ := ih (Outcome.ofResult (s.run fs b)).builder
      refine ⟨s :: done, last, hlast, ?_⟩
      rw [if_neg hs, List.map_cons, hdone]
      rfl

namespace Session

/-- Whether all steps of a session did what was asked. -/
structure Succeeds (s : Session) : Prop where
  opening : s.opening.Succeeds
  steps : ∀ x ∈ s.steps, x.2.Succeeds

instance (s : Session) : Decidable s.Succeeds :=
  decidable_of_iff (s.opening.Succeeds ∧ ∀ x ∈ s.steps, x.2.Succeeds)
    ⟨fun h => ⟨h.1, h.2⟩, fun h => ⟨h.opening, h.steps⟩⟩

/-- The steps that were done. -/
def done (s : Session) : List Step := s.steps.map Prod.fst

variable {fs : FileSystem} {o : Options} {sink : Sink} {steps : List Step}

/-- A session that succeeds is an archive opened and its steps run. -/
theorem runs_of_succeeds (h : (run fs o sink steps).Succeeds) :
    ∃ begun, Builder.start o sink = .ok () begun ∧
      (run fs o sink steps).steps = Step.runAll fs begun steps ∧
      Step.Runs fs begun (run fs o sink steps).done (run fs o sink steps).last := by
  cases hstart : Builder.start o sink with
  | error cause begun =>
    have hopening : (run fs o sink steps).opening = ⟨some cause, begun⟩ := by
      simp only [run, hstart, Outcome.ofResult]
    have hfailure := h.opening
    rw [hopening] at hfailure
    cases hfailure
  | ok _ begun =>
    have hsteps : (run fs o sink steps).steps = Step.runAll fs begun steps := by
      simp only [run, hstart, Outcome.ofResult]
    have hopening : (run fs o sink steps).opening = ⟨none, begun⟩ := by
      simp only [run, hstart, Outcome.ofResult]
    refine ⟨begun, rfl, hsteps, ?_⟩
    have hruns := Step.runs_runAll (hsteps ▸ h.steps)
    have hlast : (run fs o sink steps).last =
        ((Step.runAll fs begun steps).getLast?.map (·.2.builder)).getD begun := by
      rw [last, hsteps, hopening]
      cases (Step.runAll fs begun steps).getLast? <;> rfl
    rw [done, hsteps, hlast]
    exact hruns

/-- **An archive reads back as what was written to it**, and nothing follows it.
    What was written follows from what was asked for, where nothing can be read
    of what is written. -/
theorem read?_contents {ending : Step} (hend : ending.Ends) (hroom : sink.room = none)
    (hempty : sink.contents = []) (h : (run fs o sink (steps ++ [ending])).Succeeds)
    (hreadable : ∀ m ∈ (run fs o sink (steps ++ [ending])).last.members, m.entry.Readable) :
    let s := run fs o sink (steps ++ [ending])
    let root := (Builder.fresh o sink).root
    Reader.read? s.last.sink.contents = some (s.last.members.map Member.item, []) ∧
      (sink.place = none → s.last.members = (Builder.fresh o sink).adding []
        (rootRequest root ++ s.done.flatMap (Step.requests fs root))) := by
  intro s root
  obtain ⟨begun, hstart, hsteps, hruns⟩ := runs_of_succeeds h
  have hadds := Builder.start_adds hstart
  constructor
  · have hsound : s.last.Sound := hruns.sound (Builder.sound_start hroom hempty hstart)
    have hclosed : s.last.isOpen = false := by
      obtain ⟨done, last, hlast, hdone⟩ := Step.runAll_ends hend begun steps
      rw [Session.done, hsteps, hdone] at hruns
      exact hruns.isOpen hlast
    have hcontents := hsound.contents
    rw [hclosed, if_neg Bool.false_ne_true] at hcontents
    rw [hcontents]
    exact Reader.read?_encode hsound.whole hreadable
  · intro hplace
    have hrest := hruns.adds hadds.tallied (hadds.like.place.trans hplace)
    rw [hadds.like.root] at hrest
    exact (hadds.trans hrest).members

/-- A link, a file of its name, and a file whose name does not fit a header. -/
def sampleSteps : List Step :=
  [.add (.symlink "a/there" "../elsewhere"), .add (.file "a/there" (.bytes [1])),
    .add (.file (String.ofList (List.replicate 120 'n')) (.bytes [2, 3]))]

theorem read?_contents_sample :
    let s := run {} { root := some "pkg", duplicates := .keepFirst } {} (sampleSteps ++ [.finish])
    Reader.read? s.last.sink.contents = some (s.last.members.map Member.item, []) ∧
      s.last.members.map (·.entry.storedName) = ["pkg/", "pkg/a/", "pkg/a/there",
        "pkg/" ++ String.ofList (List.replicate 120 'n')] := by
  refine ⟨(read?_contents (.inr rfl) rfl rfl ?_ ?_).1, ?_⟩
  · decide +kernel
  · decide +kernel
  · decide +kernel

end Session

end Tarball
