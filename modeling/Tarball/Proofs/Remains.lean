/-
  What a build leaves.

  A build whose archive could be opened closes it, whether its inputs could be added
  or not.  The archive holds the members that were written and, where an input
  failed in the middle of writing one, a part of that one after them.

  * `Assembling.Does.exists_moves` and `Builder.Traced.remains` say what is left of
    moves after which one may have broken off;
  * `Build.exists_remains`: that is what is in the output.
-/
import Tarball.Proofs.Alignment
import Tarball.Proofs.Closing
import Tarball.Proofs.Failures
import Tarball.Proofs.Output

namespace Tarball
open Builder (Move Moves Torn Traced)

/-- However a step ends, it has made some moves, and unless it succeeds one may have
    broken off. -/
theorem Assembling.Does.exists_moves {places : Placement → Prop} {act : Assembling Unit}
    {b : Builder} (h : Does places act b) : ∃ b₁, Moves places b b₁ ∧
    (stateOf (act b) = b₁ ∨ ∃ cause, Torn places cause b₁ (stateOf (act b))) ∧
    ∀ b', act b = .ok () b' → b' = b₁ := by
  cases hact : act b with
  | ok _ b₁ => exact ⟨b₁, h.ok hact, .inl rfl, fun b' heq => by cases heq; rfl⟩
  | error e b' =>
    obtain ⟨cause, b₁, hmoves, htorn⟩ := h.error hact
    exact ⟨b₁, hmoves, .inr ⟨cause, htorn⟩, fun _ heq => by cases heq⟩

/-! ## What is left -/

/-- Writes leave a sink where it is. -/
theorem Sink.Later.place {s s' : Sink} (h : s.Later s') : s'.place = s.place := by
  induction h with
  | refl => rfl
  | tail _ hpush ih =>
    obtain ⟨bytes, rfl⟩ := hpush
    exact ih

namespace Builder

variable {places : Placement → Prop} {attempts : List Attempt} {b b' : Builder}

theorem Torn.place {cause : Cause} (h : Torn places cause b b') : b'.sink.place = b.sink.place := by
  cases h with
  | clean => rfl
  | @store _ e content hbroken =>
    obtain ⟨s, hwrite, rfl⟩ := hbroken.written
    have hlater := e.write_later content b.sink
    rw [hwrite] at hlater
    exact hlater.place
  | close _ hwrite =>
    have hlater := Sink.write_later endMarker b.sink
    rw [hwrite] at hlater
    exact hlater.place

/-- Closing an archive on a sink that takes everything only ends it. -/
theorem traced_close (h : b.Traced attempts) :
    (stateOf (close b)).Traced attempts ∧ (stateOf (close b)).members = b.members ∧
      (stateOf (close b)).sink.place = b.sink.place := by
  cases ho : b.isOpen with
  | false =>
    rw [close_of_closed ho]
    exact ⟨h, rfl, rfl⟩
  | true =>
    obtain ⟨s, hwrite, hroom, hcontents⟩ := Sink.write_of_room_eq_none h.room endMarker
    have hbytes := h.contents
    rw [if_pos ho, List.append_nil] at hbytes
    rw [close_of_write ho hwrite]
    refine ⟨⟨hroom, ?_, h.members⟩, rfl, place_of_write hwrite⟩
    show s.contents = _
    rw [hcontents, hbytes]
    rfl

/-- The attempts that succeeded leave the members. -/
theorem flatMap_bytes_of_succeeds {stored : List Attempt} (h : ∀ a ∈ stored, a.Succeeds) :
    stored.flatMap Attempt.bytes = (stored.map Attempt.member).flatMap Member.encode := by
  rw [List.flatMap_map]
  exact List.flatMap_congr fun a ha => Attempt.bytes_of_succeeds (h a ha)

/-- **What is left of moves, and of one that broke off**: the members that were
    written, and a part of the one that was not. -/
theorem Traced.remains (hb : b.Traced []) {b₁ last : Builder} (hmoves : Moves places b b₁)
    (hlast : last = b₁ ∨ ∃ cause, Torn places cause b₁ last) :
    ∃ part, (stateOf (close last)).sink.contents =
        last.members.flatMap Member.encode ++ part ++ endMarker ∧
      (last = b₁ → part = []) ∧ (∀ m ∈ last.members, m.Whole) ∧ last.members = b₁.members ∧
      (stateOf (close last)).sink.place = b.sink.place := by
  obtain ⟨stored, heach, hmembers, htraced⟩ := Moves.traced hmoves hb
  have hmembers : b₁.members = stored.map Attempt.member := by
    rw [hmembers, hb.members]
    rfl
  have hwhole : ∀ m ∈ b₁.members, m.Whole := by
    intro m hm
    rw [hmembers] at hm
    obtain ⟨a, ha, rfl⟩ := List.mem_map.1 hm
    exact Attempt.whole_of_succeeds (heach a ha)
  have hplace : b₁.sink.place = b.sink.place := (Moves.like hmoves).place
  rw [List.nil_append] at htraced
  by_cases hsame : last = b₁
  · obtain ⟨hclosed, -, hplace'⟩ := traced_close htraced
    rw [hsame]
    refine ⟨[], ?_, fun _ => rfl, hwhole, rfl, hplace'.trans hplace⟩
    rw [hclosed.contents_of_closed (isOpen_stateOf_close _), flatMap_bytes_of_succeeds heach, hmembers,
      List.append_nil]
  · obtain ⟨cause, htorn⟩ := hlast.resolve_left hsame
    have hleft : last.members = b₁.members := htorn.members
    obtain ⟨torn, htraced'⟩ : ∃ torn, last.Traced (stored ++ torn) := by
      rcases htorn.traced htraced with h | ⟨a, -, -, h⟩
      · exact ⟨[], by rwa [List.append_nil]⟩
      · exact ⟨[a], h⟩
    obtain ⟨hclosed, -, hplace'⟩ := traced_close htraced'
    refine ⟨torn.flatMap Attempt.bytes, ?_, fun h => absurd h hsame, hleft ▸ hwhole, hleft,
      hplace'.trans (htorn.place.trans hplace)⟩
    rw [hclosed.contents_of_closed (isOpen_stateOf_close _), List.flatMap_append,
      flatMap_bytes_of_succeeds heach, hleft, hmembers]

end Builder

/-! ## Builds -/

namespace Build

variable {places : Placement → Prop} {b : Build} {fs created : FileSystem} {settings : Settings}
  {loc : Location} {begun : Builder}

/-- All inputs do what each of them does. -/
theorem addAll_does {mode : Option UInt32}
    (h : ∀ x ∈ b.inputs, ∀ b', Moves places begun b' → Assembling.Does places (x.add fs mode) b') :
    Assembling.Does places (b.addAll fs mode) begun := by
  rw [addAll_eq]
  exact .forM _ begun h

/-- A build closes the archive that it has opened, however it ends. -/
theorem fileSystem_fill
    (hstart : Builder.start settings.options (Output.file loc).sink = .ok () begun) :
    (b.fill created (.file loc) settings).fileSystem = created.including
      (stateOf (Builder.close (stateOf (b.addAll created settings.mode begun)))).sink := by
  cases hadd : b.addAll created settings.mode begun with
  | ok _ last =>
    have hfill : b.fill created (.file loc) settings = b.complete created (.file loc) last := by
      simp only [fill, hstart, hadd]
    show _ = created.including (stateOf (Builder.close last)).sink
    rw [hfill, complete, ← Builder.stateOf_finish]
    cases Builder.finish last <;> rfl
  | error e last =>
    have hfill : b.fill created (.file loc) settings =
        ended created (.file loc) (some e) (giveUp last) := by
      simp only [fill, hstart, hadd]
    rw [hfill, ended, giveUp]
    show created.including _ = created.including (stateOf (Builder.close last)).sink
    cases Builder.close last <;> rfl

/-- **What a build leaves in its output**: the members that were written and, if it
    fails, perhaps a part of one that was not, and the end of the archive. -/
theorem exists_remains (hset : b.settings fs = .ok settings)
    (hcreate : fs.create (bytesOf b.output) = .ok (created, .file loc))
    (hstart : Builder.start settings.options (Output.file loc).sink = .ok () begun)
    (hbegun : begun.Traced [])
    (hdoes : Assembling.Does places (b.addAll created settings.mode) begun) :
    let last := stateOf (b.addAll created settings.mode begun)
    ∃ part now, (b.run fs).fileSystem.node? loc = some (.file (fs.modeAt loc)
        (last.members.flatMap Member.encode ++ part ++ endMarker)) ∧
      ((b.run fs).failure = none → part = []) ∧ (∀ m ∈ last.members, m.Whole) ∧
      Moves places begun now ∧ last.members = now.members := by
  intro last
  obtain ⟨now, hmoves, hlast, hwhen⟩ := hdoes.exists_moves
  obtain ⟨part, hcontents, hpart, hwhole, hmembers, hplace⟩ := hbegun.remains hmoves hlast
  have hrun : b.run fs = b.fill created (.file loc) settings := run_of_create hset hcreate
  refine ⟨part, now, ?_, fun hok => ?_, hwhole, hmoves, hmembers⟩
  · have hloc : begun.sink.place = some loc :=
      ((Builder.start_adds hstart).like.place : begun.sink.place = (Output.file loc).sink.place)
    rw [hrun, fileSystem_fill hstart, FileSystem.including_of_create hcreate (hplace.trans hloc),
      FileSystem.node?_put, if_pos rfl, hcontents]
  · rw [hrun] at hok
    obtain ⟨begun', last', hstart', hadd, -⟩ := fill_ok hok
    rw [hstart] at hstart'
    cases hstart'
    refine hpart ?_
    show stateOf (b.addAll created settings.mode begun) = now
    rw [hadd]
    exact hwhen last' hadd

end Build

end Tarball
