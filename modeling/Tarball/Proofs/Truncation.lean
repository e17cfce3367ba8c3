/-
  Archives cut off.

  The same steps are done for two archives, one on a sink that has room for so many
  bytes and one on a sink without a limit.  Up to the first write that does not fit
  they are the same; from then on nothing more is stored in the former.  So in the
  end it holds the first bytes of the latter, as many as it has room for.

  * `Sink.Within` relates sinks that hold the same, `Sink.CutOff` a full sink to one
    that holds more (`Sink.companions_within`);
  * `Step.run_abreast`: what a step keeps;
  * `Builder.Truncates` relates the two archives at all times (`Builder.Truncates.after`,
    `Builder.truncates_ended`);
  * `Builder.ended_limited`: what the sink with a limit holds in the end.
-/
import Tarball.Proofs.Abreast
import Tarball.Proofs.Closing
import Tarball.Proofs.Duplicates

namespace Tarball

/-! ## Sinks with a limit -/

namespace Sink

/-- Two sinks that differ in their limits only: the former takes so many bytes in
    all, the latter everything. -/
def Within (size : Nat) (s t : Sink) : Prop :=
  (∃ n, s.room = some n ∧ s.contents.length + n = size) ∧ t = { s with room := none }

/-- A sink that takes so many bytes in all and is full, and one that holds these and
    perhaps more. -/
structure CutOff (size : Nat) (s t : Sink) : Prop where
  room : s.room = some 0
  length : s.contents.length = size
  contents : s.contents <+: t.contents

variable {size : Nat} {s s' t t' : Sink}

theorem Within.contents_eq (h : Within size s t) : s.contents = t.contents := by
  obtain ⟨-, rfl⟩ := h
  rfl

/-- A write that fits is stored in both. -/
theorem within_push {n : Nat} (hroom : s.room = some n) (hsize : s.contents.length + n = size)
    {bytes : Bytes} (hfits : s.fits bytes) :
    Within size (s.push bytes) (push { s with room := none } bytes) := by
  have hle : bytes.length ≤ n := by simpa [fits, hroom] using hfits
  refine ⟨⟨n - bytes.length, by simp [push, hroom], ?_⟩, ?_⟩
  · rw [contents_push, fitting_of_fits hfits, List.length_append]
    omega
  · simp [push, fitting, hroom, List.take_of_length_le hle]

/-- One that does not fit fills the sink with the limit. -/
theorem cutOff_push {n : Nat} (hroom : s.room = some n) (hsize : s.contents.length + n = size)
    {bytes : Bytes} (hfits : ¬ s.fits bytes) :
    CutOff size (s.push bytes) (push { s with room := none } bytes) := by
  have hlt : n < bytes.length := by simpa [fits, hroom] using hfits
  have hfitting : s.fitting bytes = bytes.take n := by simp [fitting, hroom]
  refine ⟨?_, ?_, ?_⟩
  · rw [push, hroom, Option.map_some, Nat.sub_eq_zero_of_le hlt.le]
  · rw [contents_push, hfitting, List.length_append, List.length_take, Nat.min_eq_left hlt.le, hsize]
  · rw [contents_push, contents_push, hfitting]
    exact (List.prefix_append_right_inj _).2 (List.take_prefix n bytes)

theorem write_within (bytes : Bytes) :
    Abreast (Within size) (CutOff size) (write bytes) (write bytes) := by
  constructor
  · rintro s _ ⟨⟨n, hroom, hsize⟩, rfl⟩
    have hwhole : write bytes { s with room := none } =
        .ok () (push { s with room := none } bytes) := rfl
    rw [hwhole, write]
    split
    · next hfits => exact .ok (within_push hroom hsize hfits)
    · next hfits => exact .behind (cutOff_push hroom hsize hfits)
  · intro s t h
    exact ⟨h.room, h.length, h.contents.trans (write_later bytes t).prefix_contents⟩

theorem companions_within (size : Nat) : Companions (Within size) (CutOff size) where
  write := write_within
  place h := by obtain ⟨-, rfl⟩ := h; rfl
  contents h := h.contents_eq

/-- A full sink and one that holds more stay so, whatever is written to either. -/
theorem CutOff.later (h : CutOff size s t) (hs : s.Later s') (ht : t.Later t') :
    CutOff size s' t' := by
  obtain ⟨hroom, hcontents⟩ := hs.full h.room
  refine ⟨hroom, by rw [hcontents, h.length], ?_⟩
  rw [hcontents]
  exact h.contents.trans ht.prefix_contents

theorem Within.eq_take (h : Within size s t) : s.contents = t.contents.take size := by
  obtain ⟨⟨n, -, hsize⟩, rfl⟩ := h
  exact (List.take_of_length_le (by rw [← hsize]; exact Nat.le_add_right _ _)).symm

theorem CutOff.eq_take (h : CutOff size s t) : s.contents = t.contents.take size := by
  rw [← h.length]
  exact List.prefix_iff_eq_take.1 h.contents

end Sink

/-! ## Steps on sinks with a limit -/

namespace Builder

/-- Builders on a sink with a limit and on one without, which are the same for the
    rest. -/
abbrev Limited (size : Nat) : Builder → Builder → Prop :=
  Beside (Sink.Within size) Eq

/-- Builders of which the former has come to the limit of its sink. -/
abbrev Stopped (size : Nat) : Builder → Builder → Prop :=
  Behind (Sink.CutOff size)

variable {size : Nat}

theorem add_limited (r : Request) : Abreast (Limited size) (Stopped size) (add r) (add r) :=
  add_abreast (Sink.companions_within size) (fun _ _ _ h => congrArg _ h) r

theorem addInTree_limited (r : Request) :
    Abreast (Limited size) (Stopped size) (addInTree r) (addInTree r) :=
  addInTree_abreast (Sink.companions_within size) (fun _ _ _ h => congrArg _ h) r

theorem tell_limited (notice : Notice) :
    Abreast (Limited size) (Stopped size) (tell notice) (tell notice) := by
  refine ⟨?_, fun _ _ h => h⟩
  rintro b _ ⟨sink, noticeLog, hsinks, rfl, rfl⟩
  exact .ok ⟨sink, _, hsinks, rfl, rfl⟩

theorem close_limited : Abreast (Limited size) (Stopped size) close close := by
  have hwriting := writing_abreast (N := Eq) ((Sink.companions_within size).write endMarker)
  constructor
  · rintro b _ ⟨sink, noticeLog, hsinks, htold, rfl⟩
    rw [close_eq, close_eq]
    dsimp only
    split
    · exact hwriting.inStep { b with isOpen := false } _ ⟨sink, noticeLog, hsinks, htold, rfl⟩
    · exact .ok ⟨sink, noticeLog, hsinks, htold, rfl⟩
  · intro b b' h
    rw [close_eq]
    split
    · exact hwriting.behind b { b' with isOpen := false } h
    · exact h

theorem addRoot_limited : Abreast (Limited size) (Stopped size) addRoot addRoot := by
  constructor
  · intro b b' h
    have hadded := (add_limited (.directory "")).inStep b b' h
    rw [addRoot_eq, addRoot_eq]
    obtain ⟨sink, noticeLog, hsinks, htold, rfl⟩ := h
    dsimp only
    split
    · exact hadded
    · exact .ok ⟨sink, noticeLog, hsinks, htold, rfl⟩
  · intro b b' h
    rw [addRoot_eq]
    split
    · exact (add_limited _).behind b b' h
    · exact h

variable (fs : FileSystem)

theorem openNow_limited (loc : Location) :
    Abreast (Limited size) (Stopped size) (openNow fs loc) (openNow fs loc) :=
  openNow_abreast fun hst => (Sink.companions_within size).openDuring hst fs loc

theorem importFile_limited (name : String) (source : Bytes) (mode : Option UInt32) :
    Abreast (Limited size) (Stopped size) (importFile fs name source mode)
      (importFile fs name source mode) :=
  (Abreast.ofExcept _).bind fun loc => (openNow_limited fs loc).bind fun _ => add_limited _

theorem importItem_limited (dest : String) (mode : Option UInt32) (spot : Spot) :
    Abreast (Limited size) (Stopped size) (importItem fs dest mode spot)
      (importItem fs dest mode spot) := by
  refine (Abreast.ofExcept _).bind fun name => ?_
  split
  · exact addInTree_limited _
  · have hopen : Abreast (Limited size) (Stopped size) (openSpot fs spot) (openSpot fs spot) :=
      openSpot_abreast fun hst => (Sink.companions_within size).openDuring hst fs spot.location
    exact hopen.bind fun _ => addInTree_limited _
  · exact tell_limited _

theorem importTree_limited (dest : String) (source : Bytes) (mode : Option UInt32) :
    Abreast (Limited size) (Stopped size) (importTree fs dest source mode)
      (importTree fs dest source mode) := by
  refine requireOpen_abreast.bind fun _ => (Abreast.ofExcept _).bind fun node => ?_
  split
  · refine (Abreast.ofExcept _).bind fun walk => ?_
    refine (Abreast.forM fun spot _ => importItem_limited fs dest mode spot).bind fun _ => ?_
    split
    · exact .of_throw _
    · exact .of_pure ()
  · exact importFile_limited fs dest source mode

end Builder

/-- **A step comes to the same end on both sinks**, or the limit is met. -/
theorem Step.run_abreast {size : Nat} (fs : FileSystem) (s : Step) :
    Abreast (Builder.Limited size) (Builder.Stopped size) (s.run fs) (s.run fs) := by
  cases s with
  | add r => exact Builder.add_limited r
  | importFile name source mode => exact Builder.importFile_limited fs name source mode
  | importTree dest source mode => exact Builder.importTree_limited fs dest source mode
  | close => exact Builder.close_limited
  | finish => exact Builder.requireOpen_abreast.bind fun _ => Builder.close_limited

namespace Builder

/-! ## Archives on sinks with a limit -/

/-- An archive on a sink that takes so many bytes in all, and the same one on a sink
    without a limit: they are the same still, or the former was stopped. -/
def Truncates (size : Nat) (b b' : Builder) : Prop :=
  Limited size b b' ∨ Stopped size b b'

variable {size : Nat} {b b' : Builder}

theorem Truncates.eq_take (h : Truncates size b b') :
    b.sink.contents = b'.sink.contents.take size := by
  rcases h with ⟨sink, noticeLog, hsinks, -, rfl⟩ | hbehind
  · exact hsinks.eq_take
  · exact Sink.CutOff.eq_take hbehind

/-- Whatever is done, what is done to a sink are writes. -/
theorem later_stateOf_close (b : Builder) : b.sink.Later (stateOf (close b)).sink := by
  rw [close_eq]
  split
  · rw [sink_stateOf_writing]
    exact Sink.write_later endMarker b.sink
  · exact .refl

theorem later_step (fs : FileSystem) (s : Step) (b : Builder) :
    b.sink.Later (Outcome.ofResult (s.run fs b)).builder.sink := by
  by_cases hs : s.Ends
  · rw [outcome_of_ends hs]
    exact later_stateOf_close b
  · rw [Outcome.builder_ofResult]
    exact (s.run_extends fs hs b).sink

theorem later_after (history : List (FileSystem × Step)) (b : Builder) :
    b.sink.Later (b.after history).sink := by
  induction history generalizing b with
  | nil => exact .refl
  | cons x history ih => exact (later_step x.1 x.2 b).trans (ih _)

/-- What the same action leaves of both. -/
theorem Truncates.of_inStep {r r' : EStateM.Result Cause Builder Unit}
    (h : InStep (Limited size) (Stopped size) r r') :
    Truncates size (stateOf r) (stateOf r') := by
  cases h with
  | ok state => exact .inl state
  | error state => exact .inl state
  | behind state => exact .inr state

/-- What is done to either after the former was stopped leaves them so. -/
theorem Stopped.later {b₁ b₂ : Builder} (h : Stopped size b b') (hb : b.sink.Later b₁.sink)
    (hb' : b'.sink.Later b₂.sink) : Stopped size b₁ b₂ :=
  Sink.CutOff.later h hb hb'

theorem Truncates.step (h : Truncates size b b') (fs : FileSystem) (s : Step) :
    Truncates size (Outcome.ofResult (s.run fs b)).builder
      (Outcome.ofResult (s.run fs b')).builder := by
  rcases h with hlimited | hstopped
  · rw [Outcome.builder_ofResult, Outcome.builder_ofResult]
    exact .of_inStep ((s.run_abreast fs).inStep b b' hlimited)
  · exact .inr (hstopped.later (later_step fs s b) (later_step fs s b'))

/-- **Whatever steps are done**, an archive on a sink with a limit is the same as
    without it, or was stopped. -/
theorem Truncates.after (h : Truncates size b b') (history : List (FileSystem × Step)) :
    Truncates size (b.after history) (b'.after history) := by
  induction history generalizing b b' with
  | nil => exact h
  | cons x history ih => exact ih (h.step x.1 x.2)

theorem Truncates.drop (h : Truncates size b b') : Truncates size b.drop b'.drop := by
  rw [drop_eq_stateOf_close, drop_eq_stateOf_close]
  rcases h with hlimited | hstopped
  · exact .of_inStep (close_limited.inStep b b' hlimited)
  · exact .inr (hstopped.later (later_stateOf_close b) (later_stateOf_close b'))

theorem start_limited (o : Options) (sink : Sink) (n : Nat) :
    InStep (Limited (sink.contents.length + n)) (Stopped (sink.contents.length + n))
      (start o { sink with room := some n }) (start o { sink with room := none }) :=
  addRoot_limited.inStep _ _ ⟨{ sink with room := none }, [], ⟨⟨n, rfl, rfl⟩, rfl⟩, rfl, rfl⟩

/-- The archives are related in the end, also where only the one without a limit
    could be opened. -/
theorem truncates_ended (o : Options) (sink : Sink) (n : Nat)
    (history : List (FileSystem × Step)) :
    Truncates (sink.contents.length + n) (ended o { sink with room := some n } history)
      (ended o { sink with room := none } history) := by
  have hstart := start_limited o sink n
  unfold ended worked
  cases hlimited : start o { sink with room := some n } with
  | ok _ begun =>
    rw [hlimited] at hstart
    obtain ⟨begun', hwhole, hbegun⟩ := hstart.of_ok
    rw [hwhole]
    exact (Truncates.after (.inl hbegun) history).drop
  | error cause begun =>
    rw [hlimited] at hstart
    obtain ⟨begun', hwhole, hbegun⟩ | hstopped := hstart.of_error
    · rw [hwhole]
      exact Truncates.drop (.inl hbegun)
    · -- the archive on the other sink may be opened, and then goes on
      cases hwhole : start o { sink with room := none } with
      | ok _ begun' =>
        rw [hwhole] at hstopped
        have hlater : Stopped _ begun (begun'.after history) :=
          Stopped.later hstopped .refl (later_after history begun')
        exact Truncates.drop (.inr hlater)
      | error cause' begun' =>
        rw [hwhole] at hstopped
        exact Truncates.drop (.inr hstopped)

/-- Where all steps go through on the sink with a limit the archives stay the same. -/
theorem Ran.limited {begun begun' b : Builder} {history : List (FileSystem × Step)}
    (hrun : Ran begun history b) (h : Limited size begun begun') :
    b = begun.after history ∧ Limited size b (begun'.after history) := by
  induction hrun generalizing begun' with
  | nil => exact ⟨rfl, h⟩
  | @cons fs s history begun b₁ b first _ ih =>
    have hfirst := (s.run_abreast fs).inStep begun begun' h
    have hnow : (Outcome.ofResult (s.run fs begun)).builder = b₁ := by rw [first]; rfl
    rw [first] at hfirst
    obtain ⟨b₁', hfirst', hstates⟩ := hfirst.of_ok
    have hnow' : (Outcome.ofResult (s.run fs begun')).builder = b₁' := by rw [hfirst']; rfl
    show b = Builder.after (Outcome.ofResult (s.run fs begun)).builder history ∧
      Limited size b (Builder.after (Outcome.ofResult (s.run fs begun')).builder history)
    rw [hnow, hnow']
    exact ih hstates

/-- Steps after an end add nothing to what is left. -/
theorem ended_of_ends {o : Options} {sink : Sink} {begun : Builder}
    (hstart : start o sink = .ok () begun) {before : List (FileSystem × Step)}
    (hends : ∃ x ∈ before, x.2.Ends) (later : List (FileSystem × Step)) :
    ended o sink (before ++ later) = begun.after before := by
  unfold ended worked
  rw [hstart]
  dsimp only
  rw [drop_after, beforeEnd_append hends, ← after_of_ends hends]

/-- **A limit only cuts an archive off.**  Whatever is done on a sink that takes so
    many bytes more, in the end it holds the first bytes of what a sink without a
    limit would hold, as many as it has room for.  If the archive is opened and all
    steps up to an end of it go through, it holds all of them. -/
theorem ended_limited (o : Options) (sink : Sink) (n : Nat) (history : List (FileSystem × Step)) :
    let limited : Sink := { sink with room := some n }
    let whole := (ended o { sink with room := none } history).sink.contents
    (ended o limited history).sink.contents = whole.take (sink.contents.length + n) ∧
      ∀ begun before later b, start o limited = .ok () begun → history = before ++ later →
        (∃ x ∈ before, x.2.Ends) → Ran begun before b →
          (ended o limited history).sink.contents = whole := by
  intro limited whole
  refine ⟨(truncates_ended o sink n history).eq_take, ?_⟩
  rintro begun before later b hstart rfl hends hrun
  have hopened := start_limited o sink n
  rw [hstart] at hopened
  obtain ⟨begun', hwhole, hbegun⟩ := hopened.of_ok
  obtain ⟨hafter, sink', noticeLog, hsinks, -, hsame⟩ := hrun.limited hbegun
  calc (ended o limited (before ++ later)).sink.contents
    _ = b.sink.contents := by rw [ended_of_ends hstart hends, ← hafter]
    _ = (begun'.after before).sink.contents := by rw [hsame]; exact hsinks.contents_eq
    _ = whole := by rw [← ended_of_ends hwhole hends later]

/-- A file and what hands the archive over. -/
def handedOver : List (FileSystem × Step) :=
  withoutFiles [.add (.file "a" (.bytes [1])), .finish]

/-- There is room for the header and part of the padding, and for just everything. -/
theorem ended_limited_handedOver :
    let whole := (ended {} {} handedOver).sink.contents
    (ended {} { room := some 600 } handedOver).sink.contents = whole.take 600 ∧
      whole.length = 2048 ∧ (ended {} { room := some 2048 } handedOver).sink.contents = whole := by
  intro whole
  have hstart : start {} { room := some 2048 } = .ok () (opened {} { room := some 2048 }) :=
    Outcome.ofResult_succeeds (by decide)
  have hrun : Ran (opened {} { room := some 2048 }) handedOver
      ((opened {} { room := some 2048 }).after handedOver) :=
    .cons (Outcome.ofResult_succeeds (by decide +kernel)) <|
      .cons (Outcome.ofResult_succeeds (by decide +kernel)) (.nil _)
  have hends : ∃ x ∈ handedOver, x.2.Ends := by decide
  refine ⟨(ended_limited {} {} 600 handedOver).1, by decide +kernel, ?_⟩
  exact (ended_limited {} {} 2048 handedOver).2 _ handedOver [] _ hstart
    (List.append_nil _).symm hends hrun

end Builder

end Tarball
