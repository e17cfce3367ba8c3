/-
  The end of an archive.

  An archive is ended once: by the first step that closes it or hands it over, or
  when it is given up.  From then on it stays as it is.  What is asked for later is
  refused, and for a file that is to be imported it may be something about the
  file that is told, since that is opened first.

  * `Step.sourceFault` is why such a file cannot be opened;
  * `Step.outcome_of_closed`: what comes of a step when the archive is closed
    (`Builder.additions_refused`: of an addition, after whatever steps);
  * `Builder.worked` is an archive opened and worked on, `Builder.ended` the same
    given up at the end (`Session.final_eq_ended`);
  * `Builder.ended_contents`: what the sink holds in the end.
-/
import Mathlib.Data.List.TakeWhile
import Tarball.Proofs.Extension

namespace Tarball

instance (s : Step) : Decidable s.Ends := inferInstanceAs (Decidable (_ ∨ _))

/-! ## Closed archives -/

/-- Why the source of a step cannot be opened, where that is looked at before
    anything else: for a file that is to be imported. -/
def Step.sourceFault (fs : FileSystem) (sink : Sink) : Step → Option Cause
  | .importFile _ source _ =>
    match fs.resolve source >>= fs.openDuring sink with
    | .ok _ => none
    | .error cause => some cause
  | .add _ | .importTree _ _ _ | .close | .finish => none

/-- Why a step fails when the archive is closed: only closing it again is no
    failure. -/
def Step.refusal (fs : FileSystem) (sink : Sink) (s : Step) : Option Cause :=
  if s = .close then none else some ((s.sourceFault fs sink).getD .closed)

namespace FileSystem

variable {fs : FileSystem}

theorem resolve_ne_closed (source : Bytes) : fs.resolve source ≠ .error .closed := by
  unfold resolve resolveLinks
  split
  · exact nofun
  split
  · exact nofun
  split
  · exact nofun
  cases fs.follow maxLinks (start fs.workingDirectory source) (pathNames source) with
  | ok r => exact nofun
  | error failure => exact nofun

theorem openDuring_ne_closed (sink : Sink) (loc : Location) :
    fs.openDuring sink loc ≠ .error .closed := by
  rw [openDuring_eq]
  unfold openAt
  split
  · next node _ => cases node <;> exact nofun
  · exact nofun

end FileSystem

/-- It is never for a closed archive that a file cannot be opened. -/
theorem Step.sourceFault_ne_closed (fs : FileSystem) (sink : Sink) (s : Step) :
    s.sourceFault fs sink ≠ some .closed := by
  cases s with
  | importFile name source mode =>
    intro h
    unfold sourceFault at h
    dsimp only at h
    split at h
    · cases h
    · next cause hopen =>
      cases h
      cases hresolve : fs.resolve source with
      | error cause =>
        rw [hresolve] at hopen
        cases hopen
        exact FileSystem.resolve_ne_closed source hresolve
      | ok loc =>
        rw [hresolve] at hopen
        exact FileSystem.openDuring_ne_closed sink loc hopen
  | add | importTree | close | finish => exact nofun

namespace Builder

variable {b : Builder}

theorem addAt_of_closed (h : b.isOpen = false) (r : Request) (p : Placement) :
    addAt r p b = .error .closed b := by
  rw [addAt_eq, if_neg (by simp [h])]

theorem requireOpen_of_closed (h : b.isOpen = false) : requireOpen b = .error .closed b := by
  rw [requireOpen_eq, if_neg (by simp [h])]

theorem close_of_closed (h : b.isOpen = false) : close b = .ok () b := by
  rw [close_eq, if_neg (by simp [h])]

/-- A file is opened before it is found that there is no archive for it. -/
theorem importFile_of_closed (h : b.isOpen = false) (fs : FileSystem) (name : String)
    (source : Bytes) (mode : Option UInt32) : importFile fs name source mode b =
      .error (((Step.importFile name source mode).sourceFault fs b.sink).getD .closed) b := by
  unfold importFile Step.sourceFault
  dsimp only
  cases hresolve : fs.resolve source with
  | error cause => rfl
  | ok loc =>
    have hopening : ((MonadExcept.ofExcept (.ok loc) : Building Location) >>= fun loc =>
        openNow fs loc >>= fun content => add (storedFile name content mode)) b =
          ((MonadExcept.ofExcept (fs.openDuring b.sink loc) : Building Content) >>= fun content =>
            add (storedFile name content mode)) b := rfl
    rw [hopening]
    cases hopen : fs.openDuring b.sink loc with
    | error cause =>
      have hfault : (Except.ok loc >>= fs.openDuring b.sink) = .error cause := hopen
      rw [hfault]
      rfl
    | ok content =>
      have hfault : (Except.ok loc >>= fs.openDuring b.sink) = .ok content := hopen
      rw [hfault]
      exact addAt_of_closed h _ _

theorem importTree_of_closed (h : b.isOpen = false) (fs : FileSystem) (dest : String)
    (source : Bytes) (mode : Option UInt32) :
    importTree fs dest source mode b = .error .closed b :=
  bind_of_error (requireOpen_of_closed h)

end Builder

/-- **Nothing comes of a step when the archive is closed**, but that it fails in its
    way. -/
theorem Step.outcome_of_closed {b : Builder} (h : b.isOpen = false) (fs : FileSystem) (s : Step) :
    Outcome.ofResult (s.run fs b) = ⟨s.refusal fs b.sink, b⟩ := by
  cases s with
  | add r =>
    have hrun : (Step.add r).run fs b = .error .closed b := Builder.addAt_of_closed h _ _
    rw [hrun]
    rfl
  | importFile name source mode =>
    have hrun := Builder.importFile_of_closed h fs name source mode
    rw [Step.run, hrun]
    rfl
  | importTree dest source mode =>
    rw [Step.run, Builder.importTree_of_closed h]
    rfl
  | close =>
    rw [Step.run, Builder.close_of_closed h]
    rfl
  | finish =>
    have hrun : Step.finish.run fs b = .error .closed b :=
      bind_of_error (Builder.requireOpen_of_closed h)
    rw [hrun]
    rfl

namespace Builder

variable {b : Builder}

/-- **A closed archive stays as it is**, whatever steps follow. -/
theorem after_of_closed (h : b.isOpen = false) (later : List (FileSystem × Step)) :
    b.after later = b := by
  induction later with
  | nil => rfl
  | cons x later ih =>
    have hfirst := Step.outcome_of_closed h x.1 x.2
    show Builder.after (Outcome.ofResult (x.2.run x.1 b)).builder later = b
    rw [hfirst]
    exact ih

/-- Closing an archive closes it, even if its end cannot be written. -/
theorem isOpen_stateOf_close (b : Builder) : (stateOf (close b)).isOpen = false := by
  rw [close_eq]
  split
  · unfold writing
    split
    · rfl
    · rfl
  · next ho =>
    show b.isOpen = false
    simpa using ho

/-- **Nothing is added to an archive that was closed**, after whatever steps: an
    addition fails and leaves everything as it is.  It is told that the archive is
    closed unless there is a file to be imported that cannot be opened. -/
theorem additions_refused (b : Builder) (later : List (FileSystem × Step)) (fs : FileSystem)
    {s : Step} (hadd : ¬ s.Ends) :
    let closed := (stateOf (close b)).after later
    s.run fs closed = .error ((s.sourceFault fs closed.sink).getD .closed) closed ∧
      (s.run fs closed = .error .closed closed ↔ s.sourceFault fs closed.sink = none) := by
  intro closed
  have hclosed : closed = stateOf (close b) := after_of_closed (isOpen_stateOf_close b) later
  have hrun : s.run fs closed = .error ((s.sourceFault fs closed.sink).getD .closed) closed := by
    have houtcome := Step.outcome_of_closed (hclosed ▸ isOpen_stateOf_close b) fs s
    rw [Step.refusal, if_neg fun hs => hadd (.inl hs)] at houtcome
    cases hresult : s.run fs closed with
    | ok _ b' => rw [hresult] at houtcome; cases houtcome
    | error cause b' => rw [hresult] at houtcome; cases houtcome; rfl
  refine ⟨hrun, ?_⟩
  rw [hrun]
  cases hfault : s.sourceFault fs closed.sink with
  | none => simp
  | some cause =>
    have hne : cause ≠ .closed := by
      rintro rfl
      exact Step.sourceFault_ne_closed fs closed.sink s hfault
    simp [hne]

/-- A file added to an archive that was closed before its only member was written. -/
theorem additions_refused_file :
    let closed := (stateOf (close (opened {} {}))).after
      (withoutFiles [.add (.file "a" .empty), .close])
    add (.file "b" (.bytes [1])) closed = .error .closed closed := by
  intro closed
  have hadd : ¬ (Step.add (.file "b" (.bytes [1]))).Ends := by decide
  exact (additions_refused (opened {} {}) _ { items := [], distinct := List.nodup_nil } hadd).1

/-- A file that is missing is told to be missing, though the archive is closed. -/
theorem missing_though_closed :
    let noFiles : FileSystem := { items := [], distinct := List.nodup_nil }
    let closed := stateOf (close (opened {} {}))
    closed.isOpen = false ∧
      importFile noFiles "b" (bytesOf "gone") none closed = .error (.system .missing) closed := by
  intro noFiles closed
  have hclosed : closed.isOpen = false := isOpen_stateOf_close _
  have hmissing : noFiles.resolve (bytesOf "gone") = .error (.system .missing) := by decide
  refine ⟨hclosed, ?_⟩
  rw [importFile_of_closed hclosed, Step.sourceFault, hmissing]
  rfl

/-! ## Archives that are ended -/

/-- An archive opened and, if it could be opened, worked on step by step, each in
    the file system as it is by then. -/
def worked (o : Options) (sink : Sink) (history : List (FileSystem × Step)) : Builder :=
  match start o sink with
  | .ok _ begun => begun.after history
  | .error _ begun => begun

/-- The same archive when it has been given up, which does nothing to one that was
    ended before. -/
def ended (o : Options) (sink : Sink) (history : List (FileSystem × Step)) : Builder :=
  (worked o sink history).drop

theorem drop_eq_stateOf_close (b : Builder) : b.drop = stateOf (close b) := by
  unfold drop
  cases close b <;> rfl

theorem drop_of_closed (h : b.isOpen = false) : b.drop = b := by
  rw [drop_eq_stateOf_close, close_of_closed h]
  rfl

/-- Handing an archive over closes it, even if its end cannot be written. -/
theorem stateOf_finish (b : Builder) : stateOf (finish b) = stateOf (close b) := by
  cases ho : b.isOpen with
  | true =>
    rw [finish, bind_of_ok (requireOpen_of_open ho)]
  | false =>
    have hfinish : finish b = .error .closed b := bind_of_error (requireOpen_of_closed ho)
    rw [hfinish, close_of_closed ho]
    rfl

/-- **Ending an archive adds the end marker** to a sink that takes everything. -/
theorem contents_stateOf_close (ho : b.isOpen) (hroom : b.sink.room = none) :
    (stateOf (close b)).sink.contents = b.sink.contents ++ endMarker := by
  obtain ⟨s, hwrite, -, hcontents⟩ := Sink.write_of_room_eq_none hroom endMarker
  rw [close_of_write ho hwrite]
  exact hcontents

/-- Steps that do not end an archive extend it. -/
theorem after_extends {history : List (FileSystem × Step)} (hadds : ∀ x ∈ history, ¬ x.2.Ends)
    (b : Builder) : b.Extends (b.after history) := by
  induction history generalizing b with
  | nil => exact .refl b
  | cons x history ih =>
    have hfirst := Step.run_extends x.1 (hadds x List.mem_cons_self) b
    rw [← Outcome.builder_ofResult] at hfirst
    exact hfirst.trans (ih (fun y hy => hadds y (List.mem_cons_of_mem _ hy)) _)

theorem start_extends (o : Options) (sink : Sink) :
    (fresh o sink).Extends (stateOf (start o sink)) :=
  addRoot_extends (fresh o sink)

/-- What is left of an archive that is open still: all that happened to the sink are
    writes. -/
structure Working (sink : Sink) (b : Builder) : Prop where
  isOpen : b.isOpen
  sink : sink.Later b.sink

theorem working_start (o : Options) (sink : Sink) : Working sink (stateOf (start o sink)) := by
  have hstart := start_extends o sink
  exact ⟨hstart.isOpen, hstart.sink⟩

theorem Working.after {sink : Sink} (h : Working sink b) {history : List (FileSystem × Step)}
    (hadds : ∀ x ∈ history, ¬ x.2.Ends) : Working sink (b.after history) := by
  have hmore := after_extends hadds b
  exact ⟨hmore.isOpen ▸ h.isOpen, h.sink.trans hmore.sink⟩

theorem Working.contents {sink : Sink} (h : Working sink b) (hroom : sink.room = none) :
    (stateOf (close b)).sink.contents = b.sink.contents ++ endMarker :=
  contents_stateOf_close h.isOpen (h.sink.room_eq_none hroom)

/-- What is left by a step that ends an archive. -/
theorem outcome_of_ends {s : Step} (hs : s.Ends) (fs : FileSystem) (b : Builder) :
    (Outcome.ofResult (s.run fs b)).builder = stateOf (close b) := by
  rw [Outcome.builder_ofResult]
  rcases hs with rfl | rfl
  · rfl
  · exact stateOf_finish b

/-- The steps before the first one that ends an archive. -/
def beforeEnd (history : List (FileSystem × Step)) : List (FileSystem × Step) :=
  history.takeWhile fun x => ¬ x.2.Ends

theorem beforeEnd_cons_of_ends {x : FileSystem × Step} (hx : x.2.Ends)
    (history : List (FileSystem × Step)) : beforeEnd (x :: history) = [] :=
  List.takeWhile_cons_of_neg (by simpa using hx)

theorem beforeEnd_cons {x : FileSystem × Step} (hx : ¬ x.2.Ends)
    (history : List (FileSystem × Step)) : beforeEnd (x :: history) = x :: beforeEnd history :=
  List.takeWhile_cons_of_pos (by simpa using hx)

theorem beforeEnd_eq_self_iff {history : List (FileSystem × Step)} :
    beforeEnd history = history ↔ ∀ x ∈ history, ¬ x.2.Ends := by
  simp [beforeEnd, List.takeWhile_eq_self_iff]

/-- Where there is an end no later steps count. -/
theorem beforeEnd_append {before : List (FileSystem × Step)} (hends : ∃ x ∈ before, x.2.Ends)
    (later : List (FileSystem × Step)) : beforeEnd (before ++ later) = beforeEnd before := by
  obtain ⟨x, hx, hxends⟩ := hends
  unfold beforeEnd
  rw [List.takeWhile_append, if_neg]
  intro hlength
  have hself : beforeEnd before = before := (List.takeWhile_prefix _).eq_of_length hlength
  exact beforeEnd_eq_self_iff.1 hself x hx hxends

theorem not_ends_of_mem_beforeEnd {history : List (FileSystem × Step)} {x : FileSystem × Step}
    (h : x ∈ beforeEnd history) : ¬ x.2.Ends := by
  simpa using List.mem_takeWhile_imp h

/-- After steps of which one ends an archive it is what the first of these has left. -/
theorem after_of_ends {history : List (FileSystem × Step)} (hends : ∃ x ∈ history, x.2.Ends)
    (b : Builder) : b.after history = stateOf (close (b.after (beforeEnd history))) := by
  induction history generalizing b with
  | nil => simp at hends
  | cons x history ih =>
    show Builder.after (Outcome.ofResult (x.2.run x.1 b)).builder history = _
    by_cases hx : x.2.Ends
    · rw [outcome_of_ends hx, after_of_closed (isOpen_stateOf_close b), beforeEnd_cons_of_ends hx]
      rfl
    · have hrest : ∃ y ∈ history, y.2.Ends := by
        obtain ⟨y, hy, hends⟩ := hends
        rcases List.mem_cons.1 hy with rfl | hy
        · exact absurd hends hx
        · exact ⟨y, hy, hends⟩
      rw [ih hrest, beforeEnd_cons hx]
      rfl

/-- Giving an archive up after steps is closing it before the first one that ends
    it. -/
theorem drop_after (b : Builder) (history : List (FileSystem × Step)) :
    (b.after history).drop = stateOf (close (b.after (beforeEnd history))) := by
  by_cases hends : ∃ x ∈ history, x.2.Ends
  · rw [after_of_ends hends, drop_of_closed (isOpen_stateOf_close _)]
  · have hself : beforeEnd history = history :=
      beforeEnd_eq_self_iff.2 fun x hx hxends => hends ⟨x, hx, hxends⟩
    rw [hself, drop_eq_stateOf_close]

/-- **An archive has one end.**  On a sink that takes everything there is, in the
    end, what was written before the archive was first ended, be it by a step or by
    giving it up, and the end marker after it, whatever steps follow.  A step that
    comes after one that ended the archive leaves everything as it is; closing it
    again succeeds, and it cannot be handed over any more. -/
theorem ended_contents (o : Options) {sink : Sink} (hroom : sink.room = none)
    (history : List (FileSystem × Step)) :
    let written := (worked o sink (beforeEnd history)).sink.contents
    (ended o sink history).sink.contents = written ++ endMarker ∧
      ∀ begun before fs s later, start o sink = .ok () begun →
        history = before ++ (fs, s) :: later → (∃ x ∈ before, x.2.Ends) →
          let now := begun.after before
          now.sink.contents = written ++ endMarker ∧ stateOf (s.run fs now) = now ∧
            (s = .close → s.run fs now = .ok () now) ∧
            (s = .finish → s.run fs now = .error .closed now) := by
  have hworking := working_start o sink
  unfold ended worked
  cases hstart : start o sink with
  | error cause begun =>
    rw [hstart] at hworking
    have hbegun : Working sink begun := hworking
    refine ⟨?_, fun begun' _ _ _ _ h => by cases h⟩
    dsimp only
    rw [drop_eq_stateOf_close, hbegun.contents hroom]
  | ok _ begun =>
    rw [hstart] at hworking
    have hbegun : Working sink begun := hworking
    have hmarked : ∀ history : List (FileSystem × Step),
        (stateOf (close (begun.after (beforeEnd history)))).sink.contents =
          (begun.after (beforeEnd history)).sink.contents ++ endMarker := fun history =>
      (hbegun.after fun x hx => not_ends_of_mem_beforeEnd hx).contents hroom
    dsimp only
    refine ⟨by rw [drop_after, hmarked], ?_⟩
    rintro begun' before fs s later h rfl hends
    cases h
    have hnow := after_of_ends hends begun
    have hclosed : (begun.after before).isOpen = false := hnow ▸ isOpen_stateOf_close _
    refine ⟨?_, ?_, ?_, ?_⟩
    · rw [beforeEnd_append hends, hnow, hmarked]
    · rw [← Outcome.builder_ofResult, Step.outcome_of_closed hclosed]
    · rintro rfl
      exact close_of_closed hclosed
    · rintro rfl
      exact bind_of_error (requireOpen_of_closed hclosed)

/-- A file whose content falls short, and an archive that is closed twice and then
    handed over. -/
def closedTwice : List (FileSystem × Step) :=
  withoutFiles [.add (.file "a" (.stream { chunks := [[1]] } 2)), .close, .add (.file "b" .empty),
    .close, .finish]

theorem ended_contents_closedTwice :
    let written := (worked {} {} (closedTwice.take 1)).sink.contents
    let now := (opened {} {}).after (closedTwice.take 4)
    (ended {} {} closedTwice).sink.contents = written ++ endMarker ∧ written.length = 513 ∧
      now.sink.contents = written ++ endMarker ∧ finish now = .error .closed now := by
  intro written now
  have hbefore : beforeEnd closedTwice = closedTwice.take 1 := rfl
  have hstart : start {} {} = .ok () (opened {} {}) := Outcome.ofResult_succeeds (by decide)
  have hends : ∃ x ∈ closedTwice.take 4, x.2.Ends := by decide
  have hroom : ({} : Sink).room = none := rfl
  obtain ⟨hended, hlater⟩ := ended_contents {} hroom closedTwice
  rw [hbefore] at hended hlater
  obtain ⟨hnow, -, -, hfinish⟩ :=
    hlater _ (closedTwice.take 4) _ .finish [] hstart rfl hends
  exact ⟨hended, by decide +kernel, hnow, hfinish rfl⟩

end Builder

/-! ## Sessions -/

theorem Step.mem_of_mem_runAll {fs : FileSystem} {b : Builder} {steps : List Step}
    {x : Step × Outcome} (h : x ∈ runAll fs b steps) : x.1 ∈ steps := by
  induction steps generalizing b with
  | nil => cases h
  | cons s rest ih =>
    rw [runAll] at h
    rcases List.mem_cons.1 h with rfl | h
    · exact List.mem_cons_self
    · split at h
      · cases h
      · exact List.mem_cons_of_mem _ (ih h)

/-- Steps that are left out after an archive was handed over would have changed
    nothing. -/
theorem Step.last_runAll_eq_after (fs : FileSystem) (b : Builder) (steps : List Step) :
    ((runAll fs b steps).getLast?.map (·.2.builder)).getD b =
      b.after (steps.map fun s => (fs, s)) := by
  induction steps generalizing b with
  | nil => rfl
  | cons s rest ih =>
    show _ = Builder.after (Outcome.ofResult (s.run fs b)).builder (rest.map fun s => (fs, s))
    rw [runAll, List.getLast?_cons, Option.map_some, Option.getD_some]
    by_cases hs : s = .finish
    · have hclosed : (Outcome.ofResult (s.run fs b)).builder.isOpen = false := by
        rw [Builder.outcome_of_ends (.inr hs)]
        exact Builder.isOpen_stateOf_close b
      rw [if_pos hs, Builder.after_of_closed hclosed]
      rfl
    · rw [if_neg hs, ← ih]
      cases (runAll fs (Outcome.ofResult (s.run fs b)).builder rest).getLast? <;> rfl

namespace Session

variable (fs : FileSystem) (o : Options) (sink : Sink) (steps : List Step)

theorem last_eq_worked :
    (run fs o sink steps).last = Builder.worked o sink (steps.map fun s => (fs, s)) := by
  unfold Builder.worked
  cases hstart : Builder.start o sink with
  | error cause begun => simp [run, last, hstart, Outcome.ofResult]
  | ok _ begun =>
    dsimp only
    rw [← Step.last_runAll_eq_after]
    simp only [run, last, hstart, Outcome.ofResult]
    cases (Step.runAll fs begun steps).getLast? <;> rfl

/-- **A session leaves an archive that was opened, worked on and ended.** -/
theorem final_eq_ended :
    (run fs o sink steps).final = Builder.ended o sink (steps.map fun s => (fs, s)) := by
  unfold final Builder.ended
  rw [last_eq_worked]
  split
  · next hfinished =>
    symm
    apply Builder.drop_of_closed
    unfold Builder.worked
    cases hstart : Builder.start o sink with
    | error cause begun => simp [finished, run, hstart, Outcome.ofResult] at hfinished
    | ok _ begun =>
      have hmem : .finish ∈ steps := by
        simp only [finished, run, hstart, Outcome.ofResult, List.any_eq_true,
          decide_eq_true_eq] at hfinished
        obtain ⟨x, hx, hxfinish⟩ := hfinished
        exact hxfinish ▸ Step.mem_of_mem_runAll hx
      have hends : ∃ x ∈ steps.map fun s => (fs, s), x.2.Ends :=
        ⟨(fs, .finish), List.mem_map.2 ⟨_, hmem, rfl⟩, .inr rfl⟩
      dsimp only
      rw [Builder.after_of_ends hends]
      exact Builder.isOpen_stateOf_close _
  · rfl

end Session

end Tarball
