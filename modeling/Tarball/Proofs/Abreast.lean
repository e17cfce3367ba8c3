/-
  Two archives made abreast.

  Two builders differ only in their sinks and in what there was to tell.  As long
  as their sinks take the same writes, additions to them come to the same end, down
  to the cause of a failure.  A write that only one of the sinks refuses leaves the
  archive on it behind.

  * `Abreast` says of two steps that from related states they come to the same end
    in related states, or the former fails and is left behind (`Abreast.bind`,
    `Abreast.forM`);
  * `Sink.Companions` are two relations between sinks that writes keep: that the
    sinks are abreast, and that the former has been left behind;
  * `Builder.Beside` relates builders whose sinks are abreast, `Builder.Behind`
    those of which the former has been left behind;
  * `Builder.addAt_abreast`: additions keep builders so.
-/
import Tarball.Proofs.Extension

namespace Tarball

/-! ## Steps abreast -/

section
variable {ε σ α β : Type}

/-- Two results that are the same, with related states; or the former is a failure
    whose state has been left behind. -/
inductive InStep (R C : σ → σ → Prop) : EStateM.Result ε σ α → EStateM.Result ε σ α → Prop
  | ok {a : α} {s t : σ} (state : R s t) : InStep R C (.ok a s) (.ok a t)
  | error {e : ε} {s t : σ} (state : R s t) : InStep R C (.error e s) (.error e t)
  | behind {e : ε} {s : σ} {r : EStateM.Result ε σ α} (state : C s (stateOf r)) :
      InStep R C (.error e s) r

theorem InStep.of_ok {R C : σ → σ → Prop} {a : α} {s : σ} {r : EStateM.Result ε σ α}
    (h : InStep R C (.ok a s) r) : ∃ t, r = .ok a t ∧ R s t := by
  cases h with
  | ok state => exact ⟨_, rfl, state⟩

theorem InStep.of_error {R C : σ → σ → Prop} {e : ε} {s : σ} {r : EStateM.Result ε σ α}
    (h : InStep R C (.error e s) r) : (∃ t, r = .error e t ∧ R s t) ∨ C s (stateOf r) := by
  cases h with
  | error state => exact .inl ⟨_, rfl, state⟩
  | behind state => exact .inr state

/-- Two steps that come to such results from related states.  What has been left
    behind stays so, whatever the latter does. -/
structure Abreast (R C : σ → σ → Prop) (x y : EStateM ε σ α) : Prop where
  inStep : ∀ s t, R s t → InStep R C (x s) (y t)
  behind : ∀ s t, C s t → C s (stateOf (y t))

variable {R C : σ → σ → Prop}

theorem Abreast.of_pure (a : α) : Abreast R C (pure a : EStateM ε σ α) (pure a) :=
  ⟨fun _ _ h => .ok h, fun _ _ h => h⟩

theorem Abreast.of_throw (e : ε) : Abreast R C (throw e : EStateM ε σ α) (throw e) :=
  ⟨fun _ _ h => .error h, fun _ _ h => h⟩

theorem Abreast.ofExcept (x : Except ε α) :
    Abreast R C (MonadExcept.ofExcept x : EStateM ε σ α) (MonadExcept.ofExcept x) := by
  cases x with
  | ok a => exact .of_pure a
  | error e => exact .of_throw e

/-- Whatever the latter goes on to do, what has been left behind stays so. -/
theorem behind_bind {s : σ} {y : EStateM ε σ α} {g : α → EStateM ε σ β} {t : σ}
    (h : C s (stateOf (y t))) (hg : ∀ a t, C s t → C s (stateOf (g a t))) :
    C s (stateOf ((y >>= g) t)) := by
  cases hy : y t with
  | ok a t' =>
    rw [hy] at h
    rw [bind_of_ok hy]
    exact hg a t' h
  | error e t' =>
    rw [hy] at h
    rw [bind_of_error hy]
    exact h

theorem InStep.bind {x y : EStateM ε σ α} {f g : α → EStateM ε σ β} {s t : σ}
    (h : InStep R C (x s) (y t)) (hfg : ∀ a, Abreast R C (f a) (g a)) :
    InStep R C ((x >>= f) s) ((y >>= g) t) := by
  have hlater : ∀ s, C s (stateOf (y t)) → C s (stateOf ((y >>= g) t)) := fun s hs =>
    behind_bind hs fun a t' => (hfg a).behind s t'
  cases hx : x s with
  | ok a s' =>
    rw [hx] at h
    obtain ⟨t', hy, hstates⟩ := h.of_ok
    rw [bind_of_ok hx, bind_of_ok hy]
    exact (hfg a).inStep s' t' hstates
  | error e s' =>
    rw [hx] at h
    rw [bind_of_error hx]
    obtain ⟨t', hy, hstates⟩ | hbehind := h.of_error
    · rw [bind_of_error hy]
      exact .error hstates
    · exact .behind (hlater s' hbehind)

theorem Abreast.bind {x y : EStateM ε σ α} {f g : α → EStateM ε σ β} (hxy : Abreast R C x y)
    (hfg : ∀ a, Abreast R C (f a) (g a)) : Abreast R C (x >>= f) (y >>= g) where
  inStep s t hst := (hxy.inStep s t hst).bind hfg
  behind s t hst := behind_bind (hxy.behind s t hst) fun a t' => (hfg a).behind s t'

theorem Abreast.forM {ι : Type} {f g : ι → EStateM ε σ Unit} {l : List ι}
    (hfg : ∀ i ∈ l, Abreast R C (f i) (g i)) : Abreast R C (l.forM f) (l.forM g) := by
  induction l with
  | nil => exact .of_pure ()
  | cons i l ih =>
    refine (hfg i List.mem_cons_self).bind fun _ => ih fun j hj => ?_
    exact hfg j (List.mem_cons_of_mem _ hj)

end

/-! ## Sinks abreast -/

/-- Two relations between sinks that a write keeps: that they are abreast and that
    the former has been left behind.  To whoever reads them, sinks that are abreast
    hold the same. -/
structure Sink.Companions (S D : Sink → Sink → Prop) : Prop where
  write : ∀ bytes, Abreast S D (Sink.write bytes) (Sink.write bytes)
  place : ∀ {s t}, S s t → s.place = t.place
  contents : ∀ {s t}, S s t → s.contents = t.contents

variable {S D : Sink → Sink → Prop}

theorem Sink.Companions.openDuring (h : Sink.Companions S D) {s t : Sink} (hst : S s t)
    (fs : FileSystem) (loc : Location) : fs.openDuring s loc = fs.openDuring t loc := by
  rw [FileSystem.openDuring_eq, FileSystem.openDuring_eq, FileSystem.including,
    FileSystem.including, h.place hst, h.contents hst]

theorem Sink.copy_abreast (h : Sink.Companions S D) (failure : Option Cause) (n : Nat)
    (chunks : List Bytes) : Abreast S D (copy failure n chunks) (copy failure n chunks) := by
  induction chunks generalizing n with
  | nil =>
    cases n with
    | zero => exact .of_pure ()
    | succ n => exact .of_throw _
  | cons chunk rest ih =>
    cases n with
    | zero => exact .of_pure ()
    | succ n => exact (h.write _).bind fun _ => ih _

theorem Entry.write_abreast (h : Sink.Companions S D) (e : Entry) (content : Reading) :
    Abreast S D (e.write content) (e.write content) := by
  refine (h.write e.longRecords).bind fun _ => ?_
  cases e.owner.fault with
  | some fault => exact .of_throw fault
  | none =>
    refine (h.write e.header.block).bind fun _ => ?_
    exact (Sink.copy_abreast h _ _ _).bind fun _ => h.write _

/-! ## Builders abreast -/

namespace Builder

/-- Two builders that differ in their sinks, which are abreast, and in what there was
    to tell. -/
def Beside (S : Sink → Sink → Prop) (N : List Notice → List Notice → Prop) (b b' : Builder) :
    Prop :=
  ∃ sink noticeLog, S b.sink sink ∧ N b.noticeLog noticeLog ∧ b' = { b with sink, noticeLog }

/-- Two builders of which the former, by its sink, has been left behind. -/
def Behind (D : Sink → Sink → Prop) (b b' : Builder) : Prop :=
  D b.sink b'.sink

variable {N : List Notice → List Notice → Prop}

theorem writing_abreast {act : Writing Unit} (h : Abreast S D act act) :
    Abreast (Beside S N) (Behind D) (writing act) (writing act) := by
  constructor
  · rintro b _ ⟨sink, noticeLog, hsinks, htold, rfl⟩
    have hact := h.inStep b.sink sink hsinks
    cases hb : act b.sink with
    | ok u s =>
      rw [hb] at hact
      obtain ⟨s', hb', hstates⟩ := hact.of_ok
      simp only [writing, hb, hb']
      exact .ok ⟨s', noticeLog, hstates, htold, rfl⟩
    | error cause s =>
      rw [hb] at hact
      obtain ⟨s', hb', hstates⟩ | hbehind := hact.of_error
      · simp only [writing, hb, hb']
        exact .error ⟨s', noticeLog, hstates, htold, rfl⟩
      · have hfailed : writing act b = .error cause { b with sink := s } := by
          simp only [writing, hb]
        rw [hfailed]
        refine .behind ?_
        rw [Behind, sink_stateOf_writing]
        exact hbehind
  · intro b b' hbehind
    rw [Behind, sink_stateOf_writing]
    exact h.behind b.sink b'.sink hbehind

theorem store_abreast (h : Sink.Companions S D) (e : Entry) (content : Reading) :
    Abreast (Beside S N) (Behind D) (store e content) (store e content) := by
  refine (writing_abreast (e.write_abreast h content)).bind fun _ => ⟨?_, fun _ _ hb => hb⟩
  rintro b _ ⟨sink, noticeLog, hsinks, htold, rfl⟩
  exact .ok ⟨sink, noticeLog, hsinks, htold, rfl⟩

theorem addMissing_abreast (h : Sink.Companions S D) (owner : Owner) (name : String) :
    Abreast (Beside S N) (Behind D) (addMissing owner name) (addMissing owner name) := by
  have hstore := fun b : Builder => store_abreast (N := N) h (b.directoryEntry owner name) {}
  constructor
  · intro b b' hb
    have hstored := (hstore b).inStep b b' hb
    rw [addMissing_eq, addMissing_eq]
    obtain ⟨sink, noticeLog, hsinks, htold, rfl⟩ := hb
    dsimp only
    split
    · exact .ok ⟨sink, noticeLog, hsinks, htold, rfl⟩
    · exact hstored
  · intro b b' hb
    rw [addMissing_eq]
    split
    · exact hb
    · exact (hstore b').behind b b' hb

/-- What becomes of a request is the same for both. -/
theorem settle_abreast (h : Sink.Companions S D)
    (hN : ∀ name l l', N l l' → N (.duplicate name :: l) (.duplicate name :: l')) (r : Request)
    (owner : Owner) (p : Placement) :
    Abreast (Beside S N) (Behind D) (settle r owner p) (settle r owner p) := by
  have hstore := fun b : Builder => store_abreast (N := N) h (b.entryFor r owner p.name)
    r.stored.reading
  constructor
  · rintro b _ ⟨sink, noticeLog, hsinks, htold, rfl⟩
    have hbeside : Beside S N b { b with sink, noticeLog } := ⟨sink, noticeLog, hsinks, htold, rfl⟩
    unfold settle
    dsimp only
    split
    · split
      · exact .ok hbeside
      · exact .error hbeside
    split
    · exact .ok hbeside
    split
    · exact (hstore b).inStep _ _ hbeside
    split
    · exact .ok ⟨sink, _, hsinks, hN _ _ _ htold, rfl⟩
    · exact (hstore b).inStep { b with claimed := p.name :: b.claimed } _
        ⟨sink, noticeLog, hsinks, htold, rfl⟩
  · intro b b' hb
    unfold settle
    split
    · split
      · exact hb
      · exact hb
    split
    · exact hb
    split
    · exact (hstore b').behind b b' hb
    split
    · exact hb
    · exact (hstore b').behind b { b' with claimed := p.name :: b'.claimed } hb

/-- **An addition comes to the same end for both**, or leaves the former behind. -/
theorem addAt_abreast (h : Sink.Companions S D)
    (hN : ∀ name l l', N l l' → N (.duplicate name :: l) (.duplicate name :: l')) (r : Request)
    (p : Placement) : Abreast (Beside S N) (Behind D) (addAt r p) (addAt r p) := by
  have hboth : ∀ owner, Abreast (Beside S N) (Behind D)
      (p.ancestors.forM (addMissing owner) >>= fun _ => settle r owner p)
      (p.ancestors.forM (addMissing owner) >>= fun _ => settle r owner p) := fun owner =>
    (Abreast.forM fun name _ => addMissing_abreast h owner name).bind fun _ =>
      settle_abreast h hN r owner p
  constructor
  · intro b b' hb
    have hadded := (hboth (r.owner.getD b.owner)).inStep b b' hb
    rw [addAt_eq, addAt_eq]
    obtain ⟨sink, noticeLog, hsinks, htold, rfl⟩ := hb
    dsimp only
    split
    · exact hadded
    · exact .error ⟨sink, noticeLog, hsinks, htold, rfl⟩
  · intro b b' hb
    rw [addAt_eq]
    split
    · exact (hboth _).behind b b' hb
    · exact hb

theorem add_abreast (h : Sink.Companions S D)
    (hN : ∀ name l l', N l l' → N (.duplicate name :: l) (.duplicate name :: l')) (r : Request) :
    Abreast (Beside S N) (Behind D) (add r) (add r) := by
  constructor
  · intro b b' hb
    have hadded := (addAt_abreast h hN r (.entry b.root r.name)).inStep b b' hb
    obtain ⟨sink, noticeLog, hsinks, htold, rfl⟩ := hb
    exact hadded
  · intro b b' hb
    exact (addAt_abreast h hN r (.entry b'.root r.name)).behind b b' hb

theorem addInTree_abreast (h : Sink.Companions S D)
    (hN : ∀ name l l', N l l' → N (.duplicate name :: l) (.duplicate name :: l')) (r : Request) :
    Abreast (Beside S N) (Behind D) (addInTree r) (addInTree r) := by
  constructor
  · intro b b' hb
    have hadded := (addAt_abreast h hN r (.treeEntry b.root r.name)).inStep b b' hb
    obtain ⟨sink, noticeLog, hsinks, htold, rfl⟩ := hb
    exact hadded
  · intro b b' hb
    exact (addAt_abreast h hN r (.treeEntry b'.root r.name)).behind b b' hb

theorem requireOpen_abreast : Abreast (Beside S N) (Behind D) requireOpen requireOpen := by
  constructor
  · rintro b _ ⟨sink, noticeLog, hsinks, htold, rfl⟩
    rw [requireOpen_eq, requireOpen_eq]
    dsimp only
    split
    · exact .ok ⟨sink, noticeLog, hsinks, htold, rfl⟩
    · exact .error ⟨sink, noticeLog, hsinks, htold, rfl⟩
  · intro b b' hb
    rw [requireOpen_eq]
    split
    · exact hb
    · exact hb

/-- What is opened is the same for both, if it is so where their sinks are abreast. -/
theorem openNow_abreast {fs fs' : FileSystem} {loc loc' : Location}
    (h : ∀ {s t}, S s t → fs.openDuring s loc = fs'.openDuring t loc') :
    Abreast (Beside S N) (Behind D) (openNow fs loc) (openNow fs' loc') := by
  constructor
  · intro b b' hb
    have hopened := (Abreast.ofExcept (R := Beside S N) (C := Behind D)
      (fs.openDuring b.sink loc)).inStep b b' hb
    obtain ⟨sink, noticeLog, hsinks, htold, rfl⟩ := hb
    rw [openNow_eq, openNow_eq, ← h hsinks]
    exact hopened
  · intro b b' hb
    rw [openNow_eq]
    exact (Abreast.ofExcept (R := Beside S N) (fs'.openDuring b'.sink loc')).behind b b' hb

theorem openSpot_abreast {fs fs' : FileSystem} {spot : Spot}
    (h : ∀ {s t}, S s t → fs.openDuring s spot.location = fs'.openDuring t spot.location) :
    Abreast (Beside S N) (Behind D) (openSpot fs spot) (openSpot fs' spot) := by
  unfold openSpot
  split
  · exact .of_throw _
  · exact openNow_abreast h

end Builder

end Tarball
