/-
  What an addition does at most.

  Whether it succeeds or fails, an addition writes to the sink, adds to the lists
  of a builder and tells things.  It never ends an archive or takes back what was
  written or told.

  * `Yields` says of a step how the state that it leaves is related to the one
    before, however it ends (`Yields.bind`, `Yields.forM`);
  * `Sink.Later` relates a sink to what becomes of it by writes, taken or refused:
    what was stored stays (`Sink.Later.prefix_contents`), and a full sink stays
    as it is (`Sink.Later.full`);
  * `Builder.Extends` relates a builder to what becomes of it by additions
    (`Step.run_extends`).
-/
import Tarball.Proofs.RoundTrip

namespace Tarball

/-! ## The state that a step leaves -/

section
variable {ε σ α β : Type}

/-- The state that a step leaves, whether it succeeds or fails. -/
def stateOf : EStateM.Result ε σ α → σ
  | .ok _ s | .error _ s => s

theorem Outcome.builder_ofResult (r : EStateM.Result Cause Builder Unit) :
    (Outcome.ofResult r).builder = stateOf r := by
  cases r <;> rfl

/-- A step that leaves a state related to the one before. -/
def Yields (Q : σ → σ → Prop) (x : EStateM ε σ α) : Prop :=
  ∀ s, Q s (stateOf (x s))

variable {Q : σ → σ → Prop}

theorem Yields.of_error (hrefl : ∀ s, Q s s) (e : ε) : Yields Q (throw e : EStateM ε σ α) :=
  hrefl

theorem Yields.of_pure (hrefl : ∀ s, Q s s) (a : α) : Yields Q (pure a : EStateM ε σ α) :=
  hrefl

theorem Yields.ofExcept (hrefl : ∀ s, Q s s) (x : Except ε α) :
    Yields Q (MonadExcept.ofExcept x : EStateM ε σ α) := by
  cases x with
  | ok a => exact hrefl
  | error e => exact hrefl

theorem Yields.bind (htrans : ∀ {s t u}, Q s t → Q t u → Q s u) {x : EStateM ε σ α}
    {f : α → EStateM ε σ β} (hx : Yields Q x) (hf : ∀ a, Yields Q (f a)) : Yields Q (x >>= f) := by
  intro s
  have hfirst := hx s
  cases h : x s with
  | ok a t =>
    rw [h] at hfirst
    rw [bind_of_ok h]
    exact htrans hfirst (hf a t)
  | error e t =>
    rw [h] at hfirst
    rw [bind_of_error h]
    exact hfirst

theorem Yields.forM (hrefl : ∀ s, Q s s) (htrans : ∀ {s t u}, Q s t → Q t u → Q s u) {ι : Type}
    {f : ι → EStateM ε σ Unit} (l : List ι) (hf : ∀ i ∈ l, Yields Q (f i)) : Yields Q (l.forM f) := by
  induction l with
  | nil => exact hrefl
  | cons i l ih =>
    have hrest := ih fun j hj => hf j (List.mem_cons_of_mem _ hj)
    exact (hf i List.mem_cons_self).bind @htrans fun _ => hrest

end

/-! ## Sinks -/

namespace Sink

/-- From a sink to the same one after some writes, taken or refused. -/
def Later : Sink → Sink → Prop :=
  Relation.ReflTransGen fun s s' => ∃ bytes, s' = s.push bytes

variable {s s' : Sink}

/-- What is stored stays. -/
theorem Later.prefix_contents (h : s.Later s') : s.contents <+: s'.contents := by
  induction h with
  | refl => exact List.prefix_rfl
  | tail _ hpush ih =>
    obtain ⟨bytes, rfl⟩ := hpush
    rw [contents_push]
    exact ih.trans (List.prefix_append _ _)

/-- No writes make a limit. -/
theorem Later.room_eq_none (h : s.Later s') (hroom : s.room = none) : s'.room = none := by
  induction h with
  | refl => exact hroom
  | tail _ hpush ih =>
    obtain ⟨bytes, rfl⟩ := hpush
    simp [push, ih]

/-- A sink that is full stores nothing more. -/
theorem Later.full (h : s.Later s') (hfull : s.room = some 0) :
    s'.room = some 0 ∧ s'.contents = s.contents := by
  induction h with
  | refl => exact ⟨hfull, rfl⟩
  | tail _ hpush ih =>
    obtain ⟨bytes, rfl⟩ := hpush
    obtain ⟨hroom, hcontents⟩ := ih
    constructor
    · simp [push, hroom]
    · simp [contents_push, fitting, hroom, hcontents]

theorem write_later (bytes : Bytes) : Yields Later (write bytes) := by
  intro s
  have hpush : s.Later (s.push bytes) := .single ⟨bytes, rfl⟩
  unfold write
  split
  · exact hpush
  · exact hpush

theorem copy_later (failure : Option Cause) (n : Nat) (chunks : List Bytes) :
    Yields Later (copy failure n chunks) := by
  induction chunks generalizing n with
  | nil =>
    cases n with
    | zero => exact fun _ => .refl
    | succ n => exact fun _ => .refl
  | cons chunk rest ih =>
    cases n with
    | zero => exact fun _ => .refl
    | succ n => exact (write_later _).bind .trans fun _ => ih _

end Sink

theorem Entry.write_later (e : Entry) (content : Reading) : Yields Sink.Later (e.write content) := by
  refine (Sink.write_later e.longRecords).bind .trans fun _ => ?_
  cases e.owner.fault with
  | some fault => exact fun _ => .refl
  | none =>
    refine (Sink.write_later e.header.block).bind .trans fun _ => ?_
    exact (Sink.copy_later _ _ _).bind .trans fun _ => Sink.write_later _

/-! ## Builders -/

namespace Builder

/-- From one builder to another by additions at most: the archive is as open as it
    was, and what was written and told is so still. -/
structure Extends (b b' : Builder) : Prop where
  isOpen : b'.isOpen = b.isOpen
  sink : b.sink.Later b'.sink
  told : b.noticeLog <:+ b'.noticeLog

theorem Extends.refl (b : Builder) : b.Extends b := ⟨rfl, .refl, List.suffix_rfl⟩

theorem Extends.trans {b₁ b₂ b₃ : Builder} (h : b₁.Extends b₂) (h' : b₂.Extends b₃) :
    b₁.Extends b₃ :=
  ⟨h'.isOpen.trans h.isOpen, h.sink.trans h'.sink, h.told.trans h'.told⟩

/-- What writing makes of a sink. -/
theorem sink_stateOf_writing (act : Writing Unit) (b : Builder) :
    (stateOf (writing act b)).sink = stateOf (act b.sink) := by
  unfold writing
  cases act b.sink <;> rfl

theorem store_extends (e : Entry) (content : Reading) : Yields Extends (store e content) := by
  intro b
  have hlater := e.write_later content b.sink
  rw [store_eq]
  cases hw : e.write content b.sink with
  | ok u s => rw [hw] at hlater; exact ⟨rfl, hlater, List.suffix_rfl⟩
  | error cause s => rw [hw] at hlater; exact ⟨rfl, hlater, List.suffix_rfl⟩

theorem addMissing_extends (owner : Owner) (name : String) :
    Yields Extends (addMissing owner name) := by
  intro b
  rw [addMissing_eq]
  split
  · exact .refl b
  · exact store_extends _ _ b

theorem tell_extends (notice : Notice) : Yields Extends (tell notice) :=
  fun _ => ⟨rfl, .refl, List.suffix_cons _ _⟩

theorem settle_extends (r : Request) (owner : Owner) (p : Placement) :
    Yields Extends (settle r owner p) := by
  intro b
  unfold settle
  split
  · split
    · exact .refl b
    · exact .refl b
  split
  · exact .refl b
  split
  · exact store_extends _ _ b
  split
  · exact ⟨rfl, .refl, List.suffix_cons _ _⟩
  · have hclaim : b.Extends { b with claimed := p.name :: b.claimed } :=
      ⟨rfl, .refl, List.suffix_rfl⟩
    exact hclaim.trans (store_extends _ _ _)

/-- **An addition extends a builder**, whether it succeeds or fails. -/
theorem addAt_extends (r : Request) (p : Placement) : Yields Extends (addAt r p) := by
  intro b
  rw [addAt_eq]
  split
  · have hfill : Yields Extends (p.ancestors.forM (addMissing (r.owner.getD b.owner))) :=
      .forM .refl .trans _ fun _ _ => addMissing_extends _ _
    exact hfill.bind .trans (fun _ => settle_extends r _ p) b
  · exact .refl b

theorem add_extends (r : Request) : Yields Extends (add r) :=
  fun b => addAt_extends r (.entry b.root r.name) b

theorem addInTree_extends (r : Request) : Yields Extends (addInTree r) :=
  fun b => addAt_extends r (.treeEntry b.root r.name) b

theorem requireOpen_extends : Yields Extends requireOpen := by
  intro b
  rw [requireOpen_eq]
  split
  · exact .refl b
  · exact .refl b

theorem addRoot_extends : Yields Extends addRoot := by
  intro b
  rw [addRoot_eq]
  split
  · exact add_extends _ b
  · exact .refl b

variable (fs : FileSystem)

theorem openNow_extends (loc : Location) : Yields Extends (openNow fs loc) :=
  fun b => Yields.ofExcept .refl (fs.openDuring b.sink loc) b

theorem openSpot_extends (spot : Spot) : Yields Extends (openSpot fs spot) := by
  unfold openSpot
  split
  · exact .of_error .refl _
  · exact openNow_extends fs _

theorem importFile_extends (name : String) (source : Bytes) (mode : Option UInt32) :
    Yields Extends (importFile fs name source mode) := by
  refine (Yields.ofExcept .refl _).bind .trans fun loc => ?_
  exact (openNow_extends fs loc).bind .trans fun _ => add_extends _

theorem importItem_extends (dest : String) (mode : Option UInt32) (spot : Spot) :
    Yields Extends (importItem fs dest mode spot) := by
  refine (Yields.ofExcept .refl _).bind .trans fun name => ?_
  split
  · exact addInTree_extends _
  · exact (openSpot_extends fs spot).bind .trans fun _ => addInTree_extends _
  · exact tell_extends _

theorem importWalk_extends (dest : String) (mode : Option UInt32) (walk : Walk) :
    Yields Extends (importWalk fs dest mode walk) := by
  refine (Yields.forM .refl .trans _ fun spot _ => importItem_extends fs dest mode spot).bind .trans
    fun _ => ?_
  split
  · exact .of_error .refl _
  · exact .of_pure .refl _

theorem importTree_extends (dest : String) (source : Bytes) (mode : Option UInt32) :
    Yields Extends (importTree fs dest source mode) := by
  refine requireOpen_extends.bind .trans fun _ => ?_
  refine (Yields.ofExcept .refl _).bind .trans fun node => ?_
  split
  · exact (Yields.ofExcept .refl _).bind .trans fun _ => importWalk_extends fs dest mode _
  · exact importFile_extends fs dest source mode

end Builder

/-- **A step that does not end an archive extends it.** -/
theorem Step.run_extends (fs : FileSystem) {s : Step} (hadd : ¬ s.Ends) :
    Yields Builder.Extends (s.run fs) := by
  cases s with
  | add r => exact Builder.add_extends r
  | importFile name source mode => exact Builder.importFile_extends fs name source mode
  | importTree dest source mode => exact Builder.importTree_extends fs dest source mode
  | close => exact absurd (.inl rfl) hadd
  | finish => exact absurd (.inr rfl) hadd

end Tarball
