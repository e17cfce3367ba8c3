/-
  Two archives made side by side.

  Two builders that differ only in what there was to tell and in where their
  archives are take the same steps to the same end: both succeed or both fail,
  and when they succeed they differ in nothing else still.

  * `Lockstep` says of two steps that they keep a relation between two states;
  * `Builder.Twin` is the relation between the builders;
  * `Builder.addAt_lockstep` and `Builder.finish_lockstep`: additions and the end
    of an archive keep it.
-/
import Mathlib.Data.List.Forall2
import Tarball.Proofs.Moves

namespace Tarball

/-! ## Steps side by side -/

section
variable {ε δ σ τ α β γ κ : Type}

/-- Two results of the same kind: two failures, or two successes whose values and
    states are related. -/
inductive Alongside (R : σ → τ → Prop) (Q : α → β → Prop) :
    EStateM.Result ε σ α → EStateM.Result δ τ β → Prop
  | ok {a : α} {b : β} {s : σ} {t : τ} (value : Q a b) (state : R s t) :
      Alongside R Q (.ok a s) (.ok b t)
  | error {e : ε} {d : δ} {s : σ} {t : τ} : Alongside R Q (.error e s) (.error d t)

/-- Two steps whose results from related states are of the same kind. -/
def Lockstep (R : σ → τ → Prop) (Q : α → β → Prop) (x : EStateM ε σ α) (y : EStateM δ τ β) : Prop :=
  ∀ s t, R s t → Alongside R Q (x s) (y t)

variable {R : σ → τ → Prop} {Q : α → β → Prop} {P : γ → κ → Prop}

theorem Alongside.of_ok {y : EStateM.Result δ τ β} {a : α} {s : σ}
    (h : Alongside R Q (.ok a s : EStateM.Result ε σ α) y) : ∃ b t, y = .ok b t ∧ Q a b ∧ R s t := by
  cases h with
  | ok value state => exact ⟨_, _, rfl, value, state⟩

theorem Alongside.of_error {y : EStateM.Result δ τ β} {e : ε} {s : σ}
    (h : Alongside R Q (.error e s : EStateM.Result ε σ α) y) : ∃ d t, y = .error d t := by
  cases h with
  | error => exact ⟨_, _, rfl⟩

theorem Alongside.bind {x : EStateM ε σ α} {y : EStateM δ τ β} {f : α → EStateM ε σ γ}
    {g : β → EStateM δ τ κ} {s : σ} {t : τ} (h : Alongside R Q (x s) (y t))
    (hf : ∀ a b, Q a b → Lockstep R P (f a) (g b)) : Alongside R P ((x >>= f) s) ((y >>= g) t) := by
  cases hx : x s with
  | ok a s' =>
    rw [hx] at h
    obtain ⟨b, t', hy, hvalue, hstate⟩ := h.of_ok
    rw [bind_of_ok hx, bind_of_ok hy]
    exact hf a b hvalue s' t' hstate
  | error e s' =>
    rw [hx] at h
    obtain ⟨d, t', hy⟩ := h.of_error
    rw [bind_of_error hx, bind_of_error hy]
    exact .error

theorem Lockstep.bind {x : EStateM ε σ α} {y : EStateM δ τ β} {f : α → EStateM ε σ γ}
    {g : β → EStateM δ τ κ} (h : Lockstep R Q x y) (hf : ∀ a b, Q a b → Lockstep R P (f a) (g b)) :
    Lockstep R P (x >>= f) (y >>= g) :=
  fun s t hst => (h s t hst).bind hf

/-- Steps that succeed as other ones do are in lockstep where those are. -/
theorem Lockstep.of_ok_iff {ε' δ' : Type} {x : EStateM ε σ Unit} {x' : EStateM ε' σ Unit}
    {y : EStateM δ τ Unit} {y' : EStateM δ' τ Unit} (h : Lockstep R Eq x y)
    (hx : ∀ s s', x' s = .ok () s' ↔ x s = .ok () s')
    (hy : ∀ t t', y' t = .ok () t' ↔ y t = .ok () t') : Lockstep R Eq x' y' := by
  intro s t hst
  have hxy := h s t hst
  cases h₁ : x s with
  | ok _ s' =>
    rw [h₁] at hxy
    obtain ⟨_, t', h₂, -, hstate⟩ := hxy.of_ok
    rw [(hx s s').2 h₁, (hy t t').2 h₂]
    exact .ok rfl hstate
  | error e s' =>
    rw [h₁] at hxy
    obtain ⟨d, t', h₂⟩ := hxy.of_error
    cases h₃ : x' s with
    | ok _ s'' => rw [(hx s s'').1 h₃] at h₁; cases h₁
    | error =>
      cases h₄ : y' t with
      | ok _ t'' => rw [(hy t t'').1 h₄] at h₂; cases h₂
      | error => exact .error

theorem ofExcept_lockstep (x : Except ε α) :
    Lockstep R Eq (MonadExcept.ofExcept x : EStateM ε σ α)
      (MonadExcept.ofExcept x : EStateM ε τ α) := by
  intro s t h
  cases x with
  | ok a => exact .ok rfl h
  | error e => exact .error

/-- Lists worked off side by side, item by item. -/
theorem Lockstep.forM {ι κ : Type} {f : ι → EStateM ε σ Unit} {g : κ → EStateM δ τ Unit} {l : List ι}
    {r : List κ} {S : ι → κ → Prop} (h : List.Forall₂ S l r)
    (hfg : ∀ i j, S i j → Lockstep R Eq (f i) (g j)) : Lockstep R Eq (l.forM f) (r.forM g) := by
  induction h with
  | nil => exact fun s t hst => .ok rfl hst
  | cons hij _ ih => exact (hfg _ _ hij).bind fun _ _ _ => ih

end

/-! ## Sinks in different places -/

namespace Sink

/-- Two sinks that differ only in their places. -/
def Twin (loc loc' : Location) (s t : Sink) : Prop :=
  s.place = some loc ∧ t = { s with place := some loc' }

variable {loc loc' : Location}

theorem write_lockstep (bytes : Bytes) :
    Lockstep (Twin loc loc') Eq (write bytes) (write bytes) := by
  rintro s _ ⟨hplace, rfl⟩
  have hfits : ({ s with place := some loc' } : Sink).fits bytes = s.fits bytes := rfl
  unfold write
  rw [hfits]
  split
  · exact .ok rfl ⟨hplace, rfl⟩
  · exact .error

theorem copy_lockstep (failure : Option Cause) (n : Nat) (chunks : List Bytes) :
    Lockstep (Twin loc loc') Eq (copy failure n chunks) (copy failure n chunks) := by
  induction chunks generalizing n with
  | nil =>
    cases n with
    | zero => exact fun s t hst => .ok rfl hst
    | succ n => exact fun s t hst => .error
  | cons chunk rest ih =>
    cases n with
    | zero => exact fun s t hst => .ok rfl hst
    | succ n => exact (write_lockstep _).bind fun _ _ _ => ih _

end Sink

theorem Entry.write_lockstep {loc loc' : Location} (e : Entry) (content : Reading) :
    Lockstep (Sink.Twin loc loc') Eq (e.write content) (e.write content) := by
  refine (Sink.write_lockstep e.longRecords).bind fun _ _ _ => ?_
  cases e.owner.fault with
  | some fault => exact fun s t hst => .error
  | none =>
    refine (Sink.write_lockstep e.header.block).bind fun _ _ _ => ?_
    exact (Sink.copy_lockstep _ _ _).bind fun _ _ _ => Sink.write_lockstep _

/-! ## Builders of archives in different places -/

namespace Builder

/-- Two builders that differ only in what there was to tell and in where their
    archives are. -/
def Twin (loc loc' : Location) (b b' : Builder) : Prop :=
  b.sink.place = some loc ∧
    ∃ noticeLog, b' = { b with noticeLog, sink := { b.sink with place := some loc' } }

variable {loc loc' : Location}

theorem twin_fresh (o : Options) : Twin loc loc' (fresh o { place := some loc })
    (fresh o { place := some loc' }) :=
  ⟨rfl, [], rfl⟩

theorem Twin.place {b b' : Builder} (h : Twin loc loc' b b') : b.sink.place = some loc := h.1

theorem Twin.place' {b b' : Builder} (h : Twin loc loc' b b') : b'.sink.place = some loc' := by
  obtain ⟨-, noticeLog, rfl⟩ := h
  rfl

theorem Twin.contents {b b' : Builder} (h : Twin loc loc' b b') :
    b.sink.contents = b'.sink.contents := by
  obtain ⟨-, noticeLog, rfl⟩ := h
  rfl

theorem Twin.record {b b' : Builder} (h : Twin loc loc' b b') (m : Member) :
    Twin loc loc' (record m b) (record m b') := by
  obtain ⟨hplace, noticeLog, rfl⟩ := h
  exact ⟨hplace, noticeLog, rfl⟩

theorem writing_lockstep {act : Writing Unit} (h : Lockstep (Sink.Twin loc loc') Eq act act) :
    Lockstep (Twin loc loc') Eq (writing act) (writing act) := by
  rintro b _ ⟨hplace, noticeLog, rfl⟩
  have hact := h b.sink { b.sink with place := some loc' } ⟨hplace, rfl⟩
  unfold writing
  dsimp only
  cases h₁ : act b.sink with
  | ok u s =>
    rw [h₁] at hact
    obtain ⟨u', _, h₂, hvalue, hplace', rfl⟩ := hact.of_ok
    rw [h₂]
    exact .ok hvalue ⟨hplace', noticeLog, rfl⟩
  | error cause s =>
    rw [h₁] at hact
    obtain ⟨cause', t, h₂⟩ := hact.of_error
    rw [h₂]
    exact .error

theorem store_lockstep (e : Entry) (content : Reading) :
    Lockstep (Twin loc loc') Eq (store e content) (store e content) := by
  refine (writing_lockstep (e.write_lockstep content)).bind fun _ _ _ => ?_
  exact fun b b' h => .ok rfl (h.record _)

theorem addMissing_lockstep (owner : Owner) (name : String) :
    Lockstep (Twin loc loc') Eq (addMissing owner name) (addMissing owner name) := by
  intro b b' h
  rw [addMissing_eq, addMissing_eq]
  have hstore := store_lockstep (b.directoryEntry owner name) {} b b' h
  obtain ⟨hplace, noticeLog, rfl⟩ := h
  dsimp only
  split
  · exact .ok rfl ⟨hplace, noticeLog, rfl⟩
  · exact hstore

/-- What becomes of a request is the same in both archives. -/
theorem settle_lockstep (r : Request) (owner : Owner) (p : Placement) :
    Lockstep (Twin loc loc') Eq (settle r owner p) (settle r owner p) := by
  intro b b' h
  have hstore : ∀ b b', Twin loc loc' b b' →
      Alongside (Twin loc loc') Eq (store (b.entryFor r owner p.name) r.stored.reading b)
        (store (b.entryFor r owner p.name) r.stored.reading b') :=
    fun b b' h => store_lockstep _ _ b b' h
  obtain ⟨hplace, noticeLog, rfl⟩ := h
  unfold settle
  dsimp only
  split
  · split
    · exact .ok rfl ⟨hplace, noticeLog, rfl⟩
    · exact .error
  split
  · exact .ok rfl ⟨hplace, noticeLog, rfl⟩
  split
  · exact hstore _ _ ⟨hplace, noticeLog, rfl⟩
  split
  · exact .ok rfl ⟨hplace, _, rfl⟩
  · exact hstore { b with claimed := p.name :: b.claimed } _ ⟨hplace, noticeLog, rfl⟩

/-- **An addition is the same in both archives.** -/
theorem addAt_lockstep (r : Request) (p : Placement) :
    Lockstep (Twin loc loc') Eq (addAt r p) (addAt r p) := by
  intro b b' h
  have hsame : List.Forall₂ Eq p.ancestors p.ancestors := List.forall₂_same.2 fun _ _ => rfl
  have hfill := Lockstep.forM (R := Twin loc loc') hsame fun a a' he => by
    subst he
    exact addMissing_lockstep (r.owner.getD b.owner) a
  have hadd := hfill.bind (P := Eq) (fun _ _ _ => settle_lockstep r (r.owner.getD b.owner) p) b b' h
  rw [addAt_eq, addAt_eq]
  obtain ⟨-, noticeLog, rfl⟩ := h
  dsimp only
  split
  · exact hadd
  · exact .error

theorem add_lockstep (r : Request) : Lockstep (Twin loc loc') Eq (add r) (add r) := by
  intro b b' h
  have hadd := addAt_lockstep r (.entry b.root r.name) b b' h
  obtain ⟨-, noticeLog, rfl⟩ := h
  exact hadd

theorem addInTree_lockstep (r : Request) :
    Lockstep (Twin loc loc') Eq (addInTree r) (addInTree r) := by
  intro b b' h
  have hadd := addAt_lockstep r (.treeEntry b.root r.name) b b' h
  obtain ⟨-, noticeLog, rfl⟩ := h
  exact hadd

theorem tell_lockstep (notice notice' : Notice) :
    Lockstep (Twin loc loc') Eq (tell notice) (tell notice') := by
  rintro b _ ⟨hplace, noticeLog, rfl⟩
  exact .ok rfl ⟨hplace, notice' :: noticeLog, rfl⟩

theorem requireOpen_lockstep : Lockstep (Twin loc loc') Eq requireOpen requireOpen := by
  rintro b _ ⟨hplace, noticeLog, rfl⟩
  rw [requireOpen_eq, requireOpen_eq]
  dsimp only
  split
  · exact .ok rfl ⟨hplace, noticeLog, rfl⟩
  · exact .error

/-- **The end of an archive is the same in both.** -/
theorem finish_lockstep : Lockstep (Twin loc loc') Eq finish finish := by
  refine requireOpen_lockstep.bind fun _ _ _ => ?_
  intro b b' h
  rw [close_eq, close_eq]
  obtain ⟨hplace, noticeLog, rfl⟩ := h
  dsimp only
  split
  · exact writing_lockstep (Sink.write_lockstep endMarker) { b with isOpen := false } _
      ⟨hplace, noticeLog, rfl⟩
  · exact .ok rfl ⟨hplace, noticeLog, rfl⟩

/-- **Opening an archive is the same in both.** -/
theorem addRoot_lockstep : Lockstep (Twin loc loc') Eq addRoot addRoot := by
  intro b b' h
  have hadd := add_lockstep (.directory "") b b' h
  rw [addRoot_eq, addRoot_eq]
  obtain ⟨hplace, noticeLog, rfl⟩ := h
  dsimp only
  split
  · exact hadd
  · exact .ok rfl ⟨hplace, noticeLog, rfl⟩

end Builder

end Tarball
