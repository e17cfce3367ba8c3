/-
  Steps of the making.

  What a step of the making does to an archive is what it makes the builder do.

  * `Assembling.ofBuilding_ok_iff` and `Assembling.within_ok_iff`: a step succeeds
    where the one inside it does;
  * `Assembling.Does` says that a step comes down to moves at given places, also
    where it fails (`Assembling.Does.forM`: steps one after the other do);
  * `Build.addSource_does`: a source is asked for at its destination or below it.
-/
import Tarball.Build
import Tarball.Proofs.Moves

namespace Tarball
open Builder (Moves Torn)

namespace Assembling

variable {places : Placement → Prop} {act : Assembling Unit} {b : Builder}

theorem ofBuilding_ok_iff {act : Building Unit} {b b' : Builder} :
    ofBuilding act b = .ok () b' ↔ act b = .ok () b' := by
  unfold ofBuilding
  cases act b with
  | ok u s =>
    constructor
    · intro h; cases h; rfl
    · intro h; cases h; rfl
  | error cause s =>
    constructor
    · intro h; cases h
    · intro h; cases h

theorem within_ok_iff {context : Context} {act : Assembling Unit} {b b' : Builder} :
    within context act b = .ok () b' ↔ act b = .ok () b' := by
  unfold within
  cases act b with
  | ok u s =>
    constructor
    · intro h; cases h; rfl
    · intro h; cases h; rfl
  | error e s =>
    constructor
    · intro h; cases h
    · intro h; cases h

/-- What a step of the making does comes down to moves at the places given. -/
structure Does (places : Placement → Prop) (act : Assembling Unit) (b : Builder) : Prop where
  ok : ∀ {b'}, act b = .ok () b' → Moves places b b'
  error : ∀ {e b'}, act b = .error e b' →
    ∃ cause b₁, Moves places b b₁ ∧ Torn places cause b₁ b'

theorem Does.of_error {e : Error} (h : act b = .error e b) : Does places act b where
  ok h' := by rw [h] at h'; cases h'
  error h' := by
    rw [h] at h'
    cases h'
    exact ⟨e.cause, b, .refl, .clean b⟩

theorem Does.of_eq {act' : Assembling Unit} (h : act b = act' b) (hd : Does places act' b) :
    Does places act b where
  ok h' := hd.ok (h ▸ h')
  error h' := hd.error (h ▸ h')

theorem ofBuilding_does {step : Building Unit} (h : Builder.Does places step b) :
    Does places (ofBuilding step) b := by
  constructor
  · intro b' hact
    exact h.ok (ofBuilding_ok_iff.1 hact)
  · intro e b' hact
    unfold ofBuilding at hact
    cases hstep : step b with
    | ok _ b₁ => rw [hstep] at hact; cases hact
    | error cause b₁ =>
      rw [hstep] at hact
      cases hact
      obtain ⟨b₂, hmoves, htorn⟩ := h.error hstep
      exact ⟨cause, b₂, hmoves, htorn⟩

theorem within_does (context : Context) (h : Does places act b) :
    Does places (within context act) b := by
  constructor
  · intro b' hact
    exact h.ok (within_ok_iff.1 hact)
  · intro e b' hact
    unfold within at hact
    cases hstep : act b with
    | ok _ b₁ => rw [hstep] at hact; cases hact
    | error e₁ b₁ =>
      rw [hstep] at hact
      cases hact
      exact h.error hstep

/-- Steps at the places given, one for each item of a list. -/
theorem Does.forM {ι : Type} {f : ι → Assembling Unit} (l : List ι) (b : Builder)
    (hf : ∀ i ∈ l, ∀ b', Moves places b b' → Does places (f i) b') : Does places (l.forM f) b := by
  induction l generalizing b with
  | nil => exact ⟨fun h => by cases h; exact .refl, fun h => by cases h⟩
  | cons i l ih =>
    have hfirst : Does places (f i) b := hf i List.mem_cons_self b .refl
    have hrest : ∀ b₁, f i b = .ok () b₁ → Does places (l.forM f) b₁ := fun b₁ h₁ =>
      ih b₁ fun j hj b' hm => hf j (List.mem_cons_of_mem _ hj) b' ((hfirst.ok h₁).trans hm)
    constructor
    · intro b' h
      obtain ⟨_, b₁, h₁, h₂⟩ := bind_eq_ok.1 h
      exact (hfirst.ok h₁).trans ((hrest b₁ h₁).ok h₂)
    · intro e b' h
      rcases bind_eq_error.1 h with h₁ | ⟨_, b₁, h₁, h₂⟩
      · exact hfirst.error h₁
      · obtain ⟨cause, b₂, hmoves, htorn⟩ := (hrest b₁ h₁).error h₂
        exact ⟨cause, b₂, (hfirst.ok h₁).trans hmoves, htorn⟩

end Assembling

namespace Build

variable {places : Placement → Prop} {fs : FileSystem} {b : Builder}

/-- A source is asked for at its destination or, as a tree, below that. -/
theorem addSource_does {mode : Option UInt32} {source : Bytes} {dest : String}
    (hfile : Builder.Allowed places (.entry b.root dest))
    (htree : ∀ walk, fs.walk source = .ok walk →
      ∀ spot ∈ walk.spots, Builder.AllowedItem places b.root dest spot) :
    Assembling.Does places (addSource fs mode source dest) b := by
  unfold addSource
  split
  · exact Assembling.ofBuilding_does (Builder.importTree_does fs dest source mode b hfile htree)
  · cases hmode : modeFor fs source mode with
    | error e => exact .of_error rfl
    | ok m =>
      have hdoes : Assembling.Does places
          (Assembling.ofBuilding (Builder.importFile fs dest source (some m))) b :=
        Assembling.ofBuilding_does (Builder.importFile_does fs dest source (some m) b hfile)
      exact .of_eq rfl hdoes

end Build

end Tarball
