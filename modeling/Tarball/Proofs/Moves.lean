/-
  What happens to a builder.

  Whatever is asked of a builder comes down to a few moves: a member is written,
  there is something to tell, the archive is closed.  A step that fails makes
  some moves, and then breaks off, perhaps in the middle of a write.

  * `Builder.addAt_eq` says what an addition does, case by case;
  * `Builder.Move` is one move, with what has to hold before it: in particular
    the directories on the way to a member have been written, and no directory
    of its name;
  * `Builder.Torn` is how a step breaks off, in the middle of a write if it is
    `Builder.Broken`;
  * `Builder.Does` is a step that comes down to moves at given places
    (`Step.does`: every step at the places it asks for).
-/
import Mathlib.Logic.Relation
import Tarball.Builder.Session
import Tarball.Proofs.Placement

namespace Tarball

/-! ## Steps taken apart -/

section
variable {ε σ α β : Type}

theorem bind_of_ok {x : EStateM ε σ α} {f : α → EStateM ε σ β} {s s' : σ} {a : α}
    (h : x s = .ok a s') : (x >>= f) s = f a s' := by
  simp only [bind, EStateM.bind, h]

theorem bind_of_error {x : EStateM ε σ α} {f : α → EStateM ε σ β} {s s' : σ} {e : ε}
    (h : x s = .error e s') : (x >>= f) s = .error e s' := by
  simp only [bind, EStateM.bind, h]

/-- A step after another one has succeeded if both have. -/
theorem bind_eq_ok {x : EStateM ε σ α} {f : α → EStateM ε σ β} {s s' : σ} {b : β} :
    (x >>= f) s = .ok b s' ↔ ∃ a s₁, x s = .ok a s₁ ∧ f a s₁ = .ok b s' := by
  cases h : x s with
  | ok a s₁ =>
    rw [bind_of_ok h]
    constructor
    · intro hf; exact ⟨a, s₁, rfl, hf⟩
    · rintro ⟨_, _, he, hf⟩; cases he; exact hf
  | error e s₁ =>
    rw [bind_of_error h]
    constructor
    · intro he; cases he
    · rintro ⟨_, _, he, -⟩; cases he

/-- A step after another one has failed if either has. -/
theorem bind_eq_error {x : EStateM ε σ α} {f : α → EStateM ε σ β} {s s' : σ} {e : ε} :
    (x >>= f) s = .error e s' ↔
      x s = .error e s' ∨ ∃ a s₁, x s = .ok a s₁ ∧ f a s₁ = .error e s' := by
  cases h : x s with
  | ok a s₁ =>
    rw [bind_of_ok h]
    constructor
    · intro hf; exact .inr ⟨a, s₁, rfl, hf⟩
    · rintro (he | ⟨_, _, he, hf⟩)
      · cases he
      · cases he; exact hf
  | error e s₁ =>
    rw [bind_of_error h]
    constructor
    · intro he; cases he; exact .inl rfl
    · rintro (he | ⟨_, _, he, -⟩)
      · cases he; rfl
      · cases he

theorem bind_congr_right {x : EStateM ε σ α} {f g : α → EStateM ε σ β} (s : σ)
    (h : ∀ a s', f a s' = g a s') : (x >>= f) s = (x >>= g) s := by
  cases hx : x s with
  | ok a s' => rw [bind_of_ok hx, bind_of_ok hx, h]
  | error e s' => rw [bind_of_error hx, bind_of_error hx]

theorem bind_get (f : σ → EStateM ε σ β) (s : σ) : (get >>= f) s = f s s := rfl

end

namespace Builder

theorem store_eq (e : Entry) (content : Reading) (b : Builder) :
    store e content b = match e.write content b.sink with
      | .ok _ s => .ok () (record ⟨e, content.bytes.take e.size.toNat⟩ { b with sink := s })
      | .error cause s => .error cause { b with sink := s } := by
  unfold store
  cases h : e.write content b.sink with
  | ok u s =>
    have hwriting : writing (e.write content) b = .ok () { b with sink := s } := by
      simp only [writing, h]
    rw [bind_of_ok hwriting]; rfl
  | error cause s =>
    have hwriting : writing (e.write content) b = .error cause { b with sink := s } := by
      simp only [writing, h]
    rw [bind_of_error hwriting]

theorem requireOpen_eq (b : Builder) :
    requireOpen b = if b.isOpen then .ok () b else .error .closed b := by
  unfold requireOpen
  rw [bind_get]
  cases b.isOpen <;> rfl

theorem requireOpen_of_open {b : Builder} (ho : b.isOpen) : requireOpen b = .ok () b := by
  rw [requireOpen_eq, if_pos ho]

theorem addMissing_eq (owner : Owner) (name : String) (b : Builder) :
    addMissing owner name b = if name ∈ b.directories then .ok () b
      else store (b.directoryEntry owner name) {} b := by
  unfold addMissing
  rw [bind_get]
  split <;> rfl

theorem claim_eq (kind : Kind) (name : String) (b : Builder) :
    claim kind name b = if kind = .directory ∨ b.duplicates = .allow then .ok true b
      else if name ∈ b.claimed then
        .ok false { b with noticeLog := .duplicate name :: b.noticeLog }
      else .ok true { b with claimed := name :: b.claimed } := by
  unfold claim
  rw [bind_get]
  split
  · rfl
  · split <;> rfl

/-- What becomes of a request when the directories on the way are there. -/
def settle (r : Request) (owner : Owner) (p : Placement) : Building Unit := fun b =>
  if p.isRoot then if r.kind = .directory then .ok () b else .error (.nameless r.name r.kind) b
  else if p.name ∈ b.directories then .ok () b
  else if r.kind = .directory ∨ b.duplicates = .allow then
    store (b.entryFor r owner p.name) r.stored.reading b
  else if p.name ∈ b.claimed then
    .ok () { b with noticeLog := .duplicate p.name :: b.noticeLog }
  else store (b.entryFor r owner p.name) r.stored.reading { b with claimed := p.name :: b.claimed }

/-- **An addition, case by case.** -/
theorem addAt_eq (r : Request) (p : Placement) (b : Builder) :
    addAt r p b = if b.isOpen then
        (p.ancestors.forM (addMissing (r.owner.getD b.owner)) >>= fun _ =>
          settle r (r.owner.getD b.owner) p) b
      else .error .closed b := by
  unfold addAt
  by_cases ho : b.isOpen
  · have hopen := requireOpen_of_open ho
    rw [bind_of_ok hopen, if_pos ho]
    rw [bind_get]
    refine bind_congr_right b fun _ b₁ => ?_
    rw [bind_get]
    unfold settle
    split
    · split <;> rfl
    split
    · rfl
    -- the claim decides whether the request is stored
    by_cases hfree : r.kind = .directory ∨ b₁.duplicates = .allow
    · rw [bind_of_ok (by rw [claim_eq, if_pos hfree]), if_pos hfree]; rfl
    · by_cases hc : p.name ∈ b₁.claimed
      · rw [bind_of_ok (by rw [claim_eq, if_neg hfree, if_pos hc]), if_neg hfree, if_pos hc]; rfl
      · rw [bind_of_ok (by rw [claim_eq, if_neg hfree, if_neg hc]), if_neg hfree, if_neg hc]; rfl
  · have hclosed : requireOpen b = .error .closed b := by rw [requireOpen_eq, if_neg ho]
    rw [bind_of_error hclosed, if_neg ho]

/-! ## Moves -/

/-- One thing that happens to a builder while it is asked for something at one of
    the places given. -/
inductive Move (places : Placement → Prop) : Builder → Builder → Prop
  /-- A member is written, the one at the place or a directory on the way. -/
  | store {b : Builder} {p : Placement} {n : Nat} {e : Entry} {content : Reading}
      {claimed : List String} {s : Sink} (place : places p) (isOpen : b.isOpen)
      (name : e.name = (p.upTo n).name)
      (onTheWay : n ∈ p.ancestorLengths ∧ e.kind = .directory ∨ n = p.segments.length)
      (above : ∀ a ∈ (p.upTo n).ancestors, a ∈ b.directories) (new : e.name ∉ b.directories)
      (claims : claimed = if e.kind = .directory ∨ b.duplicates = .allow then b.claimed
        else e.name :: b.claimed)
      (written : e.write content b.sink = .ok () s)
      (free : e.kind = .directory ∨ b.duplicates = .allow ∨ e.name ∉ b.claimed) :
      Move places b (record ⟨e, content.bytes.take e.size.toNat⟩ { b with claimed, sink := s })
  | tell (b : Builder) (notice : Notice) :
      Move places b { b with noticeLog := notice :: b.noticeLog }
  | close {b : Builder} {s : Sink} (isOpen : b.isOpen)
      (written : Sink.write endMarker b.sink = .ok () s) :
      Move places b { b with isOpen := false, sink := s }

/-- An entry whose writing breaks off, for one of the places given.  Where the
    first one of a name counts, its name has been claimed by then. -/
structure Broken (places : Placement → Prop) (b : Builder) (e : Entry) (content : Reading)
    (cause : Cause) (b' : Builder) : Prop where
  place : ∃ p n, places p ∧ e.name = (p.upTo n).name ∧
    (n ∈ p.ancestorLengths ∧ e.kind = .directory ∨ n = p.segments.length)
  isOpen : b.isOpen
  free : e.kind = .directory ∨ b.duplicates = .allow ∨ e.name ∉ b.claimed
  written : ∃ s, e.write content b.sink = .error cause s ∧
    b' = { b with
      claimed := if e.kind = .directory ∨ b.duplicates = .allow then b.claimed
        else e.name :: b.claimed
      sink := s }

/-- How a step breaks off, and why: at once, or in the middle of a write. -/
inductive Torn (places : Placement → Prop) (cause : Cause) : Builder → Builder → Prop
  | clean (b : Builder) : Torn places cause b b
  | store {b b' : Builder} {e : Entry} {content : Reading}
      (broken : Broken places b e content cause b') : Torn places cause b b'
  | close {b : Builder} {s : Sink} (isOpen : b.isOpen)
      (written : Sink.write endMarker b.sink = .error cause s) :
      Torn places cause b { b with isOpen := false, sink := s }

/-- Writing goes on where it was going. -/
theorem place_of_write {bytes : Bytes} {s s' : Sink} (h : Sink.write bytes s = .ok () s') :
    s'.place = s.place := by
  unfold Sink.write at h
  split at h
  · cases h; rfl
  · cases h

theorem place_of_copy {failure : Option Cause} {n : Nat} {chunks : List Bytes} {s s' : Sink}
    (h : Sink.copy failure n chunks s = .ok () s') : s'.place = s.place := by
  induction chunks generalizing n s with
  | nil =>
    cases n with
    | zero => cases h; rfl
    | succ n => cases h
  | cons chunk rest ih =>
    cases n with
    | zero => cases h; rfl
    | succ n =>
      obtain ⟨_, s₁, hwrite, hrest⟩ := bind_eq_ok.1 h
      exact (ih hrest).trans (place_of_write hwrite)

theorem place_of_entry {e : Entry} {content : Reading} {s s' : Sink}
    (h : e.write content s = .ok () s') : s'.place = s.place := by
  obtain ⟨_, s₁, hrecords, h⟩ := bind_eq_ok.1 h
  cases hf : e.owner.fault with
  | some fault => rw [hf] at h; cases h
  | none =>
    rw [hf] at h
    obtain ⟨_, s₂, hblock, h⟩ := bind_eq_ok.1 h
    obtain ⟨_, s₃, hcopy, hpadding⟩ := bind_eq_ok.1 h
    exact (place_of_write hpadding).trans <| (place_of_copy hcopy).trans <|
      (place_of_write hblock).trans (place_of_write hrecords)

/-- Builders of archives that are to be like each other, in the same place. -/
structure Like (b b' : Builder) : Prop where
  mtime : b.mtime = b'.mtime
  root : b.root = b'.root
  owner : b.owner = b'.owner
  duplicates : b.duplicates = b'.duplicates
  place : b.sink.place = b'.sink.place

theorem Like.refl (b : Builder) : b.Like b := ⟨rfl, rfl, rfl, rfl, rfl⟩

theorem Like.trans {b₁ b₂ b₃ : Builder} (h : b₁.Like b₂) (h' : b₂.Like b₃) : b₁.Like b₃ :=
  ⟨h.mtime.trans h'.mtime, h.root.trans h'.root, h.owner.trans h'.owner,
    h.duplicates.trans h'.duplicates, h.place.trans h'.place⟩

/-- Some moves, one after the other. -/
def Moves (places : Placement → Prop) : Builder → Builder → Prop :=
  Relation.ReflTransGen (Move places)

/-- What a step does to a builder comes down to moves at the places given. -/
structure Does (places : Placement → Prop) {α : Type} (act : Building α) (b : Builder) : Prop where
  ok : ∀ {a b'}, act b = .ok a b' → Moves places b b'
  error : ∀ {cause b'}, act b = .error cause b' → ∃ b₁, Moves places b b₁ ∧ Torn places cause b₁ b'

section
variable {places : Placement → Prop} {α β : Type}

/-- A member written puts no directory out of the list. -/
theorem Move.directories_subset {b b' : Builder} (h : Move places b b') :
    b.directories ⊆ b'.directories := by
  cases h with
  | store =>
    unfold record
    dsimp only
    split
    · exact List.subset_cons_self _ _
    · exact List.Subset.refl _
  | tell | close => exact List.Subset.refl _

theorem Moves.directories_subset {b b' : Builder} (h : Moves places b b') :
    b.directories ⊆ b'.directories := by
  induction h with
  | refl => exact List.Subset.refl _
  | tail _ hm ih => exact List.Subset.trans ih hm.directories_subset

theorem Move.like {b b' : Builder} (h : Move places b b') : b'.Like b := by
  cases h with
  | store _ _ _ _ _ _ _ written => exact ⟨rfl, rfl, rfl, rfl, place_of_entry written⟩
  | tell => exact ⟨rfl, rfl, rfl, rfl, rfl⟩
  | close _ written => exact ⟨rfl, rfl, rfl, rfl, place_of_write written⟩

theorem Moves.like {b b' : Builder} (h : Moves places b b') : b'.Like b := by
  induction h with
  | refl => exact .refl b
  | tail _ hm ih => exact hm.like.trans ih

theorem Moves.root {b b' : Builder} (h : Moves places b b') : b'.root = b.root :=
  h.like.root

theorem Does.of_ok {act : Building α} {b b' : Builder} {a : α} (h : act b = .ok a b')
    (hm : Moves places b b') : Does places act b where
  ok h' := by rw [h] at h'; cases h'; exact hm
  error h' := by rw [h] at h'; cases h'

theorem Does.of_error {act : Building α} {b b' : Builder} {cause : Cause}
    (h : act b = .error cause b') (ht : Torn places cause b b') : Does places act b where
  ok h' := by rw [h] at h'; cases h'
  error h' := by rw [h] at h'; cases h'; exact ⟨b, .refl, ht⟩

theorem Does.of_eq {act act' : Building α} {b : Builder} (h : act b = act' b)
    (hd : Does places act' b) : Does places act b where
  ok h' := hd.ok (h ▸ h')
  error h' := hd.error (h ▸ h')

theorem Does.bind {x : Building α} {f : α → Building β} {b : Builder} (hx : Does places x b)
    (hf : ∀ a b', x b = .ok a b' → Does places (f a) b') : Does places (x >>= f) b := by
  cases hxb : x b with
  | ok a b₁ =>
    have hm := hx.ok hxb
    constructor
    · intro a' b' h
      rw [bind_of_ok hxb] at h
      exact hm.trans ((hf a b₁ hxb).ok h)
    · intro cause b' h
      rw [bind_of_ok hxb] at h
      obtain ⟨b₂, hm₂, ht⟩ := (hf a b₁ hxb).error h
      exact ⟨b₂, hm.trans hm₂, ht⟩
  | error cause b₁ =>
    constructor
    · intro a' b' h
      rw [bind_of_error hxb] at h; cases h
    · intro cause' b' h
      rw [bind_of_error hxb] at h; cases h
      exact hx.error hxb

/-- Steps at the places given, one for each item of a list. -/
theorem Does.forM {ι : Type} {f : ι → Building Unit} (l : List ι) (b : Builder)
    (hf : ∀ i ∈ l, ∀ b', Moves places b b' → Does places (f i) b') :
    Does places (l.forM f) b := by
  induction l generalizing b with
  | nil => exact .of_ok rfl .refl
  | cons i l ih =>
    refine .bind (hf i List.mem_cons_self b .refl) fun _ b₁ h₁ => ?_
    have hm := (hf i List.mem_cons_self b .refl).ok h₁
    exact ih b₁ fun j hj b' hb' => hf j (List.mem_cons_of_mem _ hj) b' (hm.trans hb')

end

/-! ## Additions -/

theorem store_ok {e : Entry} {content : Reading} {b b' : Builder}
    (h : store e content b = .ok () b') :
    ∃ s, e.write content b.sink = .ok () s ∧
      b' = record ⟨e, content.bytes.take e.size.toNat⟩ { b with sink := s } := by
  rw [store_eq] at h
  cases hw : e.write content b.sink with
  | ok u s => rw [hw] at h; cases h; exact ⟨s, rfl, rfl⟩
  | error cause s => rw [hw] at h; cases h

theorem store_error {e : Entry} {content : Reading} {b b' : Builder} {cause : Cause}
    (h : store e content b = .error cause b') :
    ∃ s, e.write content b.sink = .error cause s ∧ b' = { b with sink := s } := by
  rw [store_eq] at h
  cases hw : e.write content b.sink with
  | ok u s => rw [hw] at h; cases h
  | error cause' s => rw [hw] at h; cases h; exact ⟨s, rfl, rfl⟩

section
variable {places : Placement → Prop}

/-- A member is stored by one move, or torn. -/
theorem store_does {b : Builder} {p : Placement} {n : Nat} {e : Entry} (content : Reading)
    (hp : places p) (ho : b.isOpen) (hname : e.name = (p.upTo n).name)
    (hway : n ∈ p.ancestorLengths ∧ e.kind = .directory ∨ n = p.segments.length)
    (habove : ∀ a ∈ (p.upTo n).ancestors, a ∈ b.directories) (hnew : e.name ∉ b.directories)
    (hfree : e.kind = .directory ∨ b.duplicates = .allow) : Does places (store e content) b where
  ok h := by
    obtain ⟨s, hw, rfl⟩ := store_ok h
    exact .single (.store hp ho hname hway habove hnew (if_pos hfree).symm hw (hfree.imp_right .inl))
  error h := by
    obtain ⟨s, hw, rfl⟩ := store_error h
    exact ⟨b, .refl, .store ⟨⟨p, n, hp, hname, hway⟩, ho, hfree.imp_right .inl, s, hw,
      by rw [if_pos hfree]⟩⟩

/-- The same for a member whose name is claimed first. -/
theorem claimed_store_does {b : Builder} {p : Placement} {e : Entry} (content : Reading)
    (hp : places p) (ho : b.isOpen) (hname : e.name = p.name)
    (hfree : ¬ (e.kind = .directory ∨ b.duplicates = .allow)) (hclaim : e.name ∉ b.claimed)
    (habove : ∀ a ∈ p.ancestors, a ∈ b.directories) (hnew : e.name ∉ b.directories) :
    Does places (fun b => store e content { b with claimed := e.name :: b.claimed }) b where
  ok h := by
    obtain ⟨s, hw, rfl⟩ := store_ok h
    have hself : p.upTo p.segments.length = p := p.upTo_length
    exact .single (.store (n := p.segments.length) hp ho (by rw [hself, hname]) (.inr rfl)
      (by rw [hself]; exact habove) hnew (if_neg hfree).symm hw (.inr (.inr hclaim)))
  error h := by
    obtain ⟨s, hw, rfl⟩ := store_error h
    have hself : p.upTo p.segments.length = p := p.upTo_length
    exact ⟨b, .refl, .store ⟨⟨p, p.segments.length, hp, by rw [hself, hname], .inr rfl⟩, ho,
      .inr (.inr hclaim), s, hw, by rw [if_neg hfree]⟩⟩

/-- After it the directory is there, and the archive as open as before. -/
theorem addMissing_ok {owner : Owner} {name : String} {b b' : Builder}
    (h : addMissing owner name b = .ok () b') : name ∈ b'.directories ∧ b'.isOpen = b.isOpen := by
  rw [addMissing_eq] at h
  split at h
  · next hmem => cases h; exact ⟨hmem, rfl⟩
  · obtain ⟨s, -, rfl⟩ := store_ok h
    exact ⟨List.mem_cons_self, rfl⟩

/-- The directories on the way are written the shortest first, so that those on
    the way to each of them are there before it. -/
theorem backfill_does {p : Placement} (hp : places p) (owner : Owner) {done rest : List Nat}
    (hsplit : p.ancestorLengths = done ++ rest) {b : Builder} (ho : b.isOpen)
    (hdone : ∀ n ∈ done, (p.upTo n).name ∈ b.directories) :
    Does places ((rest.map fun n => (p.upTo n).name).forM (addMissing owner)) b ∧
      ∀ b', (rest.map fun n => (p.upTo n).name).forM (addMissing owner) b = .ok () b' →
        b'.isOpen ∧ ∀ a ∈ p.ancestors, a ∈ b'.directories := by
  induction rest generalizing done b with
  | nil =>
    refine ⟨.of_ok rfl .refl, fun b' h => ?_⟩
    cases h
    refine ⟨ho, fun a ha => ?_⟩
    obtain ⟨n, hn, rfl⟩ := List.mem_map.1 (p.ancestors_eq ▸ ha)
    exact hdone n (by simpa [hsplit] using hn)
  | cons n rest ih =>
    have hmem : n ∈ p.ancestorLengths := by rw [hsplit]; simp
    have hfirst : Does places (addMissing owner (p.upTo n).name) b := by
      by_cases hd : (p.upTo n).name ∈ b.directories
      · exact .of_ok (by rw [addMissing_eq, if_pos hd]) .refl
      · have hstore : addMissing owner (p.upTo n).name b =
            store (b.directoryEntry owner (p.upTo n).name) {} b := by rw [addMissing_eq, if_neg hd]
        have habove : ∀ a ∈ (p.upTo n).ancestors, a ∈ b.directories := by
          intro a ha
          obtain ⟨k, hk, rfl⟩ := Placement.exists_before_upTo hsplit ha
          exact hdone k hk
        have hdoes := store_does (e := b.directoryEntry owner (p.upTo n).name) {} hp ho rfl
          (.inl ⟨hmem, rfl⟩) habove hd (.inl rfl)
        exact .of_eq hstore hdoes
    have hnext : ∀ b₁, addMissing owner (p.upTo n).name b = .ok () b₁ →
        p.ancestorLengths = (done ++ [n]) ++ rest ∧ b₁.isOpen ∧
          ∀ k ∈ done ++ [n], (p.upTo k).name ∈ b₁.directories := by
      intro b₁ h₁
      obtain ⟨hin, hopen⟩ := addMissing_ok h₁
      refine ⟨by rw [hsplit, List.append_assoc]; rfl, hopen ▸ ho, fun k hk => ?_⟩
      rcases List.mem_append.1 hk with hk | hk
      · exact (hfirst.ok h₁).directories_subset (hdone k hk)
      · rw [List.mem_singleton.1 hk]; exact hin
    constructor
    · refine .bind hfirst fun _ b₁ h₁ => ?_
      obtain ⟨hs, ho₁, hd₁⟩ := hnext b₁ h₁
      exact (ih hs ho₁ hd₁).1
    · intro b' h
      obtain ⟨_, b₁, h₁, h₂⟩ := bind_eq_ok.1 h
      obtain ⟨hs, ho₁, hd₁⟩ := hnext b₁ h₁
      exact (ih hs ho₁ hd₁).2 b' h₂

/-- At the root nothing is written. -/
theorem settle_root_does {p : Placement} (hroot : p.isRoot) (r : Request) (owner : Owner)
    (b : Builder) : Does places (settle r owner p) b := by
  by_cases hk : r.kind = .directory
  · exact .of_ok (by rw [settle, if_pos hroot, if_pos hk]) .refl
  · exact .of_error (by rw [settle, if_pos hroot, if_neg hk]) (.clean b)

theorem settle_does {p : Placement} (hp : places p) (r : Request) (owner : Owner) {b : Builder}
    (ho : b.isOpen) (habove : ∀ a ∈ p.ancestors, a ∈ b.directories) :
    Does places (settle r owner p) b := by
  by_cases hroot : p.isRoot
  · exact settle_root_does hroot r owner b
  by_cases hd : p.name ∈ b.directories
  · exact .of_ok (by rw [settle, if_neg hroot, if_pos hd]) .refl
  by_cases hfree : r.kind = .directory ∨ b.duplicates = .allow
  · have hself : p.upTo p.segments.length = p := p.upTo_length
    have hdoes := store_does (e := b.entryFor r owner p.name) r.stored.reading hp ho
      (n := p.segments.length) (by rw [hself]; rfl) (.inr rfl) (by rw [hself]; exact habove) hd hfree
    have heq : settle r owner p b = store (b.entryFor r owner p.name) r.stored.reading b := by
      rw [settle, if_neg hroot, if_neg hd, if_pos hfree]
    exact .of_eq heq hdoes
  by_cases hc : p.name ∈ b.claimed
  · exact .of_ok (by rw [settle, if_neg hroot, if_neg hd, if_neg hfree, if_pos hc])
      (.single (.tell b _))
  · have hdoes := claimed_store_does (e := b.entryFor r owner p.name) r.stored.reading hp ho rfl
      hfree hc habove hd
    have heq : settle r owner p b = store (b.entryFor r owner p.name) r.stored.reading
        { b with claimed := p.name :: b.claimed } := by
      rw [settle, if_neg hroot, if_neg hd, if_neg hfree, if_neg hc]
    exact .of_eq heq hdoes

/-- Whether all moves for a place may be at one of the places given: at the root
    there are none. -/
def Allowed (places : Placement → Prop) (p : Placement) : Prop :=
  p.isRoot = false → places p

theorem addAt_root_does {p : Placement} (hroot : p.isRoot) (r : Request) (b : Builder) :
    Does places (addAt r p) b := by
  have hnone : p.ancestors = [] := by
    rw [p.ancestors_eq, Placement.ancestorLengths, List.isEmpty_iff.1 hroot]
    rfl
  by_cases ho : b.isOpen
  · have heq : addAt r p b = settle r (r.owner.getD b.owner) p b := by
      rw [addAt_eq, if_pos ho, hnone]
      rfl
    exact .of_eq heq (settle_root_does hroot r _ b)
  · exact .of_error (by rw [addAt_eq, if_neg ho]) (.clean b)

/-- **An addition comes down to moves at its place**, unless that is the root. -/
theorem addAt_does {p : Placement} (hp : Allowed places p) (r : Request) (b : Builder) :
    Does places (addAt r p) b := by
  by_cases hroot : p.isRoot
  · exact addAt_root_does hroot r b
  have hp : places p := hp (by simpa using hroot)
  by_cases ho : b.isOpen
  · have hsplit : p.ancestorLengths = [] ++ p.ancestorLengths := rfl
    have hfill := backfill_does hp (r.owner.getD b.owner) hsplit ho (by simp)
    have hdoes := Does.bind hfill.1 (f := fun _ => settle r (r.owner.getD b.owner) p)
      fun _ b' h => settle_does hp r _ (hfill.2 b' h).1 (hfill.2 b' h).2
    have heq : addAt r p b = (p.ancestors.forM (addMissing (r.owner.getD b.owner)) >>= fun _ =>
        settle r (r.owner.getD b.owner) p) b := by rw [addAt_eq, if_pos ho]
    exact .of_eq heq hdoes
  · exact .of_error (by rw [addAt_eq, if_neg ho]) (.clean b)

theorem ofExcept_does {α : Type} (x : Except Cause α) (b : Builder) :
    Does places (MonadExcept.ofExcept x : Building α) b := by
  cases x with
  | ok a => exact .of_ok rfl .refl
  | error cause => exact .of_error rfl (.clean b)

theorem requireOpen_does (b : Builder) : Does places requireOpen b := by
  by_cases ho : b.isOpen
  · exact .of_ok (by rw [requireOpen_eq, if_pos ho]) .refl
  · exact .of_error (by rw [requireOpen_eq, if_neg ho]) (.clean b)

theorem openNow_eq (fs : FileSystem) (loc : Location) (b : Builder) : openNow fs loc b =
    (MonadExcept.ofExcept (fs.openDuring b.sink loc) : Building Content) b := rfl

theorem openNow_does (fs : FileSystem) (loc : Location) (b : Builder) :
    Does places (openNow fs loc) b := by
  exact .of_eq (openNow_eq fs loc b) (ofExcept_does _ b)

theorem openSpot_does (fs : FileSystem) (spot : Spot) (b : Builder) :
    Does places (openSpot fs spot) b := by
  unfold openSpot
  split
  · exact .of_error rfl (.clean b)
  · exact openNow_does fs spot.location b

theorem tell_does (notice : Notice) (b : Builder) : Does places (tell notice) b :=
  .of_ok rfl (.single (.tell b notice))

theorem add_eq (r : Request) (b : Builder) : add r b = addAt r (.entry b.root r.name) b := rfl

theorem addInTree_eq (r : Request) (b : Builder) :
    addInTree r b = addAt r (.treeEntry b.root r.name) b := rfl

theorem add_does (r : Request) (b : Builder) (hp : Allowed places (.entry b.root r.name)) :
    Does places (add r) b :=
  .of_eq (add_eq r b) (addAt_does hp r b)

theorem addInTree_does (r : Request) (b : Builder)
    (hp : Allowed places (.treeEntry b.root r.name)) : Does places (addInTree r) b :=
  .of_eq (addInTree_eq r b) (addAt_does hp r b)

theorem importFile_does (fs : FileSystem) (name : String) (source : Bytes) (mode : Option UInt32)
    (b : Builder) (hp : Allowed places (.entry b.root name)) :
    Does places (importFile fs name source mode) b := by
  refine .bind (ofExcept_does _ b) fun loc b₁ h₁ => ?_
  refine .bind (openNow_does fs loc b₁) fun content b₂ h₂ => add_does _ b₂ ?_
  have hm₁ : Moves places b b₁ := (ofExcept_does _ b).ok h₁
  have hm₂ : Moves places b₁ b₂ := (openNow_does fs loc b₁).ok h₂
  rw [hm₂.root, hm₁.root]
  exact hp

/-- Whether all moves for an item of a tree may be at one of the places given: it is
    asked for below the destination, by the names on the way to it. -/
def AllowedItem (places : Placement → Prop) (root : Option String) (dest : String) (spot : Spot) :
    Prop :=
  ∀ name, itemName dest spot.below.reverse = .ok name → Allowed places (.treeEntry root name)

theorem importItem_does (fs : FileSystem) (dest : String) (mode : Option UInt32) (spot : Spot)
    (b : Builder) (hp : AllowedItem places b.root dest spot) :
    Does places (importItem fs dest mode spot) b := by
  unfold importItem
  cases hname : itemName dest spot.below.reverse with
  | error cause => exact .of_error rfl (.clean b)
  | ok name =>
    have hplace := hp name hname
    refine .bind (ofExcept_does _ b) fun name' b₁ h₁ => ?_
    cases h₁
    split
    · exact addInTree_does _ b hplace
    · refine .bind (openSpot_does fs spot b) fun content b₂ h₂ => addInTree_does _ b₂ ?_
      have hm₂ : Moves places b b₂ := (openSpot_does fs spot b).ok h₂
      rw [hm₂.root]
      exact hplace
    · exact tell_does _ b

theorem importWalk_does (fs : FileSystem) (dest : String) (mode : Option UInt32) (walk : Walk)
    (b : Builder) (hp : ∀ spot ∈ walk.spots, AllowedItem places b.root dest spot) :
    Does places (importWalk fs dest mode walk) b := by
  refine .bind (.forM _ b fun spot hspot b' hm => ?_) fun _ b₁ _ => ?_
  · exact importItem_does fs dest mode spot b' (hm.root ▸ hp spot hspot)
  · split
    · exact .of_error rfl (.clean b₁)
    · exact .of_ok rfl .refl

theorem importTree_does (fs : FileSystem) (dest : String) (source : Bytes) (mode : Option UInt32)
    (b : Builder) (hfile : Allowed places (.entry b.root dest))
    (htree : ∀ walk, fs.walk source = .ok walk →
      ∀ spot ∈ walk.spots, AllowedItem places b.root dest spot) :
    Does places (importTree fs dest source mode) b := by
  refine .bind (requireOpen_does b) fun _ b₁ h₁ => ?_
  have hm₁ : Moves places b b₁ := (requireOpen_does b).ok h₁
  refine .bind (ofExcept_does _ b₁) fun node b₂ h₂ => ?_
  have hm₂ : Moves places b₁ b₂ := (ofExcept_does _ b₁).ok h₂
  split
  · cases hwalk : fs.walk source with
    | error cause => exact .of_error rfl (.clean b₂)
    | ok walk =>
      refine .bind (ofExcept_does _ b₂) fun walk' b₃ h₃ => ?_
      cases h₃
      refine importWalk_does fs dest mode walk b₂ ?_
      rw [hm₂.root, hm₁.root]
      exact htree walk hwalk
  · refine importFile_does fs dest source mode b₂ ?_
    rw [hm₂.root, hm₁.root]
    exact hfile

theorem addRoot_eq (b : Builder) :
    addRoot b = if b.root.isSome then add (.directory "") b else .ok () b := by
  unfold addRoot
  rw [bind_get]
  split <;> rfl

/-- The root directory is asked for at the root. -/
theorem start_does (o : Options) (sink : Sink) :
    Does (· = .entry (fresh o sink).root "") addRoot (fresh o sink) := by
  by_cases hroot : (fresh o sink).root.isSome
  · exact .of_eq (by rw [addRoot_eq, if_pos hroot]) (add_does (.directory "") _ fun _ => rfl)
  · exact .of_ok (by rw [addRoot_eq, if_neg hroot]) .refl

theorem close_eq (b : Builder) : close b =
    if b.isOpen then writing (Sink.write endMarker) { b with isOpen := false } else .ok () b := by
  unfold close
  rw [bind_get]
  split <;> rfl

/-- An open archive is closed by writing its end. -/
theorem close_of_write {b : Builder} {s : Sink} (ho : b.isOpen)
    (hwrite : Sink.write endMarker b.sink = .ok () s) :
    close b = .ok () { b with isOpen := false, sink := s } := by
  rw [close_eq, if_pos ho]
  simp only [writing, hwrite]

theorem close_does (b : Builder) : Does places close b := by
  by_cases ho : b.isOpen
  · cases hw : Sink.write endMarker b.sink with
    | ok u s => exact .of_ok (close_of_write ho hw) (.single (.close ho hw))
    | error cause s =>
      have hclose : close b = .error cause { b with isOpen := false, sink := s } := by
        rw [close_eq, if_pos ho]
        simp only [writing, hw]
      exact .of_error hclose (.close ho hw)
  · exact .of_ok (by rw [close_eq, if_neg ho]) .refl

theorem finish_does (b : Builder) : Does places finish b :=
  .bind (requireOpen_does b) fun _ b₁ _ => close_does b₁

end

end Builder

/-! ## Steps -/

/-- The places that a step asks for, below a root directory. -/
def Step.Asks (root : Option String) : Step → Placement → Prop
  | .add r, p => p = .entry root r.name
  | .importFile name _ _, p => p = .entry root name
  | .importTree dest _ _, p => p = .entry root dest ∨
      ∃ segs : List String, p = .treeEntry root (segs.foldl appendSegment (treeStart dest))
  | .close, _ | .finish, _ => False

/-- The name of an item begins with the destination. -/
theorem itemName_ok {dest name : String} {names : List Bytes} (h : itemName dest names = .ok name) :
    ∃ segs : List String, names.mapM Utf8.decode? = some segs ∧
      name = segs.foldl appendSegment (treeStart dest) := by
  unfold itemName at h
  split at h
  · next segs hdecode => cases h; exact ⟨segs, hdecode, rfl⟩
  · cases h

/-- **Every step comes down to moves at the places it asks for.** -/
theorem Step.does (fs : FileSystem) (s : Step) (b : Builder) :
    Builder.Does (s.Asks b.root) (s.run fs) b := by
  cases s with
  | add r => exact Builder.add_does r b fun _ => rfl
  | importFile name source mode => exact Builder.importFile_does fs name source mode b fun _ => rfl
  | importTree dest source mode =>
    refine Builder.importTree_does fs dest source mode b (fun _ => .inl rfl) ?_
    intro walk _ spot _ name hname _
    obtain ⟨segs, -, rfl⟩ := itemName_ok hname
    exact .inr ⟨segs, rfl⟩
  | close => exact Builder.close_does b
  | finish => exact Builder.finish_does b

/-- Whether a step fails in the middle of writing an entry. -/
def Step.Breaks (fs : FileSystem) (s : Step) (b : Builder) (e : Entry) (content : Reading) : Prop :=
  ∃ cause now b', s.run fs b = .error cause b' ∧ Builder.Moves (s.Asks b.root) b now ∧
    Builder.Broken (s.Asks b.root) now e content cause b'

end Tarball
