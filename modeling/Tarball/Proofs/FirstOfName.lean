/-
  The first one of a name.

  Where only the first one of a name counts, the name is claimed before anything
  is written under it.  If that write breaks off the name stays claimed: whatever
  is asked for under it later is passed over, though nothing is there.

  * `Builder.Spoiled` are the names that were claimed by writes that broke off;
  * `Builder.Claims` is what holds of a builder at all times: the claimed names
    are those of its members that are no directories, and the spoiled ones, and
    none is both (`Builder.claims_after`);
  * `Builder.kept_iff_not_spoiled`: what is added is there afterwards just if its
    name is not spoiled.
-/
import Mathlib.Data.List.Induction
import Tarball.Proofs.RoundTrip

namespace Tarball

/-- Whether a step breaks off while it writes what is no directory under a
    name. -/
def Step.Spoils (fs : FileSystem) (s : Step) (b : Builder) (name : String) : Prop :=
  ∃ e content, s.Breaks fs b e content ∧ e.kind ≠ .directory ∧ e.name = name

namespace Builder

/-- Whether one of some steps broke off while it wrote what is no directory under
    a name. -/
def Spoiled (b : Builder) (history : List (FileSystem × Step)) (name : String) : Prop :=
  ∃ before fs s later, history = before ++ (fs, s) :: later ∧ s.Spoils fs (b.after before) name

theorem spoiled_concat {b : Builder} {history : List (FileSystem × Step)} {fs : FileSystem}
    {s : Step} {name : String} : b.Spoiled (history ++ [(fs, s)]) name ↔
      b.Spoiled history name ∨ s.Spoils fs (b.after history) name := by
  constructor
  · rintro ⟨before, fs', s', later, hsplit, hspoils⟩
    rcases List.eq_nil_or_concat later with rfl | ⟨later, x, rfl⟩
    · obtain ⟨rfl, he⟩ := List.append_inj' hsplit rfl
      cases he
      exact .inr hspoils
    · rw [List.concat_eq_append, ← List.cons_append, ← List.append_assoc] at hsplit
      obtain ⟨rfl, -⟩ := List.append_inj' hsplit rfl
      exact .inl ⟨before, fs', s', later, rfl, hspoils⟩
  · rintro (⟨before, fs', s', later, rfl, hspoils⟩ | hspoils)
    · exact ⟨before, fs', s', later ++ [(fs, s)], by simp, hspoils⟩
    · exact ⟨history, fs, s, [], rfl, hspoils⟩

/-- A builder whose claimed names are those of its members that are no
    directories, and some that are lost: there is no member of a lost name. -/
structure Claims (lost : String → Prop) (b : Builder) : Prop where
  claimed : ∀ name, name ∈ b.claimed ↔ name ∈ otherNames b.members ∨ lost name
  apart : ∀ name, lost name → name ∉ otherNames b.members

section
variable {places : Placement → Prop} {lost : String → Prop} {b b' : Builder}

/-- A member written is one more name, unless it is a directory. -/
theorem otherNames_record (m : Member) (b : Builder) : otherNames (record m b).members =
    otherNames b.members ++ if m.entry.kind = .directory then [] else [m.entry.name] := by
  rw [members_record, otherNames_append]
  by_cases hk : m.entry.kind = .directory
  · simp [otherNames, hk]
  · simp [otherNames, hk]

/-- A move writes nothing that is no directory, or it claims a name that was free
    and writes a member under it. -/
theorem Move.claimed (h : Move places b b') (hkeep : b.duplicates = .keepFirst) :
    (b'.claimed = b.claimed ∧ otherNames b'.members = otherNames b.members) ∨
      ∃ name, name ∉ b.claimed ∧ b'.claimed = name :: b.claimed ∧
        otherNames b'.members = otherNames b.members ++ [name] := by
  cases h with
  | @store p n e content claimed s _ _ _ _ _ _ hclaims _ hfree =>
    have hothers : otherNames (record ⟨e, content.bytes.take e.size.toNat⟩
        { b with claimed, sink := s }).members =
          otherNames b.members ++ if e.kind = .directory then [] else [e.name] :=
      otherNames_record _ _
    by_cases hk : e.kind = .directory
    · rw [if_pos hk, List.append_nil] at hothers
      rw [if_pos (.inl hk)] at hclaims
      exact .inl ⟨hclaims, hothers⟩
    · have hallow : b.duplicates ≠ .allow := by rw [hkeep]; exact Duplicates.noConfusion
      rw [if_neg hk] at hothers
      rw [if_neg (not_or.2 ⟨hk, hallow⟩)] at hclaims
      exact .inr ⟨e.name, (hfree.resolve_left hk).resolve_left hallow, hclaims, hothers⟩
  | tell | close => exact .inl ⟨rfl, rfl⟩

/-- **A move loses no name**, and writes nothing under a lost one. -/
theorem Move.claims (h : Move places b b') (hkeep : b.duplicates = .keepFirst)
    (hb : b.Claims lost) : b'.Claims lost := by
  rcases h.claimed hkeep with ⟨hclaimed, hothers⟩ | ⟨new, hnew, hclaimed, hothers⟩
  · exact ⟨by rw [hclaimed, hothers]; exact hb.claimed, by rw [hothers]; exact hb.apart⟩
  · constructor
    · intro name
      rw [hclaimed, hothers, List.mem_cons, List.mem_append, List.mem_singleton, or_assoc,
        or_left_comm, ← hb.claimed name]
    · intro name hlost
      rw [hothers, List.mem_append, List.mem_singleton, not_or]
      refine ⟨hb.apart name hlost, ?_⟩
      rintro rfl
      exact hnew ((hb.claimed name).2 (.inr hlost))

theorem Moves.claims (h : Moves places b b') (hkeep : b.duplicates = .keepFirst)
    (hb : b.Claims lost) : b'.Claims lost := by
  induction h with
  | refl => exact hb
  | tail hs hm ih => exact hm.claims ((Moves.like hs).duplicates.trans hkeep) ih

/-- A write that breaks off has claimed its name, unless that is a directory's. -/
theorem Broken.claimed {e : Entry} {content : Reading} {cause : Cause}
    (h : Broken places b e content cause b') (hkeep : b.duplicates = .keepFirst) :
    b'.claimed = if e.kind = .directory then b.claimed else e.name :: b.claimed := by
  obtain ⟨s, -, rfl⟩ := h.written
  simp [hkeep]

/-- What breaks off leaves the claimed names as they were, or with one more. -/
theorem Torn.claimed {cause : Cause} (h : Torn places cause b b')
    (hkeep : b.duplicates = .keepFirst) : b'.claimed = b.claimed ∨
      ∃ e content, Broken places b e content cause b' ∧ e.kind ≠ .directory ∧
        b'.claimed = e.name :: b.claimed := by
  cases h with
  | clean | close => exact .inl rfl
  | @store _ e content hbroken =>
    have hclaimed := hbroken.claimed hkeep
    by_cases hk : e.kind = .directory
    · exact .inl (hclaimed.trans (if_pos hk))
    · exact .inr ⟨e, content, hbroken, hk, hclaimed.trans (if_neg hk)⟩

/-- The name that a write was to have when it broke off is claimed, and that of
    no member. -/
theorem spoiled_lost {fs : FileSystem} {s : Step} {name : String}
    (hkeep : b.duplicates = .keepFirst) (hb : b.Claims lost) (h : s.Spoils fs b name) :
    name ∈ (Outcome.ofResult (s.run fs b)).builder.claimed ∧
      name ∉ otherNames (Outcome.ofResult (s.run fs b)).builder.members := by
  obtain ⟨e, content, ⟨cause, now, b', hrun, hmoves, hbroken⟩, hk, rfl⟩ := h
  have hnow : now.Claims lost := Moves.claims hmoves hkeep hb
  have hkeep' : now.duplicates = .keepFirst := (Moves.like hmoves).duplicates.trans hkeep
  have hnew : e.name ∉ now.claimed := by
    refine (hbroken.free.resolve_left hk).resolve_left ?_
    rw [hkeep']
    exact Duplicates.noConfusion
  rw [hrun]
  constructor
  · show e.name ∈ b'.claimed
    rw [hbroken.claimed hkeep', if_neg hk]
    exact List.mem_cons_self
  · show e.name ∉ otherNames b'.members
    rw [(Torn.store hbroken).members]
    exact fun hmem => hnew ((hnow.claimed _).2 (.inl hmem))

/-- A step that fails has claimed no names but by its moves and those that it
    spoils. -/
theorem claimed_of_error {fs : FileSystem} {s : Step} {cause : Cause}
    (hkeep : b.duplicates = .keepFirst) (hrun : s.run fs b = .error cause b') :
    ∃ now, Moves (s.Asks b.root) b now ∧ b'.members = now.members ∧ now.claimed ⊆ b'.claimed ∧
      ∀ name ∈ b'.claimed, name ∈ now.claimed ∨ s.Spoils fs b name := by
  obtain ⟨now, hmoves, htorn⟩ := (s.does fs b).error hrun
  have hkeep' : now.duplicates = .keepFirst := (Moves.like hmoves).duplicates.trans hkeep
  refine ⟨now, hmoves, htorn.members, ?_⟩
  rcases htorn.claimed hkeep' with hsame | ⟨e, content, hbroken, hk, hmore⟩
  · rw [hsame]
    exact ⟨List.Subset.refl _, fun name hmem => .inl hmem⟩
  · rw [hmore]
    refine ⟨List.subset_cons_self _ _, fun name hmem => ?_⟩
    rcases List.mem_cons.1 hmem with rfl | hmem
    · exact .inr ⟨e, content, ⟨cause, now, b', hrun, hmoves, hbroken⟩, hk, rfl⟩
    · exact .inl hmem

/-- **A step loses the names that it spoils**, and no others. -/
theorem step_claims (fs : FileSystem) (s : Step) (hkeep : b.duplicates = .keepFirst)
    (hb : b.Claims lost) : (Outcome.ofResult (s.run fs b)).builder.Claims
      (fun name => lost name ∨ s.Spoils fs b name) := by
  have hspoiled : ∀ name, s.Spoils fs b name →
      name ∈ (Outcome.ofResult (s.run fs b)).builder.claimed ∧
        name ∉ otherNames (Outcome.ofResult (s.run fs b)).builder.members :=
    fun name => spoiled_lost hkeep hb
  cases hrun : s.run fs b with
  | ok _ b' =>
    have hmoves : Moves _ b b' := (s.does fs b).ok hrun
    have hb' : b'.Claims lost := hmoves.claims hkeep hb
    have hnone : ∀ name, ¬ s.Spoils fs b name := by
      rintro name ⟨e, content, ⟨cause, now, b₁, herror, -⟩, -⟩
      rw [hrun] at herror
      cases herror
    refine ⟨fun name => ?_, fun name h => hb'.apart name (h.resolve_right (hnone name))⟩
    rw [or_iff_left (hnone name)]
    exact hb'.claimed name
  | error cause b' =>
    rw [hrun] at hspoiled
    obtain ⟨now, hmoves, hmembers, hmore, hclaimed⟩ := claimed_of_error hkeep hrun
    have hnow : now.Claims lost := Moves.claims hmoves hkeep hb
    refine ⟨fun name => ⟨fun hmem => ?_, ?_⟩, ?_⟩
    · rcases hclaimed name hmem with hmem | hspoils
      · rcases (hnow.claimed name).1 hmem with hother | hlost
        · exact .inl (hmembers ▸ hother)
        · exact .inr (.inl hlost)
      · exact .inr (.inr hspoils)
    · rintro (hother | hlost | hspoils)
      · exact hmore ((hnow.claimed name).2 (.inl (hmembers ▸ hother)))
      · exact hmore ((hnow.claimed name).2 (.inr hlost))
      · exact (hspoiled name hspoils).1
    · rintro name (hlost | hspoils)
      · show name ∉ otherNames b'.members
        rw [hmembers]
        exact hnow.apart name hlost
      · exact (hspoiled name hspoils).2

end

/-! ## Histories -/

theorem step_duplicates (fs : FileSystem) (s : Step) (b : Builder) :
    (Outcome.ofResult (s.run fs b)).builder.duplicates = b.duplicates := by
  cases hrun : s.run fs b with
  | ok _ b' =>
    have hmoves : Moves _ b b' := (s.does fs b).ok hrun
    exact hmoves.like.duplicates
  | error cause b' =>
    obtain ⟨now, hmoves, htorn⟩ := (s.does fs b).error hrun
    refine Eq.trans ?_ (Moves.like hmoves).duplicates
    show b'.duplicates = now.duplicates
    cases htorn with
    | clean | close => rfl
    | store hbroken => obtain ⟨s, -, rfl⟩ := hbroken.written; rfl

theorem duplicates_after (b : Builder) (history : List (FileSystem × Step)) :
    (b.after history).duplicates = b.duplicates := by
  induction history generalizing b with
  | nil => rfl
  | cons x history ih => exact (ih _).trans (step_duplicates x.1 x.2 b)

/-- **After all steps** the names claimed are those of members that are no
    directories, and those that were spoiled. -/
theorem claims_after {b : Builder} (hkeep : b.duplicates = .keepFirst)
    (hb : b.Claims fun _ => False) (history : List (FileSystem × Step)) :
    (b.after history).Claims (b.Spoiled history) := by
  induction history using List.reverseRecOn with
  | nil =>
    have hnone : b.Spoiled [] = fun _ => False := by
      funext name
      refine propext ⟨?_, False.elim⟩
      rintro ⟨before, fs, s, later, hsplit, -⟩
      simp at hsplit
    rw [hnone]
    exact hb
  | append_singleton history x ih =>
    have hspoiled : b.Spoiled (history ++ [x]) =
        fun name => b.Spoiled history name ∨ x.2.Spoils x.1 (b.after history) name :=
      funext fun name => propext spoiled_concat
    rw [hspoiled, after_concat]
    exact step_claims x.1 x.2 ((duplicates_after b history).trans hkeep) ih

/-- An archive that could be opened has claimed just the names of its members
    that are no directories. -/
theorem claims_start {o : Options} {sink : Sink} {begun : Builder}
    (hkeep : o.duplicates = .keepFirst) (h : start o sink = .ok () begun) : begun.Claims fun _ => False := by
  have hadds := start_adds h
  have hkeep' : begun.duplicates = .keepFirst := hadds.like.duplicates.trans hkeep
  exact ⟨fun name => (hadds.tallied.claimed hkeep' name).trans (or_false _).symm.to_iff,
    fun _ => False.elim⟩

/-- Where the first one of a name counts, an addition that succeeds leaves its
    name claimed, unless it was that of a directory. -/
theorem addAt_claimed {r : Request} {p : Placement} {b b' : Builder} (hp : p.Plain) (hb : b.Orderly)
    (hkeep : b.duplicates = .keepFirst) (hk : r.kind ≠ .directory) (hnew : p.name ∉ b.directories)
    (h : addAt r p b = .ok () b') : p.name ∈ b'.claimed := by
  have hroot := isRoot_of_addAt hk h
  obtain ⟨b₁, hmoves, -, hmembers, hsettle⟩ := addAt_ok hp hb h
  have hfree : ¬ (r.kind = .directory ∨ b₁.duplicates = .allow) := by
    rw [(Moves.like hmoves).duplicates, hkeep]
    exact not_or.2 ⟨hk, Duplicates.noConfusion⟩
  have hnew' : p.name ∉ b₁.directories := by
    rw [(Moves.orderly hmoves hb).mem_directories, hmembers, name_mem_missing hp, ← hb.mem_directories]
    exact hnew
  rw [settle, if_neg (by simp [hroot]), if_neg hnew', if_neg hfree] at hsettle
  split at hsettle
  · next hc => cases hsettle; exact hc
  · obtain ⟨s, -, rfl⟩ := store_ok hsettle
    exact List.mem_cons_self

/-- **What is added is there afterwards just if its name is not spoiled.**  An
    addition that is no directory's, whose name is that of no directory, and
    that succeeds, leaves a member of its name, unless a step before broke off
    while it wrote one; then there never is any. -/
theorem kept_iff_not_spoiled {o : Options} {sink : Sink} {begun b b' : Builder}
    {history : List (FileSystem × Step)} {places : Placement → Prop} {r : Request} {p : Placement}
    (hkeep : o.duplicates = .keepFirst) (hstart : start o sink = .ok () begun)
    (hnow : Moves places (begun.after history) b) (hp : p.Plain) (hk : r.kind ≠ .directory)
    (hnew : p.name ∉ b.directories) (hadd : addAt r p b = .ok () b') :
    p.name ∈ otherNames b'.members ↔ ¬ begun.Spoiled history p.name := by
  have hadds := start_adds hstart
  have hkeep₀ : begun.duplicates = .keepFirst := hadds.like.duplicates.trans hkeep
  have hkeep₁ : (begun.after history).duplicates = .keepFirst :=
    (duplicates_after begun history).trans hkeep₀
  have hkeep₂ : b.duplicates = .keepFirst := (Moves.like hnow).duplicates.trans hkeep₁
  have horderly : b.Orderly := Moves.orderly hnow (orderly_after hadds.tallied.orderly history)
  have hdoes : Does (fun _ => True) (addAt r p) b := addAt_does (fun _ => trivial) r b
  have hmoves : Moves _ b b' := hdoes.ok hadd
  have hclaims : b'.Claims (begun.Spoiled history) :=
    hmoves.claims hkeep₂ (Moves.claims hnow hkeep₁
      (claims_after hkeep₀ (claims_start hkeep hstart) history))
  have hclaimed : p.name ∈ b'.claimed := addAt_claimed hp horderly hkeep₂ hk hnew hadd
  constructor
  · intro hother hspoiled
    exact hclaims.apart p.name hspoiled hother
  · intro hspoiled
    exact ((hclaims.claimed p.name).1 hclaimed).resolve_right hspoiled

/-! ## A second try -/

/-- A file whose owner has a name that no header has room for. -/
def refusedFile : Step :=
  .add { Request.file "f" (.bytes [1]) with
    owner := some { groupName := String.ofList (List.replicate 33 'g') } }

/-- The archive after it was refused. -/
def afterRefusal : Builder :=
  (opened { duplicates := .keepFirst } {}).after (withoutFiles [refusedFile])

/-- The same file with an owner that fits, added then. -/
def retried : Outcome := Outcome.ofResult (add (.file "f" (.bytes [1])) afterRefusal)

theorem kept_iff_not_spoiled_retry :
    let begun := opened { duplicates := .keepFirst } {}
    let p := Placement.entry none "f"
    p.name ∈ otherNames retried.builder.members ↔
      ¬ begun.Spoiled (withoutFiles [refusedFile]) p.name := by
  intro begun p
  have hstart : start { duplicates := .keepFirst } {} = .ok () begun :=
    Outcome.ofResult_succeeds (by decide)
  have hadd : addAt (.file "f" (.bytes [1])) p afterRefusal = .ok () retried.builder :=
    Outcome.ofResult_succeeds (by decide)
  have hnow : Moves (· = p) afterRefusal afterRefusal := .refl
  exact kept_iff_not_spoiled rfl hstart hnow (Placement.plain_entry none "f") (by decide)
    (by decide) hadd

/-- The second try succeeds, and writes nothing. -/
theorem retry_without_member :
    retried.failure = none ∧ (Placement.entry none "f").name ∉ afterRefusal.directories ∧
      retried.builder.members = [] := by
  decide

end Builder

end Tarball
