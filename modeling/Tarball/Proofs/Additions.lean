/-
  What additions add.

  The members of an archive follow from what was asked for: each request adds
  the directories on the way that are missing and then the member itself, unless
  that is the root, has the name of a directory, or has one that was taken where
  the first one counts.

  * `Builder.added` are the members that a request adds to those written;
  * `Builder.Tallied` is what holds of a builder all of whose steps succeed;
  * `Builder.addAt_added`: an addition that succeeds adds just these members;
  * `Kept` says what can become of a member that is no directory, and
    `Builder.addAt_kept` that nothing else does.
-/
import Mathlib.Logic.Basic
import Tarball.Proofs.Directories

namespace Tarball

/-- The names of the members that are no directories. -/
def otherNames (ms : List Member) : List String :=
  (ms.filter (·.entry.kind ≠ .directory)).map (·.entry.name)

theorem mem_otherNames {ms : List Member} {name : String} :
    name ∈ otherNames ms ↔ ∃ m ∈ ms, m.entry.kind ≠ .directory ∧ m.entry.name = name := by
  simp [otherNames, and_assoc]

theorem otherNames_append (ms ms' : List Member) :
    otherNames (ms ++ ms') = otherNames ms ++ otherNames ms' := by
  simp [otherNames]

namespace Builder

/-- A directory that nobody asked for by itself, as a member. -/
def directoryMember (b : Builder) (owner : Owner) (name : String) : Member where
  entry := b.directoryEntry owner name
  content := []

/-- What a request asks for, as a member. -/
def memberFor (b : Builder) (r : Request) (owner : Owner) (name : String) : Member where
  entry := b.entryFor r owner name
  content := r.stored.reading.bytes.take r.stored.size.toNat

/-- The directories on the way to a place that are not among those written. -/
def missing (b : Builder) (written : List String) (r : Request) (p : Placement) : List Member :=
  (p.ancestors.filter (· ∉ written)).map (b.directoryMember (r.owner.getD b.owner))

/-- Whether nothing is to be written at a place: it is the root, its name is that
    of a directory, or another member has it and the first one counts. -/
def Taken (b : Builder) (written : List Member) (kind : Kind) (p : Placement) : Prop :=
  p.isRoot ∨ p.name ∈ directoryNames written ∨
    kind ≠ .directory ∧ b.duplicates = .keepFirst ∧ p.name ∈ otherNames written

instance (b : Builder) (written : List Member) (kind : Kind) (p : Placement) :
    Decidable (b.Taken written kind p) :=
  inferInstanceAs (Decidable (_ ∨ _ ∨ _))

/-- The member at a place, if one is to be written there. -/
def placed (b : Builder) (written : List Member) (r : Request) (p : Placement) : List Member :=
  if b.Taken written r.kind p then [] else [b.memberFor r (r.owner.getD b.owner) p.name]

/-- The members that a request adds to those written. -/
def added (b : Builder) (written : List Member) (r : Request) (p : Placement) : List Member :=
  b.missing (directoryNames written) r p ++ b.placed written r p

/-- A builder that is orderly and, where the first one of a name counts, has
    claimed just the names of its members that are no directories. -/
structure Tallied (b : Builder) : Prop where
  orderly : b.Orderly
  claimed : b.duplicates = .keepFirst → ∀ name, name ∈ b.claimed ↔ name ∈ otherNames b.members

theorem tallied_fresh (o : Options) (sink : Sink) : (fresh o sink).Tallied :=
  ⟨orderly_fresh o sink, fun _ _ => Iff.rfl⟩

/-- **A move keeps the tally.**  A step that breaks off may leave a name claimed
    that was not written. -/
theorem Move.tallied {places : Placement → Prop} {b b' : Builder} (h : Move places b b')
    (hb : b.Tallied) : b'.Tallied := by
  refine ⟨h.orderly hb.orderly, ?_⟩
  cases h with
  | @store p n e content claimed s _ _ _ _ _ _ hclaims _ =>
    intro hkeep name
    have htally := hb.claimed hkeep name
    have hallow : b.duplicates ≠ .allow := by
      intro hallow
      rw [show b.duplicates = .keepFirst from hkeep] at hallow
      cases hallow
    rw [members_record, otherNames_append, List.mem_append]
    show name ∈ claimed ↔ name ∈ otherNames b.members ∨ _
    rw [hclaims, ← htally]
    by_cases hk : e.kind = .directory
    · simp [otherNames, hk]
    · simp [otherNames, hk, hallow, or_comm]
  | tell | close => exact hb.claimed

theorem Moves.tallied {places : Placement → Prop} {b b' : Builder} (h : Moves places b b')
    (hb : b.Tallied) : b'.Tallied := by
  induction h with
  | refl => exact hb
  | tail _ hm ih => exact hm.tallied ih

/-- When another name has been written, the same of the others are missing. -/
theorem filter_notMem_cons {name : String} {names : List String} (h : name ∉ names)
    (written : List String) :
    names.filter (· ∉ name :: written) = names.filter (· ∉ written) := by
  refine List.filter_congr ?_
  intro other hother
  have hne : other ≠ name := fun he => h (he ▸ hother)
  simp [hne]

/-- The directories on the way are written where they are missing, in their
    order. -/
theorem backfill_ok {owner : Owner} {names : List String} {b b' : Builder} (hnodup : names.Nodup)
    (h : names.forM (addMissing owner) b = .ok () b') :
    b'.members = b.members ++ (names.filter (· ∉ b.directories)).map (b.directoryMember owner) := by
  induction names generalizing b with
  | nil => cases h; simp
  | cons name names ih =>
    obtain ⟨hnotin, hnodup⟩ := List.nodup_cons.1 hnodup
    obtain ⟨_, b₁, h₁, hrest⟩ := bind_eq_ok.1 h
    have hmembers := ih hnodup hrest
    rw [addMissing_eq] at h₁
    split at h₁
    · next hin =>
      cases h₁
      rw [List.filter_cons_of_neg (by simpa using hin)]
      exact hmembers
    · next hin =>
      obtain ⟨s, -, rfl⟩ := store_ok h₁
      have hrest := filter_notMem_cons hnotin b.directories
      rw [hmembers, members_record, List.filter_cons_of_pos (by simpa using hin), List.map_cons,
        List.append_assoc]
      exact congrArg (fun names => b.members ++ (b.directoryMember owner name ::
        names.map (b.directoryMember owner))) hrest

/-- The directories on the way claim no name. -/
theorem claimed_backfill {owner : Owner} {names : List String} {b b' : Builder}
    (h : names.forM (addMissing owner) b = .ok () b') : b'.claimed = b.claimed := by
  induction names generalizing b with
  | nil => cases h; rfl
  | cons name names ih =>
    obtain ⟨_, b₁, h₁, hrest⟩ := bind_eq_ok.1 h
    rw [ih hrest]
    rw [addMissing_eq] at h₁
    split at h₁
    · cases h₁; rfl
    · obtain ⟨s, -, rfl⟩ := store_ok h₁
      rfl

theorem directoryNames_missing (b : Builder) (written : List String) (r : Request) (p : Placement) :
    directoryNames (b.missing written r p) = p.ancestors.filter (· ∉ written) := by
  simp [directoryNames, missing, List.filter_map, Function.comp_def, directoryMember, directoryEntry]

theorem otherNames_missing (b : Builder) (written : List String) (r : Request) (p : Placement) :
    otherNames (b.missing written r p) = [] := by
  simp [otherNames, missing, List.filter_map, Function.comp_def, directoryMember, directoryEntry]

/-- The directories on the way to a place are above it, and so none of its name. -/
theorem name_mem_missing {p : Placement} (hp : p.Plain) (b : Builder) (ms : List Member)
    (written : List String) (r : Request) :
    p.name ∈ directoryNames (ms ++ b.missing written r p) ↔ p.name ∈ directoryNames ms := by
  rw [directoryNames_append, directoryNames_missing, List.mem_append]
  constructor
  · rintro (h | h)
    · exact h
    · exact absurd (List.mem_filter.1 h).1 hp.name_notMem_ancestors
  · exact .inl

/-- Whether a place is taken does not depend on the directories on the way. -/
theorem taken_missing {p : Placement} (hp : p.Plain) (b : Builder) (ms : List Member)
    (written : List String) (r : Request) :
    b.Taken (ms ++ b.missing written r p) r.kind p ↔ b.Taken ms r.kind p := by
  rw [Taken, Taken, name_mem_missing hp, otherNames_append, otherNames_missing, List.append_nil]

theorem Like.missing {b b' : Builder} (h : b.Like b') (written : List String) (r : Request)
    (p : Placement) : b.missing written r p = b'.missing written r p := by
  have hmember : b.directoryMember (r.owner.getD b.owner) =
      b'.directoryMember (r.owner.getD b'.owner) := by
    funext name
    rw [directoryMember, directoryMember, directoryEntry, directoryEntry, h.mtime, h.owner]
  rw [Builder.missing, Builder.missing, hmember]

theorem Like.placed {b b' : Builder} (h : b.Like b') (written : List Member) (r : Request)
    (p : Placement) : b.placed written r p = b'.placed written r p := by
  have hmember : b.memberFor r (r.owner.getD b.owner) p.name =
      b'.memberFor r (r.owner.getD b'.owner) p.name := by
    rw [memberFor, memberFor, entryFor, entryFor, h.mtime, h.owner]
  refine if_congr ?_ rfl (congrArg (fun m => [m]) hmember)
  rw [Taken, Taken, h.duplicates]

theorem Like.added {b b' : Builder} (h : b.Like b') (written : List Member) (r : Request)
    (p : Placement) : b.added written r p = b'.added written r p := by
  rw [Builder.added, Builder.added, h.missing, h.placed]

/-- Whether a builder stores nothing at a place, by what it has kept in mind. -/
def Skips (b : Builder) (kind : Kind) (p : Placement) : Prop :=
  p.isRoot ∨ p.name ∈ b.directories ∨
    kind ≠ .directory ∧ b.duplicates = .keepFirst ∧ p.name ∈ b.claimed

section
variable {r : Request} {owner : Owner} {p : Placement} {b b' : Builder}

theorem settle_of_skips (hskips : b.Skips r.kind p) (h : settle r owner p b = .ok () b') :
    b'.members = b.members := by
  unfold settle at h
  by_cases hroot : p.isRoot
  · rw [if_pos hroot] at h
    split at h
    · cases h; rfl
    · cases h
  by_cases hd : p.name ∈ b.directories
  · rw [if_neg hroot, if_pos hd] at h
    cases h; rfl
  obtain ⟨hk, hkeep, hc⟩ := (hskips.resolve_left hroot).resolve_left hd
  rw [if_neg hroot, if_neg hd, if_neg (by simp [hk, hkeep]), if_pos hc] at h
  cases h; rfl

/-- What is not skipped is stored, its name claimed perhaps. -/
theorem settle_eq_store (owner : Owner) (h : ¬ b.Skips r.kind p) : ∃ claimed,
    settle r owner p b = store (b.entryFor r owner p.name) r.stored.reading
      { b with claimed := claimed } := by
  obtain ⟨hroot, hrest⟩ := not_or.1 h
  obtain ⟨hd, hclaimed⟩ := not_or.1 hrest
  unfold settle
  rw [if_neg hroot, if_neg hd]
  split
  · exact ⟨b.claimed, rfl⟩
  · next hfree =>
    obtain ⟨hk, hallow⟩ := not_or.1 hfree
    have hkeep : b.duplicates = .keepFirst := by
      cases hdup : b.duplicates with
      | allow => exact absurd hdup hallow
      | keepFirst => rfl
    rw [if_neg fun hin => hclaimed ⟨hk, hkeep, hin⟩]
    exact ⟨p.name :: b.claimed, rfl⟩

theorem settle_of_not_skips (hskips : ¬ b.Skips r.kind p) (h : settle r owner p b = .ok () b') :
    b'.members = b.members ++ [b.memberFor r owner p.name] := by
  obtain ⟨claimed, hstore⟩ := settle_eq_store owner hskips
  rw [hstore] at h
  obtain ⟨s, -, rfl⟩ := store_ok h
  exact members_record _ _

/-- What is kept in mind tells whether a place is taken, where its name is claimed
    just if there is a member of it. -/
theorem skips_iff_taken {kind : Kind} (hb : b.Orderly)
    (hclaimed : kind ≠ .directory → b.duplicates = .keepFirst →
      (p.name ∈ b.claimed ↔ p.name ∈ otherNames b.members)) :
    b.Skips kind p ↔ b.Taken b.members kind p := by
  have hlast : (kind ≠ .directory ∧ b.duplicates = .keepFirst ∧ p.name ∈ b.claimed) ↔
      (kind ≠ .directory ∧ b.duplicates = .keepFirst ∧ p.name ∈ otherNames b.members) :=
    and_congr_right fun hk => and_congr_right fun hkeep => hclaimed hk hkeep
  rw [Skips, Taken, hb.mem_directories, hlast]

/-- What becomes of a request where the directories on the way are there. -/
theorem settle_ok (hb : b.Orderly)
    (hclaimed : r.kind ≠ .directory → b.duplicates = .keepFirst →
      (p.name ∈ b.claimed ↔ p.name ∈ otherNames b.members))
    (h : settle r (r.owner.getD b.owner) p b = .ok () b') :
    b'.members = b.members ++ b.placed b.members r p := by
  have htaken := skips_iff_taken hb hclaimed
  unfold placed
  split
  · next hin => rw [settle_of_skips (htaken.2 hin) h, List.append_nil]
  · next hout => exact settle_of_not_skips (mt htaken.1 hout) h

/-- An addition that succeeds has written the directories on the way that are
    missing, and then settled the request. -/
theorem addAt_ok (hp : p.Plain) (hb : b.Orderly) (h : addAt r p b = .ok () b') :
    ∃ b₁, Moves (fun _ => True) b b₁ ∧ b₁.claimed = b.claimed ∧
      b₁.members = b.members ++ b.missing (directoryNames b.members) r p ∧
      settle r (r.owner.getD b.owner) p b₁ = .ok () b' := by
  rw [addAt_eq] at h
  split at h
  · next ho =>
    obtain ⟨_, b₁, hfill, hsettle⟩ := bind_eq_ok.1 h
    have hdoes : Does (fun _ => True) (p.ancestors.forM (addMissing (r.owner.getD b.owner))) b :=
      (backfill_does trivial _ (List.nil_append p.ancestorLengths).symm ho (by simp)).1
    refine ⟨b₁, hdoes.ok hfill, claimed_backfill hfill, ?_, hsettle⟩
    rw [backfill_ok hp.nodup_ancestors hfill, missing]
    simp only [hb.mem_directories]
  · cases h

/-- **An addition that succeeds adds what the request asks for**, and no more. -/
theorem addAt_added (hp : p.Plain) (hb : b.Orderly)
    (hclaimed : r.kind ≠ .directory → b.duplicates = .keepFirst →
      (p.name ∈ b.claimed ↔ p.name ∈ otherNames b.members))
    (h : addAt r p b = .ok () b') : b'.members = b.members ++ b.added b.members r p := by
  obtain ⟨b₁, hmoves, hsame, hmembers, hsettle⟩ := addAt_ok hp hb h
  have hlike : b₁.Like b := Moves.like hmoves
  have hothers : otherNames b₁.members = otherNames b.members := by
    rw [hmembers, otherNames_append, otherNames_missing, List.append_nil]
  have hplaced : b₁.placed b₁.members r p = b.placed b.members r p := by
    rw [hlike.placed, hmembers]
    exact if_congr (taken_missing hp b b.members _ r) rfl rfl
  have hclaimed₁ : r.kind ≠ .directory → b₁.duplicates = .keepFirst →
      (p.name ∈ b₁.claimed ↔ p.name ∈ otherNames b₁.members) := by
    rw [hlike.duplicates, hsame, hothers]
    exact hclaimed
  rw [← hlike.owner] at hsettle
  rw [settle_ok (Moves.orderly hmoves hb) hclaimed₁ hsettle, hplaced, hmembers, added,
    List.append_assoc]

end

/-- What is no directory cannot be the root. -/
theorem isRoot_of_addAt {r : Request} {p : Placement} {b b' : Builder} (hk : r.kind ≠ .directory)
    (h : addAt r p b = .ok () b') : p.isRoot = false := by
  rw [addAt_eq] at h
  split at h
  · obtain ⟨_, b₁, -, hsettle⟩ := bind_eq_ok.1 h
    cases hroot : p.isRoot with
    | false => rfl
    | true =>
      rw [settle, if_pos hroot, if_neg hk] at hsettle
      cases hsettle
  · cases h

end Builder

end Tarball
