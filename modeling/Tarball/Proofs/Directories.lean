/-
  The directories of an archive.

  Whatever is asked of a builder, and whether it succeeds or not, no name is
  written again after it was written as a directory, and no member is written
  before the directories on the way to it.

  * `directoryNames` are the names of the directories among members;
  * `Builder.Orderly` is what holds of a builder at all times: its list of
    directories is that of its members, and none of them has the name of a
    directory before it;
  * `Placed` says of a member that the directories on the way were there before
    it, and `Grown` that a builder has grown by such members only;
  * `Builder.after` is a builder after any steps at all (`orderly_after`).
-/
import Tarball.Proofs.Moves

namespace Tarball

/-- The names of the directories among members. -/
def directoryNames (ms : List Member) : List String :=
  (ms.filter (·.entry.kind = .directory)).map (·.entry.name)

theorem mem_directoryNames {ms : List Member} {name : String} :
    name ∈ directoryNames ms ↔ ∃ m ∈ ms, m.entry.kind = .directory ∧ m.entry.name = name := by
  simp [directoryNames, and_assoc]

theorem directoryNames_append (ms ms' : List Member) :
    directoryNames (ms ++ ms') = directoryNames ms ++ directoryNames ms' := by
  simp [directoryNames]

/-- Whether a member may stand after another one: not under its name, if that is
    a directory's. -/
def MayFollow (earlier later : Member) : Prop :=
  earlier.entry.kind = .directory → later.entry.name ≠ earlier.entry.name

/-- Where all may stand as they do, there is one directory of a name at most. -/
theorem nodup_directoryNames {ms : List Member} (h : ms.Pairwise MayFollow) :
    (directoryNames ms).Nodup := by
  unfold directoryNames
  rw [List.Nodup, List.pairwise_map]
  refine (h.filter _).imp_of_mem ?_
  intro m later hm _ hfollow he
  have hkind : m.entry.kind = .directory := by simpa using (List.mem_filter.1 hm).2
  exact hfollow hkind he.symm

theorem notMem_directoryNames {before after : List Member} {m : Member}
    (h : (before ++ m :: after).Pairwise MayFollow) : m.entry.name ∉ directoryNames before := by
  intro hmem
  obtain ⟨d, hd, hkind, hname⟩ := mem_directoryNames.1 hmem
  have hfollow := (List.pairwise_append.1 h).2.2 d hd m List.mem_cons_self
  exact hfollow hkind hname.symm

/-! ## Members in their places -/

/-- A member that was written for one of the places, after the members before it:
    the one at the place or a directory on the way.  What leads down to it was
    written as a directory, but for the name that spells the root once more. -/
def Placed (places : Placement → Prop) (before : List Member) (m : Member) : Prop :=
  ∃ p, places p ∧
    (m.entry.name = p.name ∧ (∀ a ∈ p.ancestors, a ∈ directoryNames before) ∨
      m.entry.kind = .directory ∧ m.entry.name ∈ p.ancestors) ∧
    ∀ a, IsAbove a m.entry.name → a ∈ directoryNames before ∨ p.rootMark = some a

/-- A list of members that has grown into another one, each new one in its
    place. -/
def Grown (places : Placement → Prop) (old new : List Member) : Prop :=
  ∃ added, new = old ++ added ∧
    ∀ before m after, added = before ++ m :: after → Placed places (old ++ before) m

theorem Grown.refl (places : Placement → Prop) (ms : List Member) : Grown places ms ms := by
  refine ⟨[], by simp, ?_⟩
  intro before m after h
  simp at h

theorem Grown.single {places : Placement → Prop} {old : List Member} {m : Member}
    (hm : Placed places old m) : Grown places old (old ++ [m]) := by
  refine ⟨[m], rfl, ?_⟩
  intro before x after hsplit
  cases before with
  | nil =>
    obtain ⟨rfl, -⟩ := List.cons.inj hsplit
    rw [List.append_nil]
    exact hm
  | cons y before => simp at hsplit

theorem Grown.trans {places : Placement → Prop} {old mid new : List Member}
    (h : Grown places old mid) (h' : Grown places mid new) : Grown places old new := by
  obtain ⟨first, rfl, hfirst⟩ := h
  obtain ⟨second, rfl, hsecond⟩ := h'
  refine ⟨first ++ second, by simp, ?_⟩
  intro before m after hsplit
  rcases List.append_eq_append_iff.1 hsplit with ⟨more, rfl, hmore⟩ | ⟨more, rfl, hmore⟩
  · rw [← List.append_assoc]
    exact hsecond more m after hmore
  · cases more with
    | nil =>
      have hplaced := hsecond [] m after hmore.symm
      simpa using hplaced
    | cons x more =>
      obtain ⟨rfl, -⟩ := List.cons.inj hmore
      exact hfirst before m more rfl

namespace Builder

/-- A builder whose list of directories is that of its members, none of which
    has the name of a directory before it. -/
structure Orderly (b : Builder) : Prop where
  listed : b.directories.reverse = directoryNames b.members
  follow : b.members.Pairwise MayFollow

theorem orderly_fresh (o : Options) (sink : Sink) : (fresh o sink).Orderly :=
  ⟨rfl, .nil⟩

theorem Orderly.mem_directories {b : Builder} (h : b.Orderly) {name : String} :
    name ∈ b.directories ↔ name ∈ directoryNames b.members := by
  rw [← h.listed, List.mem_reverse]

section
variable {places : Placement → Prop} {cause : Cause} {b b' : Builder}

theorem members_record (m : Member) (b : Builder) : (record m b).members = b.members ++ [m] := by
  simp [members, record]

theorem Orderly.record {m : Member} (h : b.Orderly) (hnew : m.entry.name ∉ b.directories) :
    (b.record m).Orderly := by
  constructor
  · rw [members_record, directoryNames_append, ← h.listed]
    unfold Builder.record
    by_cases hk : m.entry.kind = .directory
    · simp [directoryNames, hk]
    · simp [directoryNames, hk]
  · rw [members_record, List.pairwise_append]
    refine ⟨h.follow, List.pairwise_singleton _ _, ?_⟩
    intro d hd x hx hkind he
    obtain rfl := List.mem_singleton.1 hx
    exact hnew (h.mem_directories.2 (mem_directoryNames.2 ⟨d, hd, hkind, he.symm⟩))

/-- **A move keeps a builder orderly.** -/
theorem Move.orderly (h : Move places b b') (hb : b.Orderly) : b'.Orderly := by
  cases h with
  | store _ _ _ _ _ new =>
    exact Orderly.record (b := { b with claimed := _, sink := _ }) ⟨hb.listed, hb.follow⟩ new
  | tell | close => exact ⟨hb.listed, hb.follow⟩

/-- **A move writes a member in its place**, if it writes any. -/
theorem Move.grown (h : Move places b b') (hb : b.Orderly) (hplain : ∀ p, places p → p.Plain) :
    Grown places b.members b'.members := by
  cases h with
  | @store p n e _ _ _ hp _ hname hway habove =>
    rw [members_record]
    refine Grown.single ⟨p, hp, ?_, ?_⟩
    · rcases hway with ⟨hn, hk⟩ | rfl
      · right
        refine ⟨hk, ?_⟩
        rw [p.ancestors_eq, hname]
        exact List.mem_map.2 ⟨n, hn, rfl⟩
      · left
        rw [p.upTo_length] at hname habove
        exact ⟨hname, fun a ha => hb.mem_directories.1 (habove a ha)⟩
    · intro a ha
      rw [hname] at ha
      rcases Placement.mem_ancestors_of_isAbove ((hplain p hp).upTo n) ha with hin | hroot
      · exact .inl (hb.mem_directories.1 (habove a hin))
      · right
        exact Placement.rootMark_upTo hroot ha
  | tell | close => exact Grown.refl _ _

/-- What breaks off in the middle of a write leaves the members as they were. -/
theorem Torn.members (h : Torn places cause b b') : b'.members = b.members := by
  cases h with
  | clean | close => rfl
  | store broken => obtain ⟨s, -, rfl⟩ := broken.written; rfl

theorem Torn.root (h : Torn places cause b b') : b'.root = b.root := by
  cases h with
  | clean | close => rfl
  | store broken => obtain ⟨s, -, rfl⟩ := broken.written; rfl

theorem Torn.orderly (h : Torn places cause b b') (hb : b.Orderly) : b'.Orderly := by
  cases h with
  | clean => exact hb
  | close => exact ⟨hb.listed, hb.follow⟩
  | store broken => obtain ⟨s, -, rfl⟩ := broken.written; exact ⟨hb.listed, hb.follow⟩

theorem Moves.orderly (h : Moves places b b') (hb : b.Orderly) : b'.Orderly := by
  induction h with
  | refl => exact hb
  | tail _ hm ih => exact hm.orderly ih

theorem Moves.grown (h : Moves places b b') (hb : b.Orderly) (hplain : ∀ p, places p → p.Plain) :
    Grown places b.members b'.members := by
  induction h with
  | refl => exact Grown.refl _ _
  | tail hs hm ih => exact ih.trans (hm.grown (Moves.orderly hs hb) hplain)

/-- **What comes down to moves keeps a builder orderly**, and the members it
    writes are in their places, even where it fails. -/
theorem Does.keeps {act : Building Unit} (h : Does places act b) (hb : b.Orderly)
    (hplain : ∀ p, places p → p.Plain) :
    (Outcome.ofResult (act b)).builder.Orderly ∧
      Grown places b.members (Outcome.ofResult (act b)).builder.members := by
  cases hact : act b with
  | ok _ b₁ =>
    have hm : Moves places b b₁ := h.ok hact
    exact ⟨hm.orderly hb, hm.grown hb hplain⟩
  | error cause b₂ =>
    obtain ⟨b₁, hm, ht⟩ := h.error hact
    refine ⟨ht.orderly (hm.orderly hb), ?_⟩
    show Grown places b.members b₂.members
    rw [ht.members]
    exact hm.grown hb hplain

theorem Does.root {act : Building Unit} (h : Does places act b) :
    (Outcome.ofResult (act b)).builder.root = b.root := by
  cases hact : act b with
  | ok _ b₁ => exact Moves.root (h.ok hact)
  | error cause b₂ =>
    obtain ⟨b₁, hm, ht⟩ := h.error hact
    exact ht.root.trans hm.root

end

end Builder

/-! ## Runs -/

theorem Step.Asks.plain {root : Option String} {s : Step} {p : Placement} (h : s.Asks root p) :
    p.Plain := by
  cases s with
  | add r => obtain rfl := h; exact Placement.plain_entry root r.name
  | importFile name => obtain rfl := h; exact Placement.plain_entry root name
  | importTree dest =>
    rcases h with rfl | ⟨segs, rfl⟩
    · exact Placement.plain_entry root dest
    · exact Placement.plain_treeEntry root _
  | close | finish => cases h

namespace Builder

/-- An archive that was opened, or as far as it came. -/
def opened (o : Options) (sink : Sink) : Builder :=
  (Outcome.ofResult (start o sink)).builder

/-- The builder after steps that succeed or fail, each in the file system as it
    is by then. -/
def after (b : Builder) (history : List (FileSystem × Step)) : Builder :=
  history.foldl (fun b x => (Outcome.ofResult (x.2.run x.1 b)).builder) b

theorem after_concat (b : Builder) (history : List (FileSystem × Step)) (fs : FileSystem)
    (s : Step) : b.after (history ++ [(fs, s)]) =
      (Outcome.ofResult (s.run fs (b.after history))).builder := by
  simp [after]

/-- Steps in a file system without files. -/
def withoutFiles (steps : List Step) : List (FileSystem × Step) :=
  steps.map fun s => (({ items := [], distinct := List.nodup_nil } : FileSystem), s)

/-- Opening an archive writes the root directory and those on the way to it. -/
theorem opened_keeps (o : Options) (sink : Sink) : (opened o sink).Orderly ∧
    Grown (· = .entry (opened o sink).root "") [] (opened o sink).members := by
  have hdoes := start_does o sink
  have hroot : (opened o sink).root = (fresh o sink).root := hdoes.root
  rw [hroot]
  refine hdoes.keeps (orderly_fresh o sink) ?_
  rintro p rfl
  exact Placement.plain_entry _ _

/-- **A step keeps a builder orderly**, and the members it writes are in the
    places it asks for. -/
theorem step_keeps (fs : FileSystem) (s : Step) {b : Builder} (h : b.Orderly) :
    (Outcome.ofResult (s.run fs b)).builder.Orderly ∧
      Grown (s.Asks b.root) b.members (Outcome.ofResult (s.run fs b)).builder.members :=
  (s.does fs b).keeps h fun _ hp => hp.plain

/-- A builder is orderly after all steps. -/
theorem orderly_after {b : Builder} (h : b.Orderly) (history : List (FileSystem × Step)) :
    (b.after history).Orderly := by
  induction history generalizing b with
  | nil => exact h
  | cons x history ih => exact ih (step_keeps x.1 x.2 h).1

/-- **Directories come once, and before what is in them.**  Whatever steps were
    done, the list of directories is that of the members, no name comes again
    after it was a directory's, and a step goes on with members in the places
    it asks for. -/
theorem directories_in_order (o : Options) (sink : Sink) (history : List (FileSystem × Step)) :
    let b := (opened o sink).after history
    (directoryNames b.members).Nodup ∧
      b.directories.reverse = directoryNames b.members ∧
      (∀ before m later, b.members = before ++ m :: later →
        m.entry.name ∉ directoryNames before) ∧
      Grown (· = .entry (opened o sink).root "") [] (opened o sink).members ∧
      ∀ fs s, Grown (s.Asks b.root) b.members
        ((opened o sink).after (history ++ [(fs, s)])).members := by
  intro b
  have hb : b.Orderly := orderly_after (opened_keeps o sink).1 history
  refine ⟨nodup_directoryNames hb.follow, hb.listed, ?_, (opened_keeps o sink).2, ?_⟩
  · intro before m later hsplit
    exact notMem_directoryNames (hsplit ▸ hb.follow)
  · intro fs s
    rw [after_concat]
    exact (step_keeps fs s hb).2

end Builder

end Tarball
