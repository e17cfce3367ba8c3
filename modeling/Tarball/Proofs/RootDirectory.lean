/-
  The root directory of an archive.

  An archive with a root directory begins with it and the directories that lead
  down to it, and all that is written later is below it.  The name of the root
  directory is read once when the archive is opened and once more with every
  request.  A name that begins with a dot is read differently the second time: it
  is then not where anything goes.

  * `upperNames` are the names that lead down to a name;
  * `Builder.Leading` says that a place and all above it are directories written, as
    they are once it is added (`Builder.leading_added`);
  * `Builder.RootedAt` says of an archive that it was begun with a directory, and
    that only what is below it can be added;
  * `Builder.Based` is what holds of a builder at all times once its root
    directory is written (`Builder.Based.after`);
  * `Builder.rootedAt_iff`: an archive is rooted at the name of its root directory
    just if that does not begin with a dot.
-/
import Tarball.Proofs.RoundTrip

namespace Tarball

/-- The names that lead down to a name, the shortest first: what stands before
    each of its slashes. -/
def upperNames (name : String) : List String :=
  ((List.range name.toList.length).filter (name.toList[·]? = some '/')).map fun n =>
    String.ofList (name.toList.take n)

theorem mem_upperNames {upper name : String} : upper ∈ upperNames name ↔ IsAbove upper name := by
  unfold upperNames IsAbove
  rw [List.mem_map]
  constructor
  · rintro ⟨n, hn, rfl⟩
    have hslash : name.toList[n]? = some '/' := by simpa using (List.mem_filter.1 hn).2
    obtain ⟨hlt, hget⟩ := List.getElem?_eq_some_iff.1 hslash
    refine ⟨name.toList.drop (n + 1), ?_⟩
    rw [String.toList_ofList, ← hget, ← List.drop_eq_getElem_cons hlt, List.take_append_drop]
  · rintro ⟨rest, hrest⟩
    refine ⟨upper.toList.length, List.mem_filter.2 ⟨?_, ?_⟩, ?_⟩
    · rw [List.mem_range, hrest, List.length_append, List.length_cons]
      omega
    · simp [hrest]
    · rw [hrest, List.take_left, String.ofList_toList]

theorem pairwise_upperNames (name : String) :
    (upperNames name).Pairwise fun a b => a.toList.length < b.toList.length := by
  unfold upperNames
  rw [List.pairwise_map]
  refine (List.pairwise_lt_range.filter _).imp_of_mem ?_
  intro m n hm hn hlt
  have hm := List.mem_range.1 (List.mem_filter.1 hm).1
  have hn := List.mem_range.1 (List.mem_filter.1 hn).1
  simp only [String.toList_ofList, List.length_take]
  omega

/-! ## Names further down -/

theorem isAbove_of_lt {segs : List Segment} {n : Nat} (hpos : 0 < n) (hlt : n < segs.length) :
    IsAbove (String.ofList (joined (segs.take n))) (String.ofList (joined segs)) := by
  obtain ⟨s, rest, hrest⟩ := List.exists_cons_of_ne_nil
    (List.ne_nil_of_length_pos (l := segs.drop n) (by rw [List.length_drop]; omega))
  have hne : segs.take n ≠ [] := List.ne_nil_of_length_pos (by rw [List.length_take]; omega)
  refine ⟨joined (s :: rest), ?_⟩
  rw [String.toList_ofList, String.toList_ofList, ← joined_append_cons _ _ _ hne, ← hrest,
    List.take_append_drop]

theorem IsAbove.length_lt {upper name : String} (h : IsAbove upper name) :
    upper.toList.length < name.toList.length := by
  obtain ⟨rest, hrest⟩ := h
  rw [hrest, List.length_append, List.length_cons]
  omega

/-- Segments of which the first is a dot spell `.` or what is below it. -/
theorem head?_eq_dot_iff {segs : List Segment} (h : ∀ s ∈ segs, s.Plain) :
    segs.head? = some ['.'] ↔
      String.ofList (joined segs) = "." ∨ IsAbove "." (String.ofList (joined segs)) := by
  constructor
  · intro hdot
    cases segs with
    | nil => simp at hdot
    | cons s rest =>
      obtain rfl : s = ['.'] := by simpa using hdot
      cases rest with
      | nil => exact .inl rfl
      | cons t rest =>
        right
        refine ⟨joined (t :: rest), ?_⟩
        rw [String.toList_ofList, joined_cons_cons]
        rfl
  · rintro (hdot | ⟨rest, hrest⟩)
    · have hsegs : segs = [['.']] :=
        joined_injOn h (by simpa using plain_dot) (String.ofList_injective hdot)
      rw [hsegs]
      rfl
    · rw [String.toList_ofList] at hrest
      exact dotSlash_eq_joined h hrest.symm

namespace Placement

/-- Where nothing spells the root once more, the directories on the way to a place
    are those whose names lead down to its own. -/
theorem ancestors_eq_upperNames {p : Placement} (hp : p.Plain) (hroot : p.rootLength = none) :
    p.ancestors = upperNames p.name := by
  have habove : ∀ n ∈ p.ancestorLengths, IsAbove (p.upTo n).name p.name := by
    intro n hn
    obtain ⟨hlt, hne, -⟩ := mem_ancestorLengths.1 hn
    exact isAbove_of_lt (Nat.pos_of_ne_zero hne) hlt
  have hsorted : p.ancestors.Pairwise fun a b => a.toList.length < b.toList.length := by
    rw [ancestors_eq, List.pairwise_map]
    refine p.pairwise_ancestorLengths.imp_of_mem ?_
    intro m n hm hn hlt
    obtain ⟨hltn, -, -⟩ := mem_ancestorLengths.1 hn
    obtain ⟨-, hne, -⟩ := mem_ancestorLengths.1 hm
    have hlength : m < (p.segments.take n).length := by rw [List.length_take]; omega
    have hshort := (isAbove_of_lt (Nat.pos_of_ne_zero hne) hlength).length_lt
    rwa [List.take_take, Nat.min_eq_left (Nat.le_of_lt hlt)] at hshort
  refine List.Perm.eq_of_pairwise ?_ hsorted (pairwise_upperNames p.name) ?_
  · intro a b _ _ hab hba
    omega
  · refine (List.perm_ext_iff_of_nodup hp.nodup_ancestors ?_).2 fun a => ?_
    · refine (pairwise_upperNames p.name).imp ?_
      rintro a b hlt rfl
      omega
    · rw [mem_upperNames]
      constructor
      · intro ha
        obtain ⟨n, hn, rfl⟩ := List.mem_map.1 (p.ancestors_eq ▸ ha)
        exact habove n hn
      · intro ha
        rcases mem_ancestors_of_isAbove hp ha with hin | hmark
        · exact hin
        · simp [rootMark, hroot] at hmark

/-- The place of the root directory itself. -/
def ofRoot (root : Option String) : Placement where
  segments := rootSegments root

theorem entry_empty (root : Option String) : entry root "" = ofRoot root := by
  have hempty : Tarball.segments [] = [] := rfl
  simp [entry, ofRoot, hempty]

theorem plain_ofRoot (root : Option String) : (ofRoot root).Plain :=
  fun _ hs => plain_of_mem_rootSegments hs

theorem name_eq_empty_iff {p : Placement} (hp : p.Plain) : p.name = "" ↔ p.isRoot := by
  rw [isRoot, List.isEmpty_iff]
  constructor
  · intro h
    exact joined_injOn hp (by simp) (String.ofList_injective h)
  · intro h
    rw [name, h]
    rfl

/-- A root directory is read under its own name again just if that does not begin
    with a dot. -/
theorem name_ofRoot_joined_iff {segs : List Segment} (hne : segs ≠ []) (h : ∀ s ∈ segs, s.Plain) :
    (ofRoot (some (String.ofList (joined segs)))).name = String.ofList (joined segs) ↔
      segs.head? ≠ some ['.'] := by
  have hread : (ofRoot (some (String.ofList (joined segs)))).segments =
      Tarball.segments (joined segs) := by
    rw [ofRoot, rootSegments, String.toList_ofList]
  rw [name, hread]
  constructor
  · intro hname hdot
    obtain ⟨s, rest, rfl⟩ := List.exists_cons_of_ne_nil hne
    obtain rfl : s = ['.'] := by simpa using hdot
    have hsame : Tarball.segments (joined (['.'] :: rest)) = ['.'] :: rest :=
      joined_injOn (fun _ hs => plain_of_mem_segments hs) h (String.ofList_injective hname)
    cases rest with
    | nil => exact absurd hsame (by decide)
    | cons t rest =>
      have hrest : ∀ s ∈ t :: rest, s.Plain := fun s hs => h s (List.mem_cons_of_mem _ hs)
      rw [joined_cons_cons] at hsame
      by_cases hlast : t :: rest = [['.']]
      · rw [hlast] at hsame
        exact absurd hsame (by decide)
      · have hread' := segments_dotSlash_joined hrest hlast
        have hlength := congrArg List.length (hread'.symm.trans hsame)
        simp at hlength
  · intro hdot
    rw [segments_joined h hdot]

theorem segments_entry (root : Option String) (path : String) :
    rootSegments root <+: (entry root path).segments :=
  List.prefix_append _ _

theorem segments_treeEntry (root : Option String) (path : String) :
    rootSegments root <+: (treeEntry root path).segments := by
  unfold treeEntry
  dsimp only
  split
  · exact List.prefix_append _ _
  · exact List.prefix_append _ _

end Placement

/-- Whatever is asked for is at the root directory or below it. -/
theorem Step.Asks.rootSegments_prefix {root : Option String} {s : Step} {p : Placement}
    (h : s.Asks root p) : Placement.rootSegments root <+: p.segments := by
  cases s with
  | add r => obtain rfl := h; exact Placement.segments_entry root r.name
  | importFile name => obtain rfl := h; exact Placement.segments_entry root name
  | importTree dest =>
    rcases h with rfl | ⟨segs, rfl⟩
    · exact Placement.segments_entry root dest
    · exact Placement.segments_treeEntry root _
  | close | finish => cases h

/-! ## Places that are written as directories -/

namespace Builder

section
variable {b : Builder} {written : List Member}

/-- A place that is written as a directory, and all above it. -/
def Leading (written : List Member) (p : Placement) : Prop :=
  ∀ n, 0 < n → n ≤ p.segments.length → (p.upTo n).name ∈ directoryNames written

theorem Leading.append {p : Placement} (h : Leading written p) (ms : List Member) :
    Leading (written ++ ms) p := by
  intro n hpos hle
  rw [directoryNames_append]
  exact List.mem_append_left _ (h n hpos hle)

theorem Leading.of_ancestors {p : Placement} (hmark : p.rootLength = none)
    (hup : ∀ a ∈ p.ancestors, a ∈ directoryNames written)
    (hname : p.isRoot ∨ p.name ∈ directoryNames written) : Leading written p := by
  intro n hpos hle
  rcases Nat.lt_or_eq_of_le hle with hlt | rfl
  · refine hup _ (List.mem_map.2 ⟨n, Placement.mem_ancestorLengths.2 ⟨hlt, by omega, ?_⟩, rfl⟩)
    simp [hmark]
  · rw [p.upTo_length]
    refine hname.resolve_left fun hroot => ?_
    rw [Placement.isRoot, List.isEmpty_iff_length_eq_zero] at hroot
    omega

/-- A directory that is added is there then, and all above it. -/
theorem leading_added {r : Request} {p : Placement} (hmark : p.rootLength = none)
    (hk : r.kind = .directory) : Leading (written ++ b.added written r p) p := by
  refine .of_ancestors hmark (fun a ha => ?_) ?_
  · rw [directoryNames_append, added, directoryNames_append, directoryNames_missing]
    by_cases hin : a ∈ directoryNames written
    · exact List.mem_append_left _ hin
    · exact List.mem_append_right _ (List.mem_append_left _ (List.mem_filter.2 ⟨ha, by simpa using hin⟩))
  · rw [directoryNames_append, added, directoryNames_append, placed]
    split
    · next htaken =>
      rcases htaken with hroot | hin | ⟨hother, -⟩
      · exact .inl hroot
      · exact .inr (List.mem_append_left _ hin)
      · exact absurd hk hother
    · refine .inr (List.mem_append_right _ (List.mem_append_right _ ?_))
      exact mem_directoryNames.2 ⟨_, List.mem_cons_self, hk, rfl⟩

end

/-! ## Builders with a root directory -/

/-- A builder that has written the directories on the way to its root directory
    and that one. -/
structure Based (top : List Segment) (b : Builder) : Prop where
  orderly : b.Orderly
  root : Placement.rootSegments b.root = top
  written : ∀ n, 0 < n → n ≤ top.length →
    String.ofList (joined (top.take n)) ∈ directoryNames b.members

section
variable {top : List Segment} {b : Builder}

theorem members_step (fs : FileSystem) (s : Step) (h : b.Orderly) :
    b.members <+: (Outcome.ofResult (s.run fs b)).builder.members := by
  obtain ⟨-, added, heq, -⟩ := step_keeps fs s h
  exact ⟨added, heq.symm⟩

theorem Based.step (h : b.Based top) (fs : FileSystem) (s : Step) :
    (Outcome.ofResult (s.run fs b)).builder.Based top := by
  refine ⟨(step_keeps fs s h.orderly).1, ?_, ?_⟩
  · rw [(s.does fs b).root, h.root]
  · intro n hpos hle
    obtain ⟨added, hadded⟩ := members_step fs s h.orderly
    rw [← hadded, directoryNames_append]
    exact List.mem_append_left _ (h.written n hpos hle)

theorem Based.after (h : b.Based top) (history : List (FileSystem × Step)) :
    (b.after history).Based top := by
  induction history generalizing b with
  | nil => exact h
  | cons x history ih => exact ih (h.step x.1 x.2)

/-- **A step writes only below the root directory**: that one and those on the way
    to it are there, and so are not written again. -/
theorem Based.step_below (h : b.Based top) (htop : top ≠ []) (fs : FileSystem) (s : Step) :
    ∃ later, (Outcome.ofResult (s.run fs b)).builder.members = b.members ++ later ∧
      ∀ m ∈ later, IsAbove (String.ofList (joined top)) m.entry.name := by
  obtain ⟨horderly, later, hmembers, hplaced⟩ := step_keeps fs s h.orderly
  refine ⟨later, hmembers, fun m hm => ?_⟩
  obtain ⟨before, rest, hsplit⟩ := List.append_of_mem hm
  obtain ⟨p, hasks, hname, -⟩ := hplaced before m rest hsplit
  obtain ⟨under, hunder⟩ := hasks.rootSegments_prefix
  rw [h.root] at hunder
  have hlength : top.length ≤ p.segments.length := by rw [← hunder]; simp
  have hpos := List.length_pos_iff.2 htop
  obtain ⟨n, hn, hle, hname⟩ : ∃ n, 0 < n ∧ n ≤ p.segments.length ∧ m.entry.name = (p.upTo n).name := by
    rcases hname with ⟨hname, -⟩ | ⟨-, hname⟩
    · exact ⟨p.segments.length, by omega, Nat.le_refl _, by rw [p.upTo_length]; exact hname⟩
    · obtain ⟨n, hn, hname⟩ := List.mem_map.1 (p.ancestors_eq ▸ hname)
      obtain ⟨hlt, hne, -⟩ := Placement.mem_ancestorLengths.1 hn
      exact ⟨n, Nat.pos_of_ne_zero hne, Nat.le_of_lt hlt, hname.symm⟩
  have hnew : m.entry.name ∉ directoryNames b.members := by
    have hfollow := horderly.follow
    rw [hmembers, hsplit, ← List.append_assoc] at hfollow
    intro hin
    refine notMem_directoryNames hfollow ?_
    rw [directoryNames_append]
    exact List.mem_append_left _ hin
  have hlong : top.length < n := by
    refine Nat.lt_of_not_le fun hshort => hnew ?_
    rw [hname, Placement.name, Placement.upTo, ← hunder, List.take_append_of_le_length (by omega)]
    exact h.written n hn (by omega)
  have hlength' : top.length < (p.segments.take n).length := by rw [List.length_take]; omega
  have habove := isAbove_of_lt hpos hlength'
  rw [List.take_take, Nat.min_eq_left (Nat.le_of_lt hlong), ← hunder, List.take_left, hunder] at habove
  rw [hname]
  exact habove

theorem Based.after_below (h : b.Based top) (htop : top ≠ []) (history : List (FileSystem × Step)) :
    ∃ later, (b.after history).members = b.members ++ later ∧
      ∀ m ∈ later, IsAbove (String.ofList (joined top)) m.entry.name := by
  induction history generalizing b with
  | nil => exact ⟨[], by simp [Builder.after], by simp⟩
  | cons x history ih =>
    obtain ⟨first, hfirst, hbelow⟩ := h.step_below htop x.1 x.2
    obtain ⟨more, hmore, hbelow'⟩ := ih (h.step x.1 x.2)
    refine ⟨first ++ more, ?_, fun m hm => ?_⟩
    · rw [← List.append_assoc, ← hfirst]
      exact hmore
    · exact (List.mem_append.1 hm).elim (hbelow m) (hbelow' m)

end

/-! ## Opening -/

section
variable {o : Options} {sink : Sink} {begun : Builder}

/-- What is written first is all that a request for the root directory adds. -/
theorem members_start (h : start o sink = .ok () begun) (hroot : begun.root.isSome) :
    begun.members = (fresh o sink).added [] (.directory "") (.ofRoot begun.root) := by
  have hadds := start_adds h
  have hmembers := hadds.members
  have hsome : (fresh o sink).root.isSome := by rwa [← hadds.like.root]
  rw [rootRequest, if_pos hsome, ← hadds.like.root, Placement.entry_empty] at hmembers
  exact hmembers

/-- That is the root directory, after those on the way to it. -/
theorem names_start (h : start o sink = .ok () begun) (hroot : begun.root.isSome) :
    begun.members.map (·.entry.name) = (Placement.ofRoot begun.root).ancestors ++
        (if (Placement.ofRoot begun.root).isRoot then [] else [(Placement.ofRoot begun.root).name]) ∧
      ∀ m ∈ begun.members, m.entry.kind = .directory := by
  have htaken : (fresh o sink).Taken [] (Request.directory "").kind (.ofRoot begun.root) ↔
      (Placement.ofRoot begun.root).isRoot := by
    simp [Taken, directoryNames, otherNames]
  rw [members_start h hroot, added, missing, placed]
  constructor
  · rw [List.map_append, List.map_map]
    congr 1
    · simp [directoryNames, Function.comp_def, directoryMember, directoryEntry]
    · by_cases hempty : (Placement.ofRoot begun.root).isRoot
      · rw [if_pos (htaken.2 hempty), if_pos hempty]
        rfl
      · rw [if_neg fun ht => hempty (htaken.1 ht), if_neg hempty]
        rfl
  · intro m hm
    rcases List.mem_append.1 hm with hm | hm
    · obtain ⟨a, -, rfl⟩ := List.mem_map.1 hm
      rfl
    · split at hm
      · simp at hm
      · rw [List.mem_singleton.1 hm]
        rfl

theorem based_start (h : start o sink = .ok () begun) :
    begun.Based (Placement.rootSegments begun.root) := by
  refine ⟨(start_adds h).tallied.orderly, rfl, fun n hpos hle => ?_⟩
  have hroot : begun.root.isSome := by
    cases hr : begun.root with
    | none => simp [hr, Placement.rootSegments] at hle; omega
    | some r => rfl
  have hlead : Leading ([] ++ (fresh o sink).added [] (.directory "") (.ofRoot begun.root))
      (.ofRoot begun.root) := leading_added rfl rfl
  rw [List.nil_append, ← members_start h hroot] at hlead
  exact hlead n hpos hle

/-- An archive begun with a directory: first come the directories that lead down to
    it, then that directory, and whatever is done afterwards adds only what is
    below it. -/
structure RootedAt (begun : Builder) (name : String) : Prop where
  opening : begun.members.map (·.entry.name) = upperNames name ++ [name]
  directories : ∀ m ∈ begun.members, m.entry.kind = .directory
  below : ∀ history, ∃ later, (begun.after history).members = begun.members ++ later ∧
    ∀ m ∈ later, IsAbove name m.entry.name

/-- Without a root directory nothing is written first. -/
theorem start_of_root_eq_none (h : start o sink = .ok () begun) (hnone : begun.root = none) :
    begun.members = [] ∧ begun.sink = sink := by
  have hfresh : (fresh o sink).root.isSome = false := by
    rw [← (start_adds h).like.root, hnone]
    rfl
  rw [start, addRoot_eq, hfresh, if_neg Bool.false_ne_true] at h
  cases h
  exact ⟨rfl, rfl⟩

section
variable {r : String}

theorem name_ofRoot_eq_empty_iff :
    (Placement.ofRoot (some r)).name = "" ↔ Placement.rootSegments (some r) = [] := by
  rw [Placement.name_eq_empty_iff (Placement.plain_ofRoot (some r))]
  simp [Placement.isRoot, Placement.ofRoot]

/-- An archive is rooted at the place of its root directory, unless that is the
    archive's own root. -/
theorem rootedAt_ofRoot (h : start o sink = .ok () begun) (hroot : begun.root = some r)
    (hname : (Placement.ofRoot (some r)).name ≠ "") :
    begun.RootedAt (Placement.ofRoot (some r)).name := by
  obtain ⟨hnames, hkinds⟩ := names_start h (by rw [hroot]; rfl)
  have hbased := based_start h
  rw [hroot] at hnames hbased
  have hsegs : Placement.rootSegments (some r) ≠ [] := mt name_ofRoot_eq_empty_iff.2 hname
  have hne : (Placement.ofRoot (some r)).isRoot = false := by
    simpa [Placement.isRoot, Placement.ofRoot] using hsegs
  refine ⟨?_, hkinds, fun history => hbased.after_below hsegs history⟩
  rw [hnames, hne, if_neg Bool.false_ne_true,
    Placement.ancestors_eq_upperNames (Placement.plain_ofRoot _) rfl]

/-- A root directory that is read as the archive's own root is not written. -/
theorem members_start_eq_nil (h : start o sink = .ok () begun) (hroot : begun.root = some r)
    (hname : (Placement.ofRoot (some r)).name = "") : begun.members = [] := by
  have hnames := (names_start h (by rw [hroot]; rfl)).1
  have hsegs := name_ofRoot_eq_empty_iff.1 hname
  rw [hroot] at hnames
  simpa [Placement.isRoot, Placement.ancestors, Placement.ancestorLengths, Placement.ofRoot, hsegs]
    using hnames

end

/-- The name of a root directory is made of segments. -/
theorem exists_segments_of_root (h : start o sink = .ok () begun) {r : String}
    (hroot : begun.root = some r) :
    ∃ segs, segs ≠ [] ∧ (∀ s ∈ segs, s.Plain) ∧ r = String.ofList (joined segs) := by
  have hfresh : (fresh o sink).root = some r := by rw [← (start_adds h).like.root, hroot]
  obtain ⟨hname, hne⟩ := Option.filter_eq_some_iff.1 hfresh
  obtain ⟨asked, -, rfl⟩ := Option.map_eq_some_iff.1 hname
  refine ⟨(Placement.entry none asked).segments, ?_, Placement.plain_entry none asked, rfl⟩
  intro hempty
  have hnone : (Placement.entry none asked).name = "" := by rw [Placement.name, hempty]; rfl
  simp [hnone] at hne

/-- An archive is rooted under one name at most. -/
theorem RootedAt.unique {name name' : String} (h : begun.RootedAt name)
    (h' : begun.RootedAt name') : name = name' := by
  have hlast := congrArg List.getLast? (h.opening.symm.trans h'.opening)
  simpa using hlast

/-- **An archive is rooted at the name of its root directory** just if that does not
    begin with a dot; otherwise it is rooted at what is read the second time, if
    there is anything.  Without a root directory nothing is written first. -/
theorem rootedAt_iff (h : start o sink = .ok () begun) :
    (begun.root = none → begun.members = [] ∧ begun.sink = sink) ∧
      ∀ r, begun.root = some r →
        (begun.RootedAt r ↔ ¬ (r = "." ∨ IsAbove "." r)) ∧
        ((Placement.ofRoot (some r)).name ≠ "" →
          begun.RootedAt (Placement.ofRoot (some r)).name) ∧
        ((Placement.ofRoot (some r)).name = "" → begun.members = []) := by
  refine ⟨start_of_root_eq_none h, fun r hroot => ?_⟩
  refine ⟨?_, rootedAt_ofRoot h hroot, members_start_eq_nil h hroot⟩
  obtain ⟨segs, hne, hplain, rfl⟩ := exists_segments_of_root h hroot
  rw [← head?_eq_dot_iff hplain, ← Ne, ← Placement.name_ofRoot_joined_iff hne hplain]
  constructor
  · intro hr
    refine (rootedAt_ofRoot h hroot fun hname => ?_).unique hr
    have hopening := hr.opening
    rw [members_start_eq_nil h hroot hname] at hopening
    simp at hopening
  · intro hname
    have hwritten : (Placement.ofRoot (some (String.ofList (joined segs)))).name ≠ "" := by
      rw [hname]
      exact fun hnone => hne (joined_injOn hplain (by simp) (String.ofList_injective hnone))
    have hrooted := rootedAt_ofRoot h hroot hwritten
    rwa [hname] at hrooted

end

/-- A root directory in a directory. -/
def packageRoot : Options := { root := some "/opt//pkg/" }

theorem rootedAt_iff_package :
    start packageRoot {} = .ok () (opened packageRoot {}) ∧
      (opened packageRoot {}).root = some "opt/pkg" ∧ (opened packageRoot {}).RootedAt "opt/pkg" := by
  have hstart : start packageRoot {} = .ok () (opened packageRoot {}) :=
    Outcome.ofResult_succeeds (by decide)
  have hroot : (opened packageRoot {}).root = some "opt/pkg" := by decide
  refine ⟨hstart, hroot, ((rootedAt_iff hstart).2 "opt/pkg" hroot).1.2 ?_⟩
  rintro (hdot | ⟨rest, hrest⟩)
  · revert hdot
    decide
  · simp at hrest

/-- A root directory whose name is read as `./x` the first time, and as `x` after
    that. -/
def dottedRoot : Options := { root := some "/./x" }

/-- Only `x` is written first, and what is added next goes below that. -/
theorem dottedRoot_elsewhere :
    (Outcome.ofResult (start dottedRoot {})).failure = none ∧
      (opened dottedRoot {}).root = some "./x" ∧
      (opened dottedRoot {}).members.map (·.entry.name) = ["x"] ∧
      ((opened dottedRoot {}).after (withoutFiles [.add (.file "a" .empty)])).members.map
        (·.entry.name) = ["x", "x/a"] ∧
      ¬ (opened dottedRoot {}).RootedAt "./x" := by
  have hnames : (opened dottedRoot {}).members.map (·.entry.name) = ["x"] := by decide
  refine ⟨by decide, by decide, hnames, by decide, fun hr => ?_⟩
  have hopening := hr.opening
  rw [hnames] at hopening
  revert hopening
  decide

end Builder

end Tarball
