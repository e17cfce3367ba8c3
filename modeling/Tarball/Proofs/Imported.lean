/-
  What the import of a tree writes.

  A walk comes to a directory before anything in it, so that the directories on the
  way to an item are there when its turn comes.  What is written for an item is the
  item itself, or a directory on the way to the tree.

  * `FileSystem.exists_upper_of_walk`: with an item a walk comes to all the
    directories of the tree that it is in;
  * `Builder.Writes` relates a builder to what becomes of it by members that may be
    written;
  * `Builder.importTree_writes`: an import writes members for the items of its walk,
    whether it succeeds or fails;
  * `Builder.importTree_visited`: no other directory of the tree is written for one.
-/
import Tarball.Proofs.CleanNames
import Tarball.Proofs.Extension
import Tarball.Proofs.Lineage
import Tarball.Proofs.Spared
import Tarball.Proofs.TreeImport

namespace Tarball

/-! ## Directories that a walk comes to -/

namespace FileSystem

variable {fs : FileSystem}

/-- Whether a walk that starts at the end of a way comes to all directories that are
    between its start and a place it comes to. -/
def ComesThrough (fs : FileSystem) (way : List Bytes) (spots : List Spot) : Prop :=
  ∀ s ∈ spots, ∀ upper, way <+: upper → upper <+: s.way → upper ≠ s.way →
    ∃ t ∈ spots, t.way = upper ∧ fs.isDirectoryAt t.location

theorem ComesThrough.of_ways_eq {way : List Bytes} {spots : List Spot}
    (h : ∀ s ∈ spots, s.way = way) : fs.ComesThrough way spots := by
  intro s hs upper hway hupper hne
  rw [h s hs] at hupper hne
  exact absurd (hupper.eq_of_length_le hway.length_le) hne

/-- A directory and then what is behind its names. -/
theorem ComesThrough.directory {here : Spot} {go : Bytes → Walk} {names : List Bytes}
    (hdir : fs.isDirectoryAt here.location)
    (hunder : ∀ name ∈ names, ∀ s ∈ (go name).spots, here.way ++ [name] <+: s.way)
    (hgo : ∀ name ∈ names, fs.ComesThrough (here.way ++ [name]) (go name).spots) :
    fs.ComesThrough here.way (here :: (Walk.inTurn go names).spots) := by
  obtain ⟨done, hdone, hspots⟩ := Walk.spots_inTurn go names
  rw [hspots]
  intro s hs upper hway hupper hne
  rcases List.mem_cons.1 hs with rfl | hs
  · exact absurd (hupper.eq_of_length_le hway.length_le) hne
  obtain ⟨name, hname, hs⟩ := List.mem_flatMap.1 hs
  by_cases htop : upper = here.way
  · exact ⟨here, List.mem_cons_self, htop.symm, hdir⟩
  · -- then it is behind the same name
    have hlonger : here.way.length < upper.length := by
      refine Nat.lt_of_le_of_ne hway.length_le fun hlength => htop ?_
      exact (hway.eq_of_length hlength).symm
    have hlength : (here.way ++ [name]).length ≤ upper.length := by
      rw [List.length_append, List.length_singleton]
      exact hlonger
    have hbehind : here.way ++ [name] <+: upper :=
      List.prefix_of_prefix_length_le (hunder name (hdone.subset hname) s hs) hupper hlength
    obtain ⟨t, ht, hat⟩ := hgo name (hdone.subset hname) s hs upper hbehind hupper hne
    exact ⟨t, List.mem_cons_of_mem _ (List.mem_flatMap.2 ⟨name, hname, ht⟩), hat⟩

/-- What the walk from a name in a directory comes to. -/
theorem spots_tourOf (levels : Nat) (above : List Spot) (here : Spot) (name : Bytes) :
    (fs.tourOf levels above here name).spots = [] ∨
      ∃ spot, spot.way = here.way ++ [name] ∧ ((fs.tourOf levels above here name).spots = [spot] ∨
        fs.isDirectoryAt spot.location ∧ (fs.tourOf levels above here name).spots =
          (fs.tour levels (here :: above) spot).spots) := by
  unfold tourOf
  split
  · exact .inl rfl
  next spot henter =>
  have hway : spot.way = here.way ++ [name] := by
    obtain ⟨-, r, -, rfl⟩ := enter_ok_iff.1 henter
    exact here.way_child name r.1 r.2
  split
  · next hdir =>
    split
    · exact .inl rfl
    · exact .inr ⟨spot, hway, .inr ⟨hdir, rfl⟩⟩
  · exact .inr ⟨spot, hway, .inl rfl⟩

/-- A tour goes as many levels down as it may. -/
theorem length_way_le {levels : Nat} {above : List Spot} {here s : Spot}
    (hs : s ∈ (fs.tour levels above here).spots) : s.way.length ≤ here.way.length + levels := by
  induction levels generalizing above here with
  | zero => rw [List.mem_singleton.1 hs, Nat.add_zero]
  | succ levels ih =>
    rw [tour_succ] at hs
    rcases Walk.mem_spots_andThen hs with hs | hs
    · rw [List.mem_singleton.1 hs]
      omega
    split at hs
    · cases hs
    obtain ⟨name, -, hs⟩ := Walk.mem_spots_inTurn hs
    rcases spots_tourOf levels above here name with hnone | ⟨spot, hway, hspots⟩
    · rw [hnone] at hs
      cases hs
    have hlength : spot.way.length = here.way.length + 1 := by
      rw [hway, List.length_append, List.length_singleton]
    rcases hspots with hone | ⟨-, htour⟩
    · rw [hone, List.mem_singleton] at hs
      rw [hs]
      omega
    · rw [htour] at hs
      have hle := ih hs
      omega

theorem tour_comesThrough {levels : Nat} {above : List Spot} {here : Spot}
    (hdir : fs.isDirectoryAt here.location) :
    fs.ComesThrough here.way (fs.tour levels above here).spots := by
  induction levels generalizing above here with
  | zero => exact .of_ways_eq fun s hs => by rw [List.mem_singleton.1 hs]
  | succ levels ih =>
    rw [tour_succ, Walk.andThen]
    dsimp only
    split
    · exact .of_ways_eq fun s hs => by rw [List.mem_singleton.1 hs]
    · refine ComesThrough.directory hdir (fun name _ s hs => ?_) fun name _ => ?_
      · rcases spots_tourOf levels above here name with hnone | ⟨spot, hway, hone | ⟨-, htour⟩⟩
        · rw [hnone] at hs
          cases hs
        · rw [hone, List.mem_singleton] at hs
          rw [hs, hway]
        · rw [htour] at hs
          rw [← hway]
          exact (tour_descends levels (here :: above) spot).under s hs
      · rcases spots_tourOf levels above here name with hnone | ⟨spot, hway, hone | ⟨hspot, htour⟩⟩
        · rw [hnone]
          exact .of_ways_eq fun s hs => by cases hs
        · rw [hone]
          exact .of_ways_eq fun s hs => by rw [List.mem_singleton.1 hs, hway]
        · rw [htour, ← hway]
          exact ih hspot

theorem length_below_le {source : Bytes} {walk : Walk} (hwalk : fs.walk source = .ok walk) {s : Spot}
    (hs : s ∈ walk.spots) : s.below.length ≤ levelLimit := by
  obtain ⟨here, -, -, hbelow, rfl⟩ := exists_tour_of_walk hwalk
  have hle := length_way_le hs
  rw [Spot.way, Spot.way, List.length_reverse, List.length_reverse, hbelow] at hle
  simpa using hle

/-- **With an item a walk comes to all the directories it is in.** -/
theorem exists_upper_of_walk {source : Bytes} {walk : Walk} (hdir : fs.isDirectory source)
    (hwalk : fs.walk source = .ok walk) {s : Spot} (hs : s ∈ walk.spots) {upper : List Bytes}
    (hupper : upper <+: s.way) (hne : upper ≠ s.way) :
    ∃ t ∈ walk.spots, t.way = upper ∧ fs.isDirectoryAt t.location := by
  obtain ⟨here, hhere, -, hbelow, rfl⟩ := exists_tour_of_walk hwalk
  have hat : fs.isDirectoryAt here.location :=
    (Builder.isDirectoryAt_of_resolve (resolve_of_resolveLinks hhere)).trans hdir
  have hway : here.way <+: upper := by
    rw [Spot.way, hbelow, List.reverse_nil]
    exact List.nil_prefix
  exact tour_comesThrough hat s hs upper hway hupper hne

end FileSystem

/-! ## Members that are written -/

/-- Whether a member is what a place was asked for, of the kind asked for, or a
    directory on the way there. -/
def Member.WrittenAt (kind : Kind) (p : Placement) (m : Member) : Prop :=
  m.entry.name = p.name ∧ m.entry.kind = kind ∨ m.entry.kind = .directory ∧ m.entry.name ∈ p.ancestors

/-- Whether a member was written for an item of a tree below a root directory: a
    directory just if the item is one, or for the way there. -/
def Member.WrittenFor (fs : FileSystem) (dest : String) (spot : Spot) (root : Option String)
    (m : Member) : Prop :=
  ∃ name kind, itemName dest spot.way = .ok name ∧ (kind = .directory ↔ fs.isDirectoryAt spot.location) ∧
    m.WrittenAt kind (.treeEntry root name)

namespace Builder

/-- From one builder to another by members that may be written below its root
    directory. -/
structure Writes (may : Option String → Member → Prop) (b b' : Builder) : Prop where
  root : b'.root = b.root
  members : ∃ added, b'.members = b.members ++ added ∧ ∀ m ∈ added, may b.root m

section
variable {may may' : Option String → Member → Prop} {b b' b'' : Builder}

theorem Writes.of_members_eq (hroot : b'.root = b.root) (hmembers : b'.members = b.members) :
    b.Writes may b' :=
  ⟨hroot, [], by simp [hmembers], by simp⟩

theorem Writes.refl (b : Builder) : b.Writes may b := .of_members_eq rfl rfl

theorem Writes.trans (h : b.Writes may b') (h' : b'.Writes may b'') : b.Writes may b'' := by
  obtain ⟨hroot, added, hadded, hmay⟩ := h
  obtain ⟨hroot', more, hmore, hmay'⟩ := h'
  refine ⟨hroot'.trans hroot, added ++ more, ?_, fun m hm => ?_⟩
  · rw [hmore, hadded, List.append_assoc]
  · rcases List.mem_append.1 hm with hm | hm
    · exact hmay m hm
    · exact hroot ▸ hmay' m hm

theorem Writes.mono (h : b.Writes may b') (hmay : ∀ m, may b.root m → may' b.root m) :
    b.Writes may' b' := by
  obtain ⟨hroot, added, hadded, hall⟩ := h
  exact ⟨hroot, added, hadded, fun m hm => hmay m (hall m hm)⟩

end

section
variable {may : Member → Prop}

theorem store_writes {e : Entry} (content : Reading) (hmay : ∀ bytes, may ⟨e, bytes⟩) :
    Yields (Writes fun _ => may) (store e content) := by
  intro b
  rw [store_eq]
  cases e.write content b.sink with
  | ok u s => exact ⟨rfl, [_], members_record _ _, by simpa using hmay _⟩
  | error cause s => exact .of_members_eq rfl rfl

theorem addMissing_writes (owner : Owner) {name : String}
    (hmay : ∀ m : Member, m.entry.kind = .directory → m.entry.name = name → may m) :
    Yields (Writes fun _ => may) (addMissing owner name) := by
  intro b
  rw [addMissing_eq]
  split
  · exact .refl b
  · exact store_writes {} (fun bytes => hmay _ rfl rfl) b

theorem settle_writes (r : Request) (owner : Owner) (p : Placement) :
    Yields (Writes fun _ => Member.WrittenAt r.kind p) (settle r owner p) := by
  intro b
  have hmay : ∀ bytes, Member.WrittenAt r.kind p ⟨b.entryFor r owner p.name, bytes⟩ :=
    fun bytes => .inl ⟨rfl, rfl⟩
  unfold settle
  split
  · split
    · exact .refl b
    · exact .refl b
  split
  · exact .refl b
  split
  · exact store_writes _ hmay b
  split
  · exact .of_members_eq rfl rfl
  · have hclaim : Writes (fun _ => Member.WrittenAt r.kind p) b
        { b with claimed := p.name :: b.claimed } := .of_members_eq rfl rfl
    exact hclaim.trans (store_writes _ hmay _)

end

/-- **An addition writes members for its place**, whether it succeeds or fails. -/
theorem addAt_writes (r : Request) (p : Placement) :
    Yields (Writes fun _ => Member.WrittenAt r.kind p) (addAt r p) := by
  intro b
  rw [addAt_eq]
  split
  · have hfill : Yields (Writes fun _ => Member.WrittenAt r.kind p)
        (p.ancestors.forM (addMissing (r.owner.getD b.owner))) :=
      .forM .refl .trans _ fun name hname => addMissing_writes _ fun m hk hm =>
        .inr ⟨hk, hm ▸ hname⟩
    exact hfill.bind .trans (fun _ => settle_writes r _ p) b
  · exact .refl b

theorem addInTree_writes (r : Request) :
    Yields (Writes fun root => Member.WrittenAt r.kind (.treeEntry root r.name)) (addInTree r) :=
  fun b => (addAt_writes r (.treeEntry b.root r.name) b).mono fun _ hm => hm

section
variable (fs : FileSystem) (dest : String)

theorem openSpot_writes {may : Option String → Member → Prop} (spot : Spot) :
    Yields (Writes may) (openSpot fs spot) := by
  unfold openSpot
  split
  · exact .of_error .refl _
  · exact fun b => Yields.ofExcept .refl (fs.openDuring b.sink spot.location) b

theorem importItem_writes (mode : Option UInt32) (spot : Spot) :
    Yields (Writes (Member.WrittenFor fs dest spot)) (importItem fs dest mode spot) := by
  intro b
  unfold importItem
  cases hname : itemName dest spot.below.reverse with
  | error cause => exact .refl b
  | ok name =>
    have hother : b.Writes (Member.WrittenFor fs dest spot)
        (stateOf (tell (.special (Utf8.display spot.path)) b)) := .of_members_eq rfl rfl
    cases hnode : fs.node? spot.location with
    | none => exact hother
    | some node =>
      cases node with
      | directory m =>
        have hdir : fs.isDirectoryAt spot.location := FileSystem.isDirectoryAt_eq hnode
        exact (addInTree_writes (.directory name) b).mono fun m hm =>
          ⟨name, .directory, hname, iff_of_true rfl hdir, hm⟩
      | file m bytes =>
        have hfile : ¬ fs.isDirectoryAt spot.location :=
          ne_true_of_eq_false (FileSystem.isDirectoryAt_eq hnode)
        refine (openSpot_writes fs spot).bind .trans (fun content b' => ?_) b
        have hk := storedFile_ne_directory name content mode
        exact (addInTree_writes (storedFile name content mode) b').mono fun m hm =>
          ⟨name, _, hname, iff_of_false hk hfile, hm⟩
      | _ => exact hother

theorem importWalk_writes (mode : Option UInt32) (walk : Walk) :
    Yields (Writes fun root m => ∃ spot ∈ walk.spots, m.WrittenFor fs dest spot root)
      (importWalk fs dest mode walk) := by
  have hitems : Yields (Writes fun root m => ∃ spot ∈ walk.spots, m.WrittenFor fs dest spot root)
      (walk.spots.forM (importItem fs dest mode)) := by
    refine .forM .refl .trans _ fun spot hspot b => ?_
    exact (importItem_writes fs dest mode spot b).mono fun m hm => ⟨spot, hspot, hm⟩
  refine hitems.bind .trans fun _ => ?_
  split
  · exact .of_error .refl _
  · exact .of_pure .refl _

/-- **An import writes members for the items of its walk**, whether it succeeds or
    fails. -/
theorem importTree_writes {source : Bytes} {walk : Walk} (hdir : fs.isDirectory source)
    (hwalk : fs.walk source = .ok walk) (mode : Option UInt32) :
    Yields (Writes fun root m => ∃ spot ∈ walk.spots, m.WrittenFor fs dest spot root)
      (importTree fs dest source mode) := by
  intro b
  by_cases hopen : b.isOpen
  · rw [importTree_of_walk dest mode hopen hdir hwalk]
    exact importWalk_writes fs dest mode walk b
  · have hclosed : importTree fs dest source mode b = .error .closed b :=
      bind_of_error (by rw [requireOpen_eq, if_neg hopen])
    rw [hclosed]
    exact .refl b

end

end Builder

/-! ## Directories on the way -/

/-- Whether a member is at the place of an item that a walk came to, a directory just
    if the item is one. -/
def Member.VisitedBy (fs : FileSystem) (dest : String) (walk : Walk) (root : Option String)
    (m : Member) : Prop :=
  ∃ spot ∈ walk.spots, ∃ name, itemName dest spot.way = .ok name ∧
    m.entry.name = (Placement.treeEntry root name).name ∧
    (m.entry.kind = .directory ↔ fs.isDirectoryAt spot.location)

/-- A directory on the way to an item is one that the walk came to before, or leads
    to the tree. -/
theorem Member.WrittenFor.visited {fs : FileSystem} {dest : String} {source : Bytes} {walk : Walk}
    {root : Option String} {spot : Spot} {m : Member} (h : m.WrittenFor fs dest spot root)
    (hdest : dest ∉ hiddenRoots) (hnamed : fs.Named) (hdir : fs.isDirectory source)
    (hwalk : fs.walk source = .ok walk) (hspot : spot ∈ walk.spots) :
    m.VisitedBy fs dest walk root ∨
      m.entry.kind = .directory ∧ m.entry.name ∈ (Placement.treeEntry root (treeStart dest)).ancestors := by
  obtain ⟨name, kind, hname, hkind, ⟨hat, hk⟩ | ⟨hk, habove⟩⟩ := h
  · exact .inl ⟨spot, hspot, name, hname, hat, hk ▸ hkind⟩
  obtain ⟨way, hdecode, rfl⟩ := itemName_ok hname
  have hproper : ∀ other ∈ spot.way, FileSystem.ProperName other :=
    fun other hother => hnamed.below_walk hwalk hspot other (List.mem_reverse.1 hother)
  obtain ⟨hnames, hway⟩ := exists_way_of_mapM hproper hdecode
  have hcan : ∀ other ∈ way, CanName other := fun other hother => (hway other hother).1
  rcases Placement.mem_ancestors_pathIn root hdest hcan habove with htop | ⟨upper, hupper, hne, hat⟩
  · exact .inr ⟨hk, htop⟩
  -- it is the place of a directory that the item is in
  have hbytes : upper.map bytesOf <+: spot.way := hnames ▸ hupper.map bytesOf
  have hbytesNe : upper.map bytesOf ≠ spot.way := by
    intro heq
    have hlength := congrArg List.length heq
    rw [hnames, List.length_map, List.length_map] at hlength
    exact hne (hupper.eq_of_length hlength)
  obtain ⟨t, ht, htway, htdir⟩ := FileSystem.exists_upper_of_walk hdir hwalk hspot hbytes hbytesNe
  refine .inl ⟨t, ht, pathIn dest upper, ?_, hat, iff_of_true hk htdir⟩
  rw [htway, itemName, mapM_decode?_bytesOf]
  rfl

namespace Builder

/-- **The directories of a tree are the parents of its items.**  On the way to an item
    of a directory is what is on the way to the directory, and that itself; and no
    directory of the tree is written that the walk of an import has not come to.  The
    exception are two destinations that are the root with a dot: on the way to what is
    directly in the tree there is one directory more. -/
theorem parents_of_items (dest : String) :
    (∀ root way name, (∀ other ∈ way, CanName other) → CanName name →
      (Placement.treeEntry root (pathIn dest (way ++ [name]))).ancestors =
        (Placement.treeEntry root (pathIn dest way)).lineage ++
          if way = [] ∧ dest ∈ hiddenRoots then
            [String.ofList (joined (Placement.rootSegments root ++ [['.'], ['.']]))]
          else []) ∧
    (dest ∉ hiddenRoots → ∀ (fs : FileSystem) (source : Bytes) (mode : Option UInt32) (b : Builder),
      fs.Named → fs.isDirectory source → ∃ walk added, fs.walk source = .ok walk ∧
        (Outcome.ofResult (importTree fs dest source mode b)).builder.members = b.members ++ added ∧
        ∀ m ∈ added, m.VisitedBy fs dest walk b.root ∨ m.entry.kind = .directory ∧
          m.entry.name ∈ (Placement.treeEntry b.root (treeStart dest)).ancestors) := by
  refine ⟨fun root way name hway hname => Placement.ancestors_pathIn_concat root dest hway hname, ?_⟩
  intro hdest fs source mode b hnamed hdir
  obtain ⟨walk, hwalk⟩ := FileSystem.exists_walk hdir
  obtain ⟨-, added, hadded, hmay⟩ := importTree_writes fs dest hdir hwalk mode b
  refine ⟨walk, added, hwalk, ?_, fun m hm => ?_⟩
  · rw [Outcome.builder_ofResult]
    exact hadded
  · obtain ⟨spot, hspot, hfor⟩ := hmay m hm
    exact hfor.visited hdest hnamed hdir hwalk hspot

theorem parents_of_items_oneFile :
    (Placement.treeEntry none (pathIn "p" (["d"] ++ ["abcd"]))).ancestors = ["p", "p/d"] ∧
      ∃ walk added, oneFile.walk (bytesOf "t") = .ok walk ∧
        (Outcome.ofResult (importTree oneFile "p" (bytesOf "t") none (opened {} {}))).builder.members =
          added ∧
        ∀ m ∈ added, m.VisitedBy oneFile "p" walk none ∨
          m.entry.kind = .directory ∧ m.entry.name ∈ (Placement.treeEntry none (treeStart "p")).ancestors := by
  have hname : ∀ name ∈ ["d", "abcd"], CanName name := by
    intro name hmem
    rcases List.mem_pair.1 hmem with rfl | rfl
    · exact ⟨⟨by decide, by decide⟩, by decide⟩
    · exact ⟨⟨by decide, by decide⟩, by decide⟩
  have hdest : "p" ∉ hiddenRoots := by decide
  have hdir : oneFile.isDirectory (bytesOf "t") := by decide
  constructor
  · rw [(parents_of_items "p").1 none ["d"] "abcd" (fun other h => hname other (by simp_all))
      (hname "abcd" (by simp)), if_neg fun h => hdest h.2]
    decide
  · obtain ⟨walk, added, hwalk, hmembers, hall⟩ := (parents_of_items "p").2 hdest oneFile (bytesOf "t")
      none (opened {} {}) (by decide) hdir
    exact ⟨walk, added, hwalk, hmembers, hall⟩

/-- At `./.` what is directly in a tree has a directory on the way to it that is no
    item of the tree, and it is written. -/
theorem hiddenRoot_backfilled :
    (Placement.treeEntry none (pathIn "./." [])).name = "" ∧
      (Placement.treeEntry none (pathIn "./." ["abcd"])).ancestors = ["./."] ∧
      (Outcome.ofResult (importTree oneFile "./." (bytesOf "t") none (opened {} {}))).builder.members.map
        (fun m => (m.entry.name, m.entry.kind)) = [("./.", .directory), ("././abcd", .file)] ∧
      ∃ walk, oneFile.walk (bytesOf "t") = .ok walk ∧ ∀ spot ∈ walk.spots, ∀ name,
        itemName "./." spot.way = .ok name → (Placement.treeEntry none name).name ≠ "./." := by
  have hpath : oneFile.resolveLinks (bytesOf "t") = .ok ([bytesOf "t"], 40) := by decide
  have hwalk := walk_oneFile hpath (by decide)
  have hdir : oneFile.isDirectory (bytesOf "t") := by decide
  refine ⟨by decide, by decide, ?_, _, hwalk, ?_⟩
  · rw [importTree_of_walk "./." none (by decide) hdir hwalk]
    decide +kernel
  · intro spot hspot name hname
    have htop : itemName "./." (oneSpot (bytesOf "t")).way = .ok "./." := by rfl
    have hbelow : itemName "./." (oneSpotBelow (bytesOf "t")).way = .ok "././abcd" := by
      decide +kernel
    rcases List.mem_pair.1 hspot with rfl | rfl
    · rw [htop] at hname
      cases hname
      decide
    · rw [hbelow] at hname
      cases hname
      decide

end Builder

end Tarball
