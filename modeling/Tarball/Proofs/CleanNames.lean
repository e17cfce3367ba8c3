/-
  Names in the archives of builds.

  Where a build has no root directory, every name in its archive is its own plain
  form: so are the destinations by the time they are asked for, the names of items
  in a file system leave them so, and so does what leads down to them.  Members of
  one lexical place then have one name.

  * `FileSystem.Named` says of a file system that its items have names that items
    can have (`FileSystem.Named.create`: creating a file keeps it so);
  * `FileSystem.Named.below_walk`: a walk goes down by such names;
  * `Build.Input.does_tidy`: an input is asked for in plain form;
  * `Build.clean_names` says what follows for archives, whether the build succeeds
    or not.
-/
import Mathlib.Data.List.Nodup
import Tarball.Proofs.FirstOfName
import Tarball.Proofs.PlainForm
import Tarball.Proofs.Remains

namespace Tarball

/-! ## Names of items -/

/-- What is read of a name is a name as well, and does not go up. -/
theorem canName_of_decode? {name : Bytes} {text : String} (hname : FileSystem.ProperName name)
    (h : Utf8.decode? name = some text) : CanName text ∧ text ≠ ".." := by
  obtain ⟨hstay, hup, hslash⟩ := hname
  obtain ⟨hempty, hdot⟩ := not_or.1 hstay
  have hbytes := Utf8.bytesOf_of_decode? h
  refine ⟨⟨⟨?_, ?_⟩, ?_⟩, ?_⟩
  · intro hnone
    rw [bytesOf, hnone] at hbytes
    exact hempty hbytes.symm
  · intro hmem
    refine hslash ?_
    rw [← hbytes, bytesOf]
    exact List.mem_flatMap.2 ⟨'/', hmem, by decide⟩
  · rintro rfl
    exact hdot (hbytes.symm.trans (by decide))
  · rintro rfl
    exact hup (hbytes.symm.trans (by decide))

theorem exists_way_of_mapM {names : List Bytes} {texts : List String}
    (hnames : ∀ name ∈ names, FileSystem.ProperName name)
    (h : names.mapM Utf8.decode? = some texts) :
    names = texts.map bytesOf ∧ ∀ text ∈ texts, CanName text ∧ text ≠ ".." := by
  induction names generalizing texts with
  | nil => cases h; exact ⟨rfl, by simp⟩
  | cons name names ih =>
    rw [List.mapM_cons] at h
    cases hfirst : Utf8.decode? name with
    | none => rw [hfirst] at h; cases h
    | some text =>
      cases hrest : names.mapM Utf8.decode? with
      | none => rw [hfirst, hrest] at h; cases h
      | some more =>
        rw [hfirst, hrest] at h
        cases h
        obtain ⟨hmap, hmore⟩ := ih (fun n hn => hnames n (List.mem_cons_of_mem _ hn)) hrest
        have htext := canName_of_decode? (hnames name List.mem_cons_self) hfirst
        refine ⟨?_, List.forall_mem_cons.2 ⟨htext, hmore⟩⟩
        rw [List.map_cons, ← hmap, Utf8.bytesOf_of_decode? hfirst]

/-! ## File systems -/

namespace FileSystem

variable {fs : FileSystem}

/-- A file system whose items have names that items can have. -/
def Named (fs : FileSystem) : Prop :=
  ∀ item ∈ fs.items, ∀ name ∈ item.1, ProperName name

instance (fs : FileSystem) : Decidable fs.Named :=
  inferInstanceAs (Decidable (∀ item ∈ fs.items, ∀ name ∈ item.1, ProperName name))

theorem Named.of_names (h : fs.Named) {dir : Location} {name : Bytes} (hname : name ∈ fs.names dir) :
    ProperName name := by
  obtain ⟨node, hitem⟩ := mem_names.1 hname
  exact h _ hitem name List.mem_cons_self

theorem Named.of_node? (h : fs.Named) {loc : Location} {node : Node} (hnode : fs.node? loc = some node) :
    ∀ name ∈ loc, ProperName name := by
  rcases mem_items_of_node? hnode with hitem | hroot
  · exact h _ hitem
  · rw [hroot]
    simp

theorem Named.put (h : fs.Named) {loc : Location} (hloc : ∀ name ∈ loc, ProperName name)
    (node : Node) : (fs.put loc node).Named := by
  intro item hitem
  rcases List.mem_cons.1 hitem with rfl | hitem
  · exact hloc
  · exact h item (List.mem_filter.1 hitem).1

/-- **Creating a file leaves it so.** -/
theorem Named.create (h : fs.Named) {path : Bytes} {created : FileSystem} {loc : Location}
    (hcreate : fs.create path = .ok (created, .file loc)) : created.Named := by
  have hcreates := create_creates hcreate
  obtain ⟨dir, name, m, rfl, hdir, hname⟩ := hcreates.inside
  rw [hcreates.emptied]
  exact h.put (List.forall_mem_cons.2 ⟨hname, h.of_node? hdir⟩) _

/-- A tour goes further down by names in directories. -/
theorem Named.below_tour (h : fs.Named) {levels : Nat} {above : List Spot} {here : Spot}
    (hhere : ∀ name ∈ here.below, ProperName name) {s : Spot}
    (hs : s ∈ (fs.tour levels above here).spots) : ∀ name ∈ s.below, ProperName name := by
  induction levels generalizing above here with
  | zero =>
    obtain rfl := List.mem_singleton.1 hs
    exact hhere
  | succ levels ih =>
    rw [tour] at hs
    rcases List.mem_append.1 hs with hs | hs
    · obtain rfl := List.mem_singleton.1 hs
      exact hhere
    split at hs
    · cases hs
    obtain ⟨name, hname, hs⟩ := Walk.mem_spots_inTurn hs
    have hproper : ProperName name := h.of_names (List.mem_mergeSort.1 hname)
    cases henter : fs.enter here name with
    | error failure => rw [henter] at hs; cases hs
    | ok spot =>
      rw [henter] at hs
      obtain ⟨-, r, -, rfl⟩ := enter_ok_iff.1 henter
      have hchild : ∀ other ∈ (here.child name r.1 r.2).below, ProperName other :=
        List.forall_mem_cons.2 ⟨hproper, hhere⟩
      dsimp only at hs
      split at hs
      · split at hs
        · cases hs
        · exact ih hchild hs
      · obtain rfl := List.mem_singleton.1 hs
        exact hchild

/-- **A walk goes down by names of items.** -/
theorem Named.below_walk (h : fs.Named) {path : Bytes} {walk : Walk} (hwalk : fs.walk path = .ok walk)
    {s : Spot} (hs : s ∈ walk.spots) : ∀ name ∈ s.below, ProperName name := by
  obtain ⟨here, -, -, hbelow, rfl⟩ := exists_tour_of_walk hwalk
  exact h.below_tour (by simp [hbelow]) hs

end FileSystem

/-! ## Places -/

/-- A place in plain form, other than the root. -/
def TidyPlace (p : Placement) : Prop := Tidy p.segments ∧ p.isRoot = false

namespace Builder
open FileSystem (ProperName)

theorem allowed_tidy {p : Placement} (h : Tidy p.segments) : Allowed TidyPlace p :=
  fun hroot => ⟨h, hroot⟩

/-- The items of a walk are asked for in plain form below a plain destination. -/
theorem allowedItem_tidy (dest : String) {spot : Spot} (hbelow : ∀ name ∈ spot.below, ProperName name) :
    AllowedItem TidyPlace none (plainDestination dest) spot := by
  intro name hname
  obtain ⟨way, hdecode, -⟩ := itemName_ok hname
  obtain ⟨hnames, hway⟩ := exists_way_of_mapM (by simpa using hbelow) hdecode
  have hplain := plainDestination_plainDestination dest
  have hcan : ∀ text ∈ way, CanName text := fun text htext => (hway text htext).1
  rw [hnames, itemName_bytesOf hplain hcan] at hname
  rw [← Except.ok.inj hname, treeEntry_itemPlace none hplain hcan]
  exact allowed_tidy (tidy_itemPlace dest hway)

section
variable {b b' : Builder}

/-- **A member written at a place in plain form has a clean name**, and so have the
    directories on the way to it. -/
theorem Move.cleanName (h : Move TidyPlace b b') (hb : ∀ m ∈ b.members, CleanName m.entry.name) :
    ∀ m ∈ b'.members, CleanName m.entry.name := by
  cases h with
  | @store p n e _ _ _ hp _ hname hway =>
    rw [members_record]
    refine List.forall_mem_append.2 ⟨hb, List.forall_mem_singleton.2 ?_⟩
    have hsegs : p.segments ≠ [] := by simpa [Placement.isRoot] using hp.2
    have hpos : n ≠ 0 := by
      rcases hway with ⟨hn, -⟩ | rfl
      · exact (Placement.mem_ancestorLengths.1 hn).2.1
      · exact mt List.length_eq_zero_iff.1 hsegs
    show CleanName e.name
    rw [hname]
    exact (hp.1.take n).cleanName (by simp [hpos, hsegs])
  | tell | close => exact hb

theorem Moves.cleanName (h : Moves TidyPlace b b') (hb : ∀ m ∈ b.members, CleanName m.entry.name) :
    ∀ m ∈ b'.members, CleanName m.entry.name := by
  induction h with
  | refl => exact hb
  | tail _ hm ih => exact Move.cleanName hm ih

/-- Where the first one of a name counts, no two members that are no directories
    have the same name. -/
theorem Moves.nodup_otherNames {places : Placement → Prop} (h : Moves places b b') (hb : b.Tallied)
    (hkeep : b.duplicates = .keepFirst) (hnodup : (otherNames b.members).Nodup) :
    (otherNames b'.members).Nodup := by
  induction h with
  | refl => exact hnodup
  | tail hs hm ih =>
    have hkeep' := (Moves.like hs).duplicates.trans hkeep
    rcases Move.claimed hm hkeep' with ⟨-, hothers⟩ | ⟨new, hnew, -, hothers⟩
    · rwa [hothers]
    · rw [hothers, List.nodup_append_comm, List.singleton_append, List.nodup_cons]
      exact ⟨fun hin => hnew (((Moves.tallied hs hb).claimed hkeep' new).2 hin), ih⟩

end

/-- Without a root directory an archive is opened as it is. -/
theorem start_of_root {o : Options} {sink : Sink} (h : (fresh o sink).root = none) :
    start o sink = .ok () (fresh o sink) := by
  rw [start, addRoot_eq, h]
  rfl

end Builder

/-! ## Builds -/

namespace Build
open Builder (Moves)

variable {fs : FileSystem} {mode : Option UInt32}

/-- **An input is asked for in plain form**, where there is no root directory. -/
theorem Input.does_tidy (hnamed : fs.Named) (x : Input) {now : Builder} (hroot : now.root = none) :
    Assembling.Does TidyPlace (x.add fs mode) now := by
  have hallowed : ∀ dest, Builder.Allowed TidyPlace (.entry now.root (plainDestination dest)) := by
    intro dest
    rw [hroot]
    exact Builder.allowed_tidy (tidy_entry dest)
  cases x with
  | file arg =>
    have hsource : Assembling.Does TidyPlace
        (addSource fs mode (sourceOf arg) (destinationOf arg)) now :=
      addSource_does (hallowed _) fun walk hwalk spot hspot =>
        hroot ▸ Builder.allowedItem_tidy _ (hnamed.below_walk hwalk hspot)
    exact Assembling.within_does _ hsource
  | link arg =>
    have hlink : ∀ name target, Builder.Allowed TidyPlace (.entry now.root name) →
        Builder.Does TidyPlace (Builder.add (.symlink name target)) now :=
      fun name target h => Builder.add_does _ now h
    exact Assembling.within_does _ (Assembling.ofBuilding_does (hlink _ _ (hallowed _)))

/-- **Archives of builds hold only clean names.**  Where there is no root directory,
    the output of a build holds the members that were written, an end and, only if an
    input failed in the middle of writing one, a part of that one between them.  The
    name of each member is its own plain form and not a dot: no segment of it is empty
    or a dot, and a `..` comes only in front.  Members of one lexical place have the
    same name; where the first one of a name counts, two that are no directories have
    different places.  Left out are file systems with items under names that no item
    can have, empty ones, dots or ones with a slash. -/
theorem clean_names {b : Build} {created : FileSystem} {settings : Settings} {loc : Location}
    (hnamed : fs.Named) (hset : b.settings fs = .ok settings)
    (hcreate : fs.create (bytesOf b.output) = .ok (created, .file loc))
    (hroot : (Builder.fresh settings.options (Output.file loc).sink).root = none) :
    let ms := (stateOf (b.addAll created settings.mode
      (Builder.fresh settings.options (Output.file loc).sink))).members
    (∃ part, (b.run fs).fileSystem.node? loc =
        some (.file (fs.modeAt loc) (ms.flatMap Member.encode ++ part ++ endMarker)) ∧
      ((b.run fs).failure = none → part = [])) ∧
    ((∀ m ∈ ms, m.entry.Readable) →
      Reader.read? (ms.flatMap Member.encode ++ endMarker) = some (ms.map Member.item, [])) ∧
    (∀ m ∈ ms, plainDestination m.entry.name = m.entry.name ∧ m.entry.name ≠ ".") ∧
    (∀ m ∈ ms, (∀ s ∈ m.entry.name.toList.splitOn '/', s ≠ [] ∧ s ≠ dot) ∧
      ∃ n rest, m.entry.name.toList.splitOn '/' = List.replicate n dotDot ++ rest ∧ dotDot ∉ rest) ∧
    (∀ m ∈ ms, ∀ m' ∈ ms, plainSegments m.entry.name.toList = plainSegments m'.entry.name.toList →
      m.entry.name = m'.entry.name) ∧
    (settings.options.duplicates = .keepFirst →
      (ms.filter (·.entry.kind ≠ .directory)).Pairwise fun m m' =>
        plainSegments m.entry.name.toList ≠ plainSegments m'.entry.name.toList) := by
  intro ms
  have hstart := Builder.start_of_root hroot
  have hdoes : Assembling.Does TidyPlace (b.addAll created settings.mode)
      (Builder.fresh settings.options (Output.file loc).sink) :=
    addAll_does fun x _ now hm => x.does_tidy (hnamed.create hcreate) (hm.root.trans hroot)
  obtain ⟨part, now, hnode, hpart, hwhole, hmoves, hmembers⟩ :=
    exists_remains hset hcreate hstart ⟨rfl, rfl, rfl⟩ hdoes
  have hms : ms = now.members := hmembers
  have hclean : ∀ m ∈ ms, CleanName m.entry.name := by
    rw [hms]
    exact Builder.Moves.cleanName hmoves (List.forall_mem_nil _)
  refine ⟨⟨part, hnode, hpart⟩, Reader.read?_encode hwhole, fun m hm => ?_, fun m hm => ?_, ?_, ?_⟩
  · exact ⟨(hclean m hm).plain, (hclean m hm).notRoot⟩
  · have htidy := (hclean m hm).tidy_splitOn
    exact ⟨fun s hs => ⟨(htidy.plain s hs).1.1, (htidy.plain s hs).2⟩, htidy.exists_replicate⟩
  · exact fun m hm m' hm' => (hclean m hm).eq_of_plainSegments (hclean m' hm')
  · intro hkeep
    have hnodup : (otherNames ms).Nodup := by
      rw [hms]
      exact Builder.Moves.nodup_otherNames hmoves (Builder.tallied_fresh _ _) hkeep List.nodup_nil
    rw [otherNames, List.Nodup, List.pairwise_map] at hnodup
    refine hnodup.imp_of_mem fun hm hm' hne heq => hne ?_
    exact (hclean _ (List.mem_filter.1 hm).1).eq_of_plainSegments
      (hclean _ (List.mem_filter.1 hm').1) heq

/-! ## Links under roundabout names -/

/-- A link below a directory, and one above where the archive is unpacked. -/
def roundabout : Build :=
  { output := "out.tar", links := ["/./a//b=t", "x/../../c/=u"] }

theorem clean_names_roundabout :
    ∃ (ms : List Member) (part : Bytes),
      (roundabout.run oldArchive).fileSystem.node? [bytesOf "out.tar"] =
        some (.file 0o600 (ms.flatMap Member.encode ++ part ++ endMarker)) ∧
      ms.map (·.entry.name) = ["a", "a/b", "..", "../c"] ∧
      ∀ m ∈ ms, plainDestination m.entry.name = m.entry.name ∧ m.entry.name ≠ "." := by
  have hset : roundabout.settings oldArchive = .ok usualSettings :=
    settings_usual rfl rfl (by decide)
  have hcreate : oldArchive.create (bytesOf roundabout.output) =
      .ok (oldArchive.put [bytesOf "out.tar"] (.file 0o600 []), .file [bytesOf "out.tar"]) := by
    decide +kernel
  have hnamed : oldArchive.Named := by decide
  obtain ⟨⟨part, hnode, -⟩, -, hclean, -⟩ := clean_names hnamed hset hcreate rfl
  have hmode : oldArchive.modeAt [bytesOf "out.tar"] = 0o600 := by decide
  rw [hmode] at hnode
  exact ⟨_, part, hnode, by decide +kernel, hclean⟩

end Build

end Tarball
