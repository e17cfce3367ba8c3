/-
  Whole trees in an archive.

  As long as none of the names of a tree's items is in use, the import of the tree
  adds one member for each item, in the order of the listing, after the directories
  on the way to the destination that are missing.

  * `Builder.importedMember` is the member for an item;
  * `Builder.adding_listing`: what a tree adds once the directories on the way to it
    are there;
  * `Builder.importTree_complete`: what the import of a tree adds, and
    `Builder.longWay_refused`: a tree whose items are too far away for it.
-/
import Tarball.Proofs.ItemNames
import Tarball.Proofs.RootDirectory
import Tarball.Proofs.Unhindered

namespace Tarball

/-! ## Requests -/

/-- The items of a tree that have a name of their own: the top has none where the
    destination is `.`. -/
def Tree.storedItems (dest : String) (tree : Tree) : List Tree.Item :=
  (tree.listing []).filter fun item => dest ≠ "." ∨ item.way ≠ []

/-- The items of a directory that have a name of their own are all but itself, and
    that too unless it goes to the top. -/
theorem Tree.storedItems_directory {dest : String} {names : List String}
    (ordered : names.Pairwise fun a b => bytesOf a < bytesOf b) (named : ∀ name ∈ names, CanName name)
    (items : String → Tree) :
    (directory names ordered named items).storedItems dest =
      (if dest = "." then [] else [{ way := [] }]) ++ inside [] names items := by
  have hinside : (inside [] names items).filter (fun item => dest ≠ "." ∨ item.way ≠ []) =
      inside [] names items := by
    refine List.filter_eq_self.2 fun item hitem => ?_
    have hbelow := (way_of_mem_inside (by simp) named hitem).1
    simpa using .inr (List.ne_nil_of_length_pos hbelow)
  unfold storedItems
  show ({ way := [] } :: inside [] names items).filter _ = _
  by_cases hdot : dest = "."
  · rw [List.filter_cons_of_neg (by simp [hdot]), if_pos hdot, hinside]
    rfl
  · rw [List.filter_cons_of_pos (by simp [hdot]), if_neg hdot, hinside]
    rfl

/-- What an item of a tree asks for. -/
def Tree.Item.request (dest : String) (mode : Option UInt32) (item : Tree.Item) : Request :=
  match item.content with
  | none => .directory (itemPlace none dest item.way).name
  | some bytes => Builder.storedFile (itemPlace none dest item.way).name
      (.stream { chunks := [bytes] } (UInt64.ofNat bytes.length)) mode

/-- What an item of a tree asks for, at its place. -/
def Tree.Item.asked (root : Option String) (dest : String) (mode : Option UInt32) (item : Tree.Item) :
    Asked :=
  ⟨item.request dest mode, itemPlace root dest item.way⟩

section
variable {fs : FileSystem} {dest : String} {mode : Option UInt32} {spot : Spot} {item : Tree.Item}

/-- Where a walk meets an item, just this is asked for, and there is no fault. -/
theorem FileSystem.Met.asks (h : fs.Met spot item) (root : Option String)
    (hdest : plainDestination dest = dest) (hway : ∀ name ∈ item.way, CanName name)
    (hfile : item.content.isSome → item.way ≠ []) :
    itemRequest fs root dest mode spot = [item.asked root dest mode] ∧
      itemFault fs root dest spot = none := by
  have hname := itemName_bytesOf hdest hway
  have hplace := treeEntry_itemPlace root hdest hway
  obtain ⟨m, hnode⟩ := h.node
  have hbelow : spot.below.reverse = item.way.map bytesOf := h.way
  unfold itemRequest itemFault Tree.Item.asked Tree.Item.request
  unfold Tree.Item.node at hnode
  rw [hbelow, hname, hnode, h.short]
  cases hcontent : item.content with
  | none =>
    dsimp only
    rw [hplace]
    exact ⟨rfl, rfl⟩
  | some bytes =>
    have hnamed : (itemPlace root dest item.way).isRoot = false := by
      have hne := hfile (by rw [hcontent]; rfl)
      simp [Placement.isRoot, itemPlace, hne]
    dsimp only
    rw [hplace, hnamed]
    exact ⟨rfl, rfl⟩

/-- Where a walk meets items, just these are asked for, and there is no fault. -/
theorem asks_of_met {spots : List Spot} {items : List Tree.Item} (h : List.Forall₂ fs.Met spots items)
    (root : Option String) (hdest : plainDestination dest = dest)
    (hitems : ∀ item ∈ items, (∀ name ∈ item.way, CanName name) ∧
      (item.content.isSome → item.way ≠ [])) :
    spots.flatMap (itemRequest fs root dest mode) = items.map (Tree.Item.asked root dest mode) ∧
      ∀ spot ∈ spots, itemFault fs root dest spot = none := by
  induction h with
  | nil => simp
  | @cons spot item spots items hmet _ ih =>
    obtain ⟨hitem, hitems⟩ := List.forall_mem_cons.1 hitems
    have hasks : itemRequest fs root dest mode spot = [item.asked root dest mode] ∧
        itemFault fs root dest spot = none := hmet.asks root hdest hitem.1 hitem.2
    obtain ⟨hrest, hfaults⟩ := ih hitems
    refine ⟨?_, List.forall_mem_cons.2 ⟨hasks.2, hfaults⟩⟩
    rw [List.flatMap_cons, hasks.1, hrest]
    rfl

end

namespace Builder

variable {b : Builder} {written : List Member}

/-! ## Members -/

/-- The member for an item of a tree. -/
def importedMember (b : Builder) (dest : String) (mode : Option UInt32) (item : Tree.Item) : Member :=
  match item.content with
  | none => b.directoryMember b.owner (itemPath b.root dest item.way)
  | some bytes =>
    { entry :=
        { name := itemPath b.root dest item.way
          kind := .file
          size := UInt64.ofNat bytes.length
          mode := mode.getD Kind.file.mode
          mtime := b.mtime
          owner := b.owner }
      content := bytes }

@[simp] theorem importedMember_name (b : Builder) (dest : String) (mode : Option UInt32)
    (item : Tree.Item) :
    (b.importedMember dest mode item).entry.name = itemPath b.root dest item.way := by
  unfold importedMember
  split
  · rfl
  · rfl

/-- Whether a name is that of no member, as far as this matters. -/
structure Fresh (b : Builder) (written : List Member) (name : String) : Prop where
  directories : name ∉ directoryNames written
  others : b.duplicates = .keepFirst → name ∉ otherNames written

theorem Fresh.append {name : String} (h : b.Fresh written name) {ms : List Member}
    (hms : ∀ m ∈ ms, m.entry.name ≠ name) : b.Fresh (written ++ ms) name := by
  constructor
  · rw [directoryNames_append, List.mem_append, not_or]
    refine ⟨h.directories, fun hin => ?_⟩
    obtain ⟨m, hm, -, hname⟩ := mem_directoryNames.1 hin
    exact hms m hm hname
  · intro hkeep
    rw [otherNames_append, List.mem_append, not_or]
    refine ⟨h.others hkeep, fun hin => ?_⟩
    obtain ⟨m, hm, -, hname⟩ := mem_otherNames.1 hin
    exact hms m hm hname

section
variable {dest : String} {mode : Option UInt32}

/-- What is stored for an item is its member. -/
theorem memberFor_request (hroot : PlainRoot b.root) (hdest : plainDestination dest = dest)
    {item : Tree.Item} (hfits : ∀ bytes, item.content = some bytes → bytes.length < UInt64.size) :
    b.memberFor (item.request dest mode) ((item.request dest mode).owner.getD b.owner)
      (itemPlace b.root dest item.way).name = b.importedMember dest mode item := by
  rw [name_itemPlace hroot hdest]
  unfold Tree.Item.request importedMember
  cases hcontent : item.content with
  | none => rfl
  | some bytes =>
    have hsize : (UInt64.ofNat bytes.length).toNat = bytes.length :=
      UInt64.toNat_ofNat_of_lt' (hfits bytes hcontent)
    have htake : (Reading.bytes { chunks := [bytes] }).take (UInt64.ofNat bytes.length).toNat = bytes := by
      rw [hsize]
      simp [Reading.bytes]
    exact congrArg (Member.mk _) htake

/-- An item of a tree adds its member, where its name is fresh and the directories on
    the way are there. -/
theorem added_item {item : Tree.Item} (hroot : PlainRoot b.root) (hdest : plainDestination dest = dest)
    (hfits : ∀ bytes, item.content = some bytes → bytes.length < UInt64.size)
    (hplace : (itemPlace b.root dest item.way).isRoot = false)
    (hup : ∀ a ∈ (itemPlace b.root dest item.way).ancestors, a ∈ directoryNames written)
    (hfresh : b.Fresh written (itemPath b.root dest item.way)) :
    b.added written (item.request dest mode) (itemPlace b.root dest item.way) =
      [b.importedMember dest mode item] := by
  have hmissing : b.missing (directoryNames written) (item.request dest mode)
      (itemPlace b.root dest item.way) = [] := by
    rw [missing, List.filter_eq_nil_iff.2 fun a ha => by simpa using hup a ha]
    rfl
  have htaken : ¬ b.Taken written (item.request dest mode).kind (itemPlace b.root dest item.way) := by
    rw [Taken, hplace, name_itemPlace hroot hdest]
    rintro (hroot' | hin | ⟨-, hkeep, hin⟩)
    · cases hroot'
    · exact hfresh.directories hin
    · exact hfresh.others hkeep hin
  rw [added, hmissing, placed, if_neg htaken, memberFor_request hroot hdest hfits]
  rfl

/-! ## Trees -/

/-- Above an item of a directory are that directory and what is above it. -/
theorem Leading.ancestors {root : Option String} {way : List String} {name : String}
    (h : Leading written (itemPlace root dest way)) :
    ∀ a ∈ (itemPlace root dest (way ++ [name])).ancestors, a ∈ directoryNames written := by
  have hsegs : (itemPlace root dest (way ++ [name])).segments =
      (itemPlace root dest way).segments ++ [name.toList] := by
    simp [itemPlace]
  intro a ha
  obtain ⟨n, hn, rfl⟩ := List.mem_map.1 ha
  obtain ⟨hlt, hpos, -⟩ := Placement.mem_ancestorLengths.1 hn
  rw [hsegs, List.length_append, List.length_singleton] at hlt
  rw [hsegs, List.take_append_of_le_length (by omega)]
  exact h n (by omega) (by omega)

/-- What is added has the name of the place, or of one above it. -/
theorem exists_upTo_of_mem_added {r : Request} {p : Placement} {m : Member}
    (h : m ∈ b.added written r p) : ∃ n, m.entry.name = (p.upTo n).name := by
  rcases List.mem_append.1 h with h | h
  · obtain ⟨a, ha, rfl⟩ := List.mem_map.1 h
    obtain ⟨n, hn, rfl⟩ := List.mem_map.1 (List.mem_filter.1 ha).1
    exact ⟨n, rfl⟩
  · unfold placed at h
    split at h
    · cases h
    · rw [List.mem_singleton.1 h]
      exact ⟨p.segments.length, congrArg Placement.name p.upTo_length.symm⟩

/-- What is further down than a directory has another name than that and all above
    it. -/
theorem name_upTo_ne {root : Option String} {way way' : List String}
    (hway : ∀ name ∈ way, CanName name) (hway' : ∀ name ∈ way', CanName name)
    (hlt : way.length < way'.length) (n : Nat) :
    ((itemPlace root dest way).upTo n).name ≠ (itemPlace root dest way').name := by
  intro he
  have hplace : (itemPlace root dest way).Plain := plain_itemPlace hway
  have hsegs := joined_injOn (hplace.upTo n) (plain_itemPlace hway') (String.ofList_injective he)
  have hlength := congrArg List.length hsegs
  simp only [Placement.upTo, itemPlace, List.length_take, List.length_append, List.length_map]
    at hlength
  omega

/-- **The items of a directory**, where each of them adds what it lists. -/
theorem adding_items {names : List String} {items : String → List Tree.Item} {p : Placement}
    (hitems : ∀ name ∈ names, ∀ written, Leading written p →
      (∀ item ∈ items name, b.Fresh written (itemPath b.root dest item.way)) →
      b.adding written ((items name).map (Tree.Item.asked b.root dest mode)) =
        written ++ (items name).map (b.importedMember dest mode))
    (hapart : names.Pairwise fun name name' => ∀ item ∈ items name, ∀ item' ∈ items name',
      itemPath b.root dest item.way ≠ itemPath b.root dest item'.way)
    (hlead : Leading written p)
    (hfresh : ∀ item ∈ names.flatMap items, b.Fresh written (itemPath b.root dest item.way)) :
    b.adding written ((names.flatMap items).map (Tree.Item.asked b.root dest mode)) =
      written ++ (names.flatMap items).map (b.importedMember dest mode) := by
  induction names generalizing written with
  | nil => exact (List.append_nil written).symm
  | cons name names ih =>
    obtain ⟨hfirst, hapart⟩ := List.pairwise_cons.1 hapart
    have hrest : ∀ other ∈ names, other ∈ name :: names := fun _ => List.mem_cons_of_mem _
    -- what the first name lists is apart from the rest, whose names stay fresh
    have hfreshRest : ∀ item ∈ names.flatMap items, b.Fresh
        (written ++ (items name).map (b.importedMember dest mode)) (itemPath b.root dest item.way) := by
      intro item hitem
      refine (hfresh item (List.mem_append_right _ hitem)).append fun m hm => ?_
      obtain ⟨before, hbefore, rfl⟩ := List.mem_map.1 hm
      obtain ⟨other, hother, hitem⟩ := List.mem_flatMap.1 hitem
      rw [importedMember_name]
      exact hfirst other hother before hbefore item hitem
    rw [List.flatMap_cons, List.map_append, adding_append, List.map_append,
      hitems name List.mem_cons_self written hlead fun item hitem =>
        hfresh item (List.mem_append_left _ hitem),
      ih (fun other hother => hitems other (hrest other hother)) hapart (hlead.append _) hfreshRest,
      List.append_assoc]

/-- The items under different names of a directory have different names. -/
theorem pairwise_itemPath (hroot : PlainRoot b.root) (hdest : plainDestination dest = dest)
    {names : List String} (ordered : names.Pairwise fun a b => bytesOf a < bytesOf b)
    (named : ∀ name ∈ names, CanName name) (items : String → Tree) {way : List String}
    (hway : ∀ name ∈ way, CanName name) :
    names.Pairwise fun name name' => ∀ item ∈ (items name).listing (way ++ [name]),
      ∀ item' ∈ (items name').listing (way ++ [name']),
        itemPath b.root dest item.way ≠ itemPath b.root dest item'.way := by
  have hchild : ∀ name ∈ names, ∀ other ∈ way ++ [name], CanName other :=
    fun name hname => List.forall_mem_append.2 ⟨hway, by simpa using named name hname⟩
  refine ordered.imp_of_mem ?_
  intro name name' hname hname' hlt item hitem item' hitem' he
  have hne : name ≠ name' := by
    rintro rfl
    exact List.lt_irrefl _ hlt
  exact Tree.way_ne_of_name_ne hne hitem hitem' (itemPath_injOn hroot hdest
    (Tree.canName_of_mem_listing (hchild name hname) hitem)
    (Tree.canName_of_mem_listing (hchild name' hname') hitem') he)

/-- Whether a tree adds its items, one member for each, where their names are fresh
    and the directories on the way are there. -/
def AddsListing (b : Builder) (dest : String) (mode : Option UInt32) (way : List String) (tree : Tree) :
    Prop :=
  ∀ written, (itemPlace b.root dest way).isRoot = false →
    (∀ a ∈ (itemPlace b.root dest way).ancestors, a ∈ directoryNames written) →
    (∀ item ∈ tree.listing way, b.Fresh written (itemPath b.root dest item.way)) →
    b.adding written ((tree.listing way).map (Tree.Item.asked b.root dest mode)) =
      written ++ (tree.listing way).map (b.importedMember dest mode)

section
variable {names : List String} {items : String → Tree} {way : List String}

/-- **The items in a directory** that is there are added where each of them adds what
    it lists. -/
theorem adding_inside (hroot : PlainRoot b.root) (hdest : plainDestination dest = dest)
    (ordered : names.Pairwise fun a b => bytesOf a < bytesOf b)
    (named : ∀ name ∈ names, CanName name) (hway : ∀ name ∈ way, CanName name)
    (hitems : ∀ name ∈ names, b.AddsListing dest mode (way ++ [name]) (items name))
    (hlead : Leading written (itemPlace b.root dest way))
    (hfresh : ∀ item ∈ Tree.inside way names items, b.Fresh written (itemPath b.root dest item.way)) :
    b.adding written ((Tree.inside way names items).map (Tree.Item.asked b.root dest mode)) =
      written ++ (Tree.inside way names items).map (b.importedMember dest mode) := by
  refine adding_items (fun name hname written hlead hfresh => ?_)
    (pairwise_itemPath hroot hdest ordered named items hway) hlead hfresh
  exact hitems name hname written (by simp [Placement.isRoot, itemPlace]) hlead.ancestors hfresh

/-- **A directory adds** what is missing of it and above it, and then what is in it. -/
theorem adding_directory (hroot : PlainRoot b.root) (hdest : plainDestination dest = dest)
    (ordered : names.Pairwise fun a b => bytesOf a < bytesOf b)
    (named : ∀ name ∈ names, CanName name) (hway : ∀ name ∈ way, CanName name)
    (hitems : ∀ name ∈ names, b.AddsListing dest mode (way ++ [name]) (items name))
    (hfresh : ∀ item ∈ Tree.inside way names items, b.Fresh written (itemPath b.root dest item.way)) :
    b.adding written (((Tree.directory names ordered named items).listing way).map
        (Tree.Item.asked b.root dest mode)) =
      written ++ b.added written (Tree.Item.request dest mode { way }) (itemPlace b.root dest way) ++
        (Tree.inside way names items).map (b.importedMember dest mode) := by
  refine adding_inside hroot hdest ordered named hway hitems (leading_added rfl rfl) ?_
  intro item hitem
  obtain ⟨hlt, hnames⟩ := Tree.way_of_mem_inside hway named hitem
  refine (hfresh item hitem).append fun m hm => ?_
  obtain ⟨n, hname⟩ := exists_upTo_of_mem_added hm
  rw [hname, ← name_itemPlace hroot hdest]
  exact name_upTo_ne hway hnames hlt n

end

/-- **A tree adds its items**, one member for each. -/
theorem adding_listing (hroot : PlainRoot b.root) (hdest : plainDestination dest = dest) (tree : Tree)
    {way : List String} (hway : ∀ name ∈ way, CanName name) : b.AddsListing dest mode way tree := by
  induction tree generalizing way with
  | file content fits =>
    intro written hplace hup hfresh
    have hitem : b.Fresh written (itemPath b.root dest way) := hfresh _ List.mem_cons_self
    have hfits : ∀ bytes, some content = some bytes → bytes.length < UInt64.size := by
      intro bytes heq
      cases heq
      exact fits
    have hadded : b.added written (Tree.Item.request dest mode { way, content := some content })
        (itemPlace b.root dest way) = [b.importedMember dest mode { way, content := some content }] :=
      added_item hroot hdest hfits hplace hup hitem
    exact congrArg (written ++ ·) hadded
  | directory names ordered named items ih =>
    intro written hplace hup hfresh
    have hitem : b.Fresh written (itemPath b.root dest way) := hfresh _ List.mem_cons_self
    have hadded : b.added written (Tree.Item.request dest mode { way }) (itemPlace b.root dest way) =
        [b.importedMember dest mode { way }] :=
      added_item hroot hdest (by simp) hplace hup hitem
    have hitems : ∀ name ∈ names, b.AddsListing dest mode (way ++ [name]) (items name) :=
      fun name hname => ih name (List.forall_mem_append.2 ⟨hway, by simpa using named name hname⟩)
    rw [adding_directory hroot hdest ordered named hway hitems fun item hitem =>
      hfresh item (List.mem_cons_of_mem _ hitem), hadded, List.append_assoc]
    rfl

/-! ## The top of a tree -/

/-- The directories on the way to a destination that are missing. -/
def missingAbove (b : Builder) (dest : String) : List Member :=
  ((upperNames (itemPath b.root dest [])).filter (· ∉ b.directories)).map (b.directoryMember b.owner)

theorem missing_top (hroot : PlainRoot b.root) (hdest : plainDestination dest = dest) (hb : b.Orderly) :
    b.missing (directoryNames b.members) (Tree.Item.request dest mode { way := [] })
      (itemPlace b.root dest []) = b.missingAbove dest := by
  have hplain : (itemPlace b.root dest []).Plain := plain_itemPlace (by simp)
  rw [missing, missingAbove, Placement.ancestors_eq_upperNames hplain rfl, name_itemPlace hroot hdest]
  simp only [hb.mem_directories]
  rfl

theorem placed_top (hroot : PlainRoot b.root) (hdest : plainDestination dest = dest)
    (hbased : b.Based (Placement.rootSegments b.root))
    (hfresh : dest ≠ "." → b.Fresh b.members (itemPath b.root dest [])) :
    b.placed b.members (Tree.Item.request dest mode { way := [] }) (itemPlace b.root dest []) =
      if dest = "." then [] else [b.importedMember dest mode { way := [] }] := by
  unfold placed
  by_cases hdot : dest = "."
  · have htaken : b.Taken b.members (Tree.Item.request dest mode { way := [] }).kind
        (itemPlace b.root dest []) := by
      have hsegs : (itemPlace b.root dest []).segments = Placement.rootSegments b.root := by
        rw [itemPlace, hdot, startSegments_dot]
        simp
      by_cases hempty : Placement.rootSegments b.root = []
      · exact .inl (by rw [Placement.isRoot, hsegs, hempty]; rfl)
      · have hwritten := hbased.written _ (List.length_pos_iff.2 hempty) (Nat.le_refl _)
        rw [List.take_length, ← hsegs] at hwritten
        exact .inr (.inl hwritten)
    rw [if_pos htaken, if_pos hdot]
  · have htaken : ¬ b.Taken b.members (Tree.Item.request dest mode { way := [] }).kind
        (itemPlace b.root dest []) := by
      rintro (hempty | hin | ⟨hk, -⟩)
      · have hstart := (startSegments_of_plain hdest hdot).1
        simp [Placement.isRoot, itemPlace, hstart] at hempty
      · rw [name_itemPlace hroot hdest] at hin
        exact (hfresh hdot).directories hin
      · exact hk rfl
    rw [if_neg htaken, if_neg hdot, memberFor_request hroot hdest (by simp)]

/-- **A whole tree adds** the directories on the way to it that are missing, and then
    its items. -/
theorem adding_tree (hroot : PlainRoot b.root) (hdest : plainDestination dest = dest)
    (hbased : b.Based (Placement.rootSegments b.root)) {names : List String}
    (ordered : names.Pairwise fun a b => bytesOf a < bytesOf b) (named : ∀ name ∈ names, CanName name)
    (items : String → Tree)
    (hfresh : ∀ item ∈ (Tree.directory names ordered named items).storedItems dest,
      b.Fresh b.members (itemPath b.root dest item.way)) :
    b.adding b.members (((Tree.directory names ordered named items).listing []).map
        (Tree.Item.asked b.root dest mode)) =
      b.members ++ b.missingAbove dest ++
        ((Tree.directory names ordered named items).storedItems dest).map (b.importedMember dest mode) := by
  have hstored : (Tree.directory names ordered named items).storedItems dest = _ :=
    Tree.storedItems_directory ordered named items
  have htop : dest ≠ "." → b.Fresh b.members (itemPath b.root dest []) := by
    intro hdot
    refine hfresh { way := [] } ?_
    rw [hstored, if_neg hdot]
    exact List.mem_cons_self
  have hinside : ∀ item ∈ Tree.inside [] names items, b.Fresh b.members (itemPath b.root dest item.way) :=
    fun item hitem => hfresh item (hstored ▸ List.mem_append_right _ hitem)
  have hitems : ∀ name ∈ names, b.AddsListing dest mode ([] ++ [name]) (items name) :=
    fun name hname => adding_listing hroot hdest (items name) (by simpa using named name hname)
  have hadded : b.added b.members (Tree.Item.request dest mode { way := [] }) (itemPlace b.root dest []) =
      b.missingAbove dest ++ if dest = "." then [] else [b.importedMember dest mode { way := [] }] := by
    rw [added, missing_top hroot hdest hbased.orderly, placed_top hroot hdest hbased htop]
  rw [adding_directory hroot hdest ordered named (by simp) hitems hinside, hadded, hstored,
    List.map_append]
  split
  · simp
  · simp

end

/-! ## Imports -/

section
variable {o : Options} {sink : Sink} {begun : Builder} {fs : FileSystem} {dest : String}
  {mode : Option UInt32}

/-- A root directory is read under its own name unless that begins with a dot. -/
theorem plainRoot_of_start (h : start o sink = .ok () begun)
    (hroot : ∀ r, begun.root = some r → ¬ (r = "." ∨ IsAbove "." r)) : PlainRoot begun.root := by
  intro r hr
  obtain ⟨segs, hne, hplain, rfl⟩ := exists_segments_of_root h hr
  have hread : Placement.rootSegments begun.root = segs := by
    rw [hr, Placement.rootSegments, String.toList_ofList]
    exact segments_joined hplain fun hdot => hroot _ hr ((head?_eq_dot_iff hplain).1 hdot)
  rw [hread]
  exact ⟨hne, rfl⟩

/-- A name that nothing was written under, or tried to be. -/
structure Unused (b : Builder) (name : String) : Prop where
  directories : name ∉ b.directories
  claimed : name ∉ b.claimed

theorem Unused.fresh {lost : String → Prop} {b : Builder} {name : String} (h : b.Unused name)
    (hb : b.Unhindered lost) : b.Fresh b.members name where
  directories hin := h.directories (hb.orderly.mem_directories.2 hin)
  others hkeep hin := h.claimed (((hb.claims hkeep).claimed name).2 (.inl hin))

theorem root_after (b : Builder) (history : List (FileSystem × Step)) :
    (b.after history).root = b.root := by
  induction history generalizing b with
  | nil => rfl
  | cons x history ih => exact (ih _).trans (x.2.does x.1 b).root

/-- An open archive with a sink that takes everything has nothing in its way but the
    names that were claimed in vain. -/
theorem unhindered_after {b : Builder} {history : List (FileSystem × Step)}
    (hstart : start o sink = .ok () begun) (hnow : begun.after history = b)
    (hopen : b.isOpen) (hroom : b.sink.room = none) (howner : b.owner.fault = none) :
    b.Unhindered fun name => name ∈ b.claimed ∧ name ∉ otherNames b.members where
  orderly := hnow ▸ orderly_after (start_adds hstart).tallied.orderly history
  claims hkeep := by
    have hkeep₀ : begun.duplicates = .keepFirst := by
      rw [← duplicates_after begun history, hnow, hkeep]
    have hclaims : b.Claims (begun.Spoiled history) := by
      have hkeep' : o.duplicates = .keepFirst := (start_adds hstart).like.duplicates.symm.trans hkeep₀
      exact hnow ▸ claims_after hkeep₀ (claims_start hkeep' hstart) history
    refine ⟨fun name => ⟨fun hin => ?_, ?_⟩, fun name hlost => hlost.2⟩
    · by_cases hother : name ∈ otherNames b.members
      · exact .inl hother
      · exact .inr ⟨hin, hother⟩
    · rintro (hother | hlost)
      · exact (hclaims.claimed name).2 (.inl hother)
      · exact hlost.1
  room := hroom
  isOpen := hopen
  owner := howner

/-- What an item of a tree asks for has no name that was claimed, unless it is a
    directory. -/
theorem name_notMem_claimed {b : Builder} {items : List Tree.Item} (hroot : PlainRoot b.root)
    (hdest : plainDestination dest = dest)
    (hunused : ∀ item ∈ items, dest ≠ "." ∨ item.way ≠ [] → b.Unused (itemPath b.root dest item.way))
    (htop : ∀ item ∈ items, item.content.isSome → item.way ≠ []) :
    ∀ a ∈ items.map (Tree.Item.asked b.root dest mode), a.request.kind ≠ .directory →
      a.place.name ∉ b.claimed := by
  intro a ha hk
  obtain ⟨item, hitem, rfl⟩ := List.mem_map.1 ha
  have hsome : item.content.isSome := by
    cases hcontent : item.content with
    | none =>
      refine absurd ?_ hk
      rw [Tree.Item.asked, Tree.Item.request, hcontent]
      rfl
    | some bytes => rfl
  rw [Tree.Item.asked, name_itemPlace hroot hdest]
  exact (hunused item hitem (.inr (htop item hitem hsome))).claimed

/-- An import asks for the items of the tree, one after the other. -/
theorem importTree_comes_listing {lost : String → Prop} {b : Builder} {source : Bytes} {tree : Tree}
    (hb : b.Unhindered lost) (hdest : plainDestination dest = dest) (hsource : fs.LeadsTo source tree)
    (hdir : fs.isDirectory source) (hdeep : ∀ item ∈ tree.listing [], item.content = none →
      item.way.length < FileSystem.levelLimit)
    (happart : fs.Apart b.sink.place source)
    (htop : ∀ item ∈ tree.listing [], item.content.isSome → item.way ≠ [])
    (hlost : ∀ a ∈ (tree.listing []).map (Tree.Item.asked b.root dest mode),
      a.request.kind ≠ .directory → ¬ lost a.place.name) :
    Comes lost ((tree.listing []).map (Tree.Item.asked b.root dest mode)) none
      (importTree fs dest source mode) b := by
  obtain ⟨walk, hwalk, hlists⟩ := hsource.exists_walk hdir hdeep
  have hitems : ∀ item ∈ tree.listing [], (∀ name ∈ item.way, CanName name) ∧
      (item.content.isSome → item.way ≠ []) :=
    fun item hitem => ⟨Tree.canName_of_mem_listing (by simp) hitem, htop item hitem⟩
  have hmet : walk.spots.flatMap (itemRequest fs b.root dest mode) =
        (tree.listing []).map (Tree.Item.asked b.root dest mode) ∧
      ∀ spot ∈ walk.spots, itemFault fs b.root dest spot = none :=
    asks_of_met hlists.spots b.root hdest hitems
  have hfault : walkFault fs b.root dest walk = none := by
    rw [walkFault, List.findSome?_eq_none_iff.2 hmet.2, hlists.halt]
    rfl
  have hasked : walkAsked fs b.root dest mode walk =
      (tree.listing []).map (Tree.Item.asked b.root dest mode) := by
    rw [walkAsked, askedUpTo_of_forall hmet.2, flatMap_itemAsked hmet.2, hmet.1]
  rw [← hasked, ← hfault]
  refine importTree_comes hb happart hdir hwalk fun spot hspot a ha => hlost a ?_
  rw [← hmet.1]
  exact List.mem_flatMap.2 ⟨spot, hspot, ha⟩

/-- **A tree is imported completely and in order**: the directories on the way to it
    that are missing, and then one member for each of its items, the top only if it
    has a name of its own.  The sink gains these members and nothing else. -/
theorem importTree_complete {b : Builder} {history : List (FileSystem × Step)} {source : Bytes}
    {tree : Tree} (hstart : start o sink = .ok () begun) (hnow : begun.after history = b)
    (hopen : b.isOpen) (hroom : b.sink.room = none) (howner : b.owner.fault = none)
    (hroot : ∀ r, b.root = some r → ¬ (r = "." ∨ IsAbove "." r))
    (hdest : plainDestination dest = dest) (hsource : fs.LeadsTo source tree)
    (hdir : fs.isDirectory source) (hdeep : ∀ item ∈ tree.listing [], item.content = none →
      item.way.length < FileSystem.levelLimit)
    (happart : fs.Apart b.sink.place source)
    (hunused : ∀ item ∈ tree.storedItems dest, b.Unused (itemPath b.root dest item.way)) :
    let added := b.missingAbove dest ++ (tree.storedItems dest).map (b.importedMember dest mode)
    ∃ b', importTree fs dest source mode b = .ok () b' ∧ b'.members = b.members ++ added ∧
      b'.sink.contents = b.sink.contents ++ added.flatMap Member.encode := by
  intro added
  have hb := unhindered_after hstart hnow hopen hroom howner
  have hrootSame : b.root = begun.root := hnow ▸ root_after begun history
  have hplain : PlainRoot b.root := by
    rw [hrootSame] at hroot ⊢
    exact plainRoot_of_start hstart hroot
  have hbased : b.Based (Placement.rootSegments b.root) := by
    rw [hrootSame, ← hnow]
    exact (based_start hstart).after history
  cases tree with
  | file content fits =>
    rw [hsource.isDirectory_of_file] at hdir
    cases hdir
  | directory names ordered named items =>
    have htop : ∀ item ∈ (Tree.directory names ordered named items).listing [],
        item.content.isSome → item.way ≠ [] := fun item => Tree.way_ne_of_isSome
    have hown : ∀ item ∈ (Tree.directory names ordered named items).listing [],
        dest ≠ "." ∨ item.way ≠ [] → b.Unused (itemPath b.root dest item.way) :=
      fun item hitem hown => hunused item (List.mem_filter.2 ⟨hitem, by simpa using hown⟩)
    obtain ⟨b', hrun, hreach⟩ := importTree_comes_listing (b := b) hb hdest hsource hdir hdeep happart htop
      fun a ha hk hlost => name_notMem_claimed hplain hdest hown htop a ha hk hlost.1
    have hmembers : b'.members = b.members ++ added := by
      rw [hreach.members, adding_tree hplain hdest hbased ordered named items
        fun item hitem => (hunused item hitem).fresh hb, List.append_assoc]
    -- the sink gains whatever the members gain
    obtain ⟨-, ms, hnew, hcontents, -⟩ := hreach.moves.grows hroom hreach.unhindered.isOpen
    obtain rfl : ms = added := List.append_cancel_left (hnew.symm.trans hmembers)
    exact ⟨b', hrun, hmembers, hcontents⟩

end

/-! ## A directory with one file -/

/-- A directory with one file. -/
def oneFile : FileSystem where
  items := [([bytesOf "t"], .directory 0o755),
    ([bytesOf "abcd", bytesOf "t"], .file 0o644 (bytesOf "x"))]
  distinct := by decide

/-- What it shows. -/
def oneTree : Tree :=
  .directory ["abcd"] (List.pairwise_singleton _ _) (by simpa using ⟨⟨by decide, by decide⟩, by decide⟩)
    fun _ => .file (bytesOf "x") (by decide)

/-- The directory, as a walk by a path comes to it. -/
def oneSpot (path : Bytes) : Spot := { location := [bytesOf "t"], path, links := 40 }

/-- The file in it. -/
def oneSpotBelow (path : Bytes) : Spot :=
  (oneSpot path).child (bytesOf "abcd") [bytesOf "abcd", bytesOf "t"] 40

/-- A walk by a path to the directory. -/
def oneWalk (path : Bytes) : Walk := { spots := [oneSpot path, oneSpotBelow path] }

theorem enter_oneSpot {path : Bytes} :
    oneFile.enter (oneSpot path) (bytesOf "abcd") = .ok (oneSpotBelow path) := by
  have hlink : oneFile.isLinkAt [bytesOf "abcd", bytesOf "t"] = false := by decide
  have hfollow : oneFile.follow 40 [bytesOf "t"] [bytesOf "abcd"] =
      .ok ([bytesOf "abcd", bytesOf "t"], 40) := by decide
  exact FileSystem.enter_ok_iff.2 ⟨by rw [oneSpot, hlink]; rfl, _, hfollow, rfl⟩

/-- By any path that is short enough the walk comes to the directory and to the file
    in it. -/
theorem walk_oneFile {path : Bytes} (hpath : oneFile.resolveLinks path = .ok ([bytesOf "t"], 40))
    (hshort : FileSystem.isTooLong path = false) :
    oneFile.walk path = .ok (oneWalk path) := by
  have hnames : oneFile.names [bytesOf "t"] = [bytesOf "abcd"] := by decide
  have hleaf : oneFile.isDirectoryAt [bytesOf "abcd", bytesOf "t"] = false := by decide
  exact FileSystem.walk_of_leaves hpath hshort hnames (List.pairwise_singleton _ _)
    (.cons ⟨enter_oneSpot, hleaf⟩ .nil)

theorem leadsTo_oneTree : oneFile.LeadsTo (bytesOf "t") oneTree := by
  have hnames : oneFile.names [bytesOf "t"] = [bytesOf "abcd"] := by decide
  refine ⟨[bytesOf "t"], 40, by decide, .directory (m := 0o755) (by decide) (by decide) ?_ ?_ ?_⟩
  · intro name
    rw [hnames]
    rfl
  · intro name hname
    obtain rfl := List.mem_singleton.1 hname
    exact ⟨_, enter_oneSpot⟩
  · intro name c hname hc
    obtain rfl := List.mem_singleton.1 hname
    obtain rfl := Except.ok.inj (enter_oneSpot.symm.trans hc)
    exact .file (m := 0o644) (by decide) (by decide)

theorem importTree_complete_oneFile : ∃ b', importTree oneFile "p" (bytesOf "t") none (opened {} {}) =
    .ok () b' ∧ b'.members.map (·.entry.name) = ["p", "p/abcd"] := by
  have hstart : start {} {} = .ok () (opened {} {}) := Outcome.ofResult_succeeds (by decide)
  have hnow : (opened {} {}).after [] = opened {} {} := rfl
  have hroot : ∀ r, (opened {} {}).root = some r → ¬ (r = "." ∨ IsAbove "." r) := by
    intro r hr
    cases hr
  have hdest : plainDestination "p" = "p" := by decide
  have hdeep : ∀ item ∈ oneTree.listing [], item.content = none →
      item.way.length < FileSystem.levelLimit := by decide
  have hunused : ∀ item ∈ oneTree.storedItems "p",
      (opened {} {}).Unused (itemPath (opened {} {}).root "p" item.way) :=
    fun _ _ => ⟨List.not_mem_nil, List.not_mem_nil⟩
  obtain ⟨b', hrun, hmembers, -⟩ := importTree_complete hstart hnow rfl rfl (by decide) hroot hdest
    leadsTo_oneTree (by decide) hdeep (FileSystem.apart_none _ _) hunused
  refine ⟨b', hrun, ?_⟩
  rw [hmembers]
  decide

end Builder

namespace FileSystem

/-- A path after any number of `./`. -/
def dotted (n : Nat) (path : Bytes) : Bytes :=
  (List.replicate n (dotName ++ [slashByte])).flatten ++ path

theorem pathNames_dotted (n : Nat) (path : Bytes) :
    pathNames (dotted n path) = List.replicate n dotName ++ pathNames path := by
  induction n with
  | zero => rfl
  | succ n ih =>
    have hfirst : dotted (n + 1) path = dotName ++ slashByte :: dotted n path := by
      simp [dotted, List.replicate_succ]
    have hdot : dotName.splitOn slashByte = [dotName] := by decide
    rw [hfirst, pathNames, List.splitOn_append_cons_self, hdot, List.replicate_succ]
    exact congrArg (dotName :: ·) ih

theorem follow_dots {fs : FileSystem} {links : Nat} {here : Location} {m : UInt32}
    (hdir : fs.node? here = some (.directory m)) (n : Nat) (names : List Bytes) :
    fs.follow links here (List.replicate n dotName ++ names) = fs.follow links here names := by
  induction n with
  | zero => rfl
  | succ n ih =>
    rw [List.replicate_succ, List.cons_append, follow_place (stride_stay hdir (.inr rfl)), ih]

end FileSystem

namespace Builder

/-- The way to the directory, with so many dots that the file in it can be listed but
    not be opened. -/
def longWay : Bytes := FileSystem.dotted 2045 (bytesOf "t")

theorem resolveLinks_longWay : oneFile.resolveLinks longWay = .ok ([bytesOf "t"], 40) := by
  have hnul : 0 ∉ longWay := by decide +kernel
  have hshort : FileSystem.isTooLong longWay = false := by decide +kernel
  have hne : longWay ≠ [] := by decide
  have hdir : oneFile.node? [] = some (.directory Node.directoryMode) := by decide
  have hstart : FileSystem.start oneFile.workingDirectory longWay = [] := by decide
  have hnames : pathNames longWay = List.replicate 2045 dotName ++ pathNames (bytesOf "t") :=
    FileSystem.pathNames_dotted 2045 (bytesOf "t")
  have hend : oneFile.follow FileSystem.maxLinks [] (pathNames (bytesOf "t")) =
      .ok ([bytesOf "t"], 40) := by decide
  -- the dots are too many to be followed one by one
  rw [FileSystem.resolveLinks, if_neg hnul, hshort, if_neg Bool.false_ne_true, if_neg hne, hstart,
    hnames, FileSystem.follow_dots hdir, hend]
  rfl

theorem walk_longWay : oneFile.walk longWay = .ok (oneWalk longWay) :=
  walk_oneFile resolveLinks_longWay (by decide +kernel)

/-- A tree is not imported where the path to one of its files is too long, though
    the path to the tree is not. -/
theorem longWay_refused : start {} {} = .ok () (opened {} {}) ∧ plainDestination "p" = "p" ∧
    oneFile.LeadsTo (bytesOf "t") oneTree ∧ oneFile.resolve longWay = oneFile.resolve (bytesOf "t") ∧
    (Outcome.ofResult (importTree oneFile "p" longWay none (opened {} {}))).failure =
      some (.system .nameTooLong) := by
  have hdir : oneFile.isDirectory longWay :=
    FileSystem.isDirectory_iff.2 ⟨_, resolveLinks_longWay, by decide⟩
  refine ⟨Outcome.ofResult_succeeds (by decide), by decide, leadsTo_oneTree, ?_, ?_⟩
  · have hshort : oneFile.resolveLinks (bytesOf "t") = .ok ([bytesOf "t"], 40) := by decide
    rw [FileSystem.resolve, FileSystem.resolve, resolveLinks_longWay, hshort]
  · rw [importTree_eq_of_walk "p" none hdir walk_longWay]
    decide +kernel

end Builder

end Tarball
