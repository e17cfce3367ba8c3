/-
  Archives that nothing stands in the way of.

  As long as an archive is open, its sink takes everything and its owner fits a
  header, additions fail for few reasons, all of which can be told before
  anything is written: there is no name, or what is to be added cannot be found.
  Whatever has been asked for before such a fault is in the archive then, and
  nothing else.

  * `Builder.Unhindered` is such an archive;
  * `Builder.Comes` says of a step what it adds and with which fault it ends, if
    with any (`Builder.Comes.forM`: of steps one after the other);
  * `fileFault` and `itemFault` are the faults of a file and of an item of a tree,
    `walkFault` that of a whole tree;
  * `Builder.importTree_comes` and `Builder.importFile_comes`: what comes of an
    import.
-/
import Tarball.Proofs.FirstOfName

namespace Tarball

/-- A request that leaves the owner to the archive, and for which there is as much
    content as is announced. -/
structure Request.Filled (r : Request) : Prop where
  owner : r.owner = none
  content : r.stored.size.toNat ≤ r.stored.reading.bytes.length

theorem Request.filled_directory (name : String) : (directory name).Filled := ⟨rfl, Nat.le_refl _⟩

theorem Request.filled_symlink (name target : String) : (symlink name target).Filled :=
  ⟨rfl, Nat.le_refl _⟩

theorem Builder.filled_storedFile (name : String) {content : Content} (mode : Option UInt32)
    (h : content.size.toNat ≤ content.reading.bytes.length) :
    (storedFile name content mode).Filled :=
  ⟨rfl, h⟩

theorem Builder.storedFile_ne_directory (name : String) (content : Content) (mode : Option UInt32) :
    (storedFile name content mode).kind ≠ .directory := by
  simp [storedFile, Request.file]

namespace Builder

/-! ## Additions that succeed -/

section
variable {b : Builder}

theorem store_succeeds {e : Entry} {content : Reading} (hroom : b.sink.room = none)
    (howner : e.owner.fault = none) (hsize : e.size.toNat ≤ content.bytes.length) :
    ∃ b', store e content b = .ok () b' ∧ b'.sink.room = none ∧ b'.isOpen = b.isOpen := by
  obtain ⟨s, hwrite, hs, -⟩ := Entry.write_of_le hroom howner hsize
  refine ⟨record ⟨e, content.bytes.take e.size.toNat⟩ { b with sink := s }, ?_, hs, rfl⟩
  rw [store_eq, hwrite]

theorem backfill_succeeds {owner : Owner} (howner : owner.fault = none) (names : List String)
    (hroom : b.sink.room = none) :
    ∃ b', names.forM (addMissing owner) b = .ok () b' ∧ b'.sink.room = none ∧
      b'.isOpen = b.isOpen := by
  induction names generalizing b with
  | nil => exact ⟨b, rfl, hroom, rfl⟩
  | cons name names ih =>
    obtain ⟨b₁, h₁, hroom₁, hopen₁⟩ : ∃ b₁, addMissing owner name b = .ok () b₁ ∧
        b₁.sink.room = none ∧ b₁.isOpen = b.isOpen := by
      rw [addMissing_eq]
      split
      · exact ⟨b, rfl, hroom, rfl⟩
      · exact store_succeeds hroom howner (Nat.zero_le _)
    obtain ⟨b₂, h₂, hroom₂, hopen₂⟩ := ih hroom₁
    exact ⟨b₂, bind_eq_ok.2 ⟨(), b₁, h₁, h₂⟩, hroom₂, hopen₂.trans hopen₁⟩

theorem settle_succeeds {r : Request} {owner : Owner} {p : Placement} (howner : owner.fault = none)
    (hsize : r.stored.size.toNat ≤ r.stored.reading.bytes.length)
    (hname : p.isRoot → r.kind = .directory) (hroom : b.sink.room = none) :
    ∃ b', settle r owner p b = .ok () b' ∧ b'.sink.room = none ∧ b'.isOpen = b.isOpen := by
  unfold settle
  split
  · next hroot => exact ⟨b, if_pos (hname hroot), hroom, rfl⟩
  split
  · exact ⟨b, rfl, hroom, rfl⟩
  split
  · exact store_succeeds hroom howner hsize
  split
  · exact ⟨_, rfl, hroom, rfl⟩
  · exact store_succeeds (b := { b with claimed := p.name :: b.claimed }) hroom howner hsize

/-- An addition that does not lack a name succeeds. -/
theorem addAt_succeeds {r : Request} {p : Placement} (ho : b.isOpen)
    (howner : (r.owner.getD b.owner).fault = none)
    (hsize : r.stored.size.toNat ≤ r.stored.reading.bytes.length)
    (hname : p.isRoot → r.kind = .directory) (hroom : b.sink.room = none) :
    ∃ b', addAt r p b = .ok () b' ∧ b'.sink.room = none ∧ b'.isOpen := by
  obtain ⟨b₁, hfill, hroom₁, hopen₁⟩ := backfill_succeeds howner p.ancestors hroom
  obtain ⟨b₂, hsettle, hroom₂, hopen₂⟩ := settle_succeeds howner hsize hname hroom₁
  refine ⟨b₂, ?_, hroom₂, by rw [hopen₂, hopen₁, ho]⟩
  rw [addAt_eq, if_pos ho]
  exact bind_eq_ok.2 ⟨(), b₁, hfill, hsettle⟩

/-- What has no name is refused at once. -/
theorem addAt_of_isRoot {r : Request} {p : Placement} (ho : b.isOpen) (hroot : p.isRoot)
    (hk : r.kind ≠ .directory) : addAt r p b = .error (.nameless r.name r.kind) b := by
  have hnone : p.ancestors = [] := by
    have hsegs : p.segments = [] := by simpa [Placement.isRoot] using hroot
    simp [Placement.ancestors, Placement.ancestorLengths, hsegs]
  rw [addAt_eq, if_pos ho, hnone]
  show settle r _ p b = _
  rw [settle, if_pos hroot, if_neg hk]

end

/-! ## Nothing in the way -/

/-- An open archive with a sink that takes everything and an owner that fits a
    header.  Of the names claimed all but the lost ones are those of members. -/
structure Unhindered (lost : String → Prop) (b : Builder) : Prop where
  orderly : b.Orderly
  claims : b.duplicates = .keepFirst → b.Claims lost
  room : b.sink.room = none
  isOpen : b.isOpen
  owner : b.owner.fault = none

/-- From one builder to another, by all that is asked for and nothing else, with
    nothing in the way afterwards. -/
structure Reaches (lost : String → Prop) (asked : List Asked) (b b' : Builder) : Prop
    extends Gains asked b b' where
  moves : Moves (fun _ => True) b b'
  unhindered : b'.Unhindered lost

/-- How a step ends, with a fault or without. -/
def ending {ε : Type} (fault : Option ε) (b : Builder) : EStateM.Result ε Builder Unit :=
  match fault with
  | none => .ok () b
  | some e => .error e b

/-- What comes of a step: it adds what is asked for, and ends with a fault or
    without. -/
def Comes {ε : Type} (lost : String → Prop) (asked : List Asked) (fault : Option ε)
    (act : EStateM ε Builder Unit) (b : Builder) : Prop :=
  ∃ b', act b = ending fault b' ∧ Reaches lost asked b b'

/-- What is asked for where there is no fault. -/
def askedUnless {ε : Type} (fault : Option ε) (asked : List Asked) : List Asked :=
  if fault.isSome then [] else asked

@[simp] theorem askedUnless_none {ε : Type} (asked : List Asked) :
    askedUnless (none : Option ε) asked = asked :=
  rfl

@[simp] theorem askedUnless_some {ε : Type} (e : ε) (asked : List Asked) :
    askedUnless (some e) asked = [] :=
  rfl

theorem askedUnless_nil {ε : Type} (fault : Option ε) : askedUnless fault [] = [] :=
  ite_self []

/-- What items ask for, up to the first one with a fault. -/
def askedUpTo {ε ι : Type} (fault : ι → Option ε) (asked : ι → List Asked) : List ι → List Asked
  | [] => []
  | i :: rest => asked i ++ askedUnless (fault i) (askedUpTo fault asked rest)

theorem askedUpTo_of_forall {ε ι : Type} {fault : ι → Option ε} {asked : ι → List Asked}
    {l : List ι} (h : ∀ i ∈ l, fault i = none) : askedUpTo fault asked l = l.flatMap asked := by
  induction l with
  | nil => rfl
  | cons i l ih =>
    have hrest := ih fun j hj => h j (List.mem_cons_of_mem _ hj)
    rw [askedUpTo, h i List.mem_cons_self, askedUnless_none, hrest, List.flatMap_cons]

/-- Items without a fault, and one with a fault after them. -/
theorem askedUpTo_append {ε ι : Type} {fault : ι → Option ε} {asked : ι → List Asked}
    {before after : List ι} {i : ι} {e : ε} (h : ∀ j ∈ before, fault j = none)
    (hi : fault i = some e) :
    askedUpTo fault asked (before ++ i :: after) = (before ++ [i]).flatMap asked := by
  induction before with
  | nil => simp [askedUpTo, hi]
  | cons j before ih =>
    have hrest := ih fun k hk => h k (List.mem_cons_of_mem _ hk)
    rw [List.cons_append, askedUpTo, h j List.mem_cons_self, askedUnless_none, hrest,
      List.cons_append, List.flatMap_cons]

section
variable {ε : Type} {lost : String → Prop} {asked more : List Asked} {b b' b'' : Builder}

theorem Reaches.refl (hb : b.Unhindered lost) : Reaches lost [] b b :=
  ⟨.refl b, .refl, hb⟩

theorem Reaches.trans (h : Reaches lost asked b b') (h' : Reaches lost more b' b'') :
    Reaches lost (asked ++ more) b b'' :=
  ⟨h.toGains.trans h'.toGains, h.moves.trans h'.moves, h'.unhindered⟩

theorem Comes.of_ok {act : EStateM ε Builder Unit} (hact : act b = .ok () b')
    (h : Reaches lost asked b b') : Comes lost asked none act b :=
  ⟨b', hact, h⟩

theorem Comes.of_error {act : EStateM ε Builder Unit} {e : ε} (hb : b.Unhindered lost)
    (hact : act b = .error e b) : Comes lost [] (some e) act b :=
  ⟨b, hact, .refl hb⟩

/-- One step and, unless it has a fault, another one after it. -/
theorem Comes.bind {x : EStateM ε Builder Unit} {f : Unit → EStateM ε Builder Unit}
    {fault fault' : Option ε} (hx : Comes lost asked fault x b)
    (hf : ∀ b', b'.Unhindered lost → b'.Like b → Comes lost more fault' (f ()) b') :
    Comes lost (asked ++ askedUnless fault more) (fault.or fault') (x >>= f) b := by
  obtain ⟨b₁, hrun, hreach⟩ := hx
  cases fault with
  | none =>
    obtain ⟨b₂, hrun', hreach'⟩ := hf b₁ hreach.unhindered hreach.like
    exact ⟨b₂, (bind_of_ok hrun).trans hrun', hreach.trans hreach'⟩
  | some e =>
    refine ⟨b₁, bind_of_error hrun, ?_⟩
    rw [askedUnless_some, List.append_nil]
    exact hreach

/-- **Steps one after the other**, for as long as there is no fault. -/
theorem Comes.forM {ι : Type} {f : ι → EStateM ε Builder Unit} {asked : ι → List Asked}
    {fault : ι → Option ε} {l : List ι} (hb : b.Unhindered lost)
    (hf : ∀ i ∈ l, ∀ b', b'.Unhindered lost → b'.Like b → Comes lost (asked i) (fault i) (f i) b') :
    Comes lost (askedUpTo fault asked l) (l.findSome? fault) (l.forM f) b := by
  induction l generalizing b with
  | nil => exact .of_ok rfl (.refl hb)
  | cons i l ih =>
    have hrest : ∀ b', b'.Unhindered lost → b'.Like b →
        Comes lost (askedUpTo fault asked l) (l.findSome? fault) (l.forM f) b' := by
      intro b' hb' hlike
      refine ih hb' fun j hj b'' hb'' hlike' => ?_
      exact hf j (List.mem_cons_of_mem _ hj) b'' hb'' (hlike'.trans hlike)
    have hall := Comes.bind (f := fun _ => l.forM f) (hf i List.mem_cons_self b hb (.refl b)) hrest
    rw [List.findSome?_cons]
    cases hi : fault i with
    | none => rw [hi] at hall; rw [askedUpTo, hi]; exact hall
    | some e => rw [hi] at hall; rw [askedUpTo, hi]; exact hall

/-- **An addition** that does not lack a name adds what it asks for. -/
theorem addAt_comes {r : Request} {p : Placement} (hb : b.Unhindered lost) (hr : r.Filled)
    (hp : p.Plain) (hlost : r.kind ≠ .directory → ¬ lost p.name) :
    let fault := if p.isRoot ∧ r.kind ≠ .directory then some (Cause.nameless r.name r.kind) else none
    Comes lost (askedUnless fault [⟨r, p⟩]) fault (addAt r p) b := by
  intro fault
  by_cases hname : p.isRoot ∧ r.kind ≠ .directory
  · have hfault : fault = some (.nameless r.name r.kind) := if_pos hname
    rw [hfault]
    exact .of_error hb (addAt_of_isRoot hb.isOpen hname.1 hname.2)
  · have hfault : fault = none := if_neg hname
    rw [hfault]
    have howner : (r.owner.getD b.owner).fault = none := by rw [hr.owner]; exact hb.owner
    have hdirectory : p.isRoot → r.kind = .directory :=
      fun hroot => Decidable.not_not.1 fun hk => hname ⟨hroot, hk⟩
    obtain ⟨b₂, hadd, hroom₂, hopen₂⟩ :=
      addAt_succeeds hb.isOpen howner hr.content hdirectory hb.room
    have hdoes : Does (fun _ => True) (addAt r p) b := addAt_does (fun _ => trivial) r b
    have hmoves : Moves _ b b₂ := hdoes.ok hadd
    have hclaimed : r.kind ≠ .directory → b.duplicates = .keepFirst →
        (p.name ∈ b.claimed ↔ p.name ∈ otherNames b.members) := by
      intro hk hkeep
      rw [(hb.claims hkeep).claimed, or_iff_left (hlost hk)]
    refine .of_ok hadd ⟨⟨addAt_added hp hb.orderly hclaimed hadd, hmoves.like⟩, hmoves, ?_⟩
    refine ⟨hmoves.orderly hb.orderly, fun hkeep => ?_, hroom₂, hopen₂, ?_⟩
    · have hkeep : b.duplicates = .keepFirst := hmoves.like.duplicates.symm.trans hkeep
      exact hmoves.claims hkeep (hb.claims hkeep)
    · rw [hmoves.like.owner]
      exact hb.owner

theorem addAt_comes_directory {r : Request} {p : Placement} (hb : b.Unhindered lost)
    (hr : r.Filled) (hk : r.kind = .directory) (hp : p.Plain) :
    Comes lost [⟨r, p⟩] (none : Option Cause) (addAt r p) b := by
  have hadd := addAt_comes hb hr hp (absurd hk)
  rw [if_neg fun h => h.2 hk] at hadd
  exact hadd

theorem addAt_comes_other {r : Request} {p : Placement} (hb : b.Unhindered lost) (hr : r.Filled)
    (hk : r.kind ≠ .directory) (hp : p.Plain) (hlost : ¬ lost p.name) :
    let fault := if p.isRoot then some (Cause.nameless r.name r.kind) else none
    Comes lost (askedUnless fault [⟨r, p⟩]) fault (addAt r p) b := by
  have hadd := addAt_comes hb hr hp fun _ => hlost
  simp only [hk, ne_eq, not_false_iff, and_true] at hadd
  exact hadd

/-- A directory of a tree has nothing in its way. -/
theorem addDirectory_comes (name : String) (hb : b.Unhindered lost) :
    Comes lost [⟨.directory name, .treeEntry b.root name⟩] (none : Option Cause)
      (addInTree (.directory name)) b := by
  have hplain := Placement.plain_treeEntry b.root name
  obtain ⟨b', hrun, hreach⟩ :=
    addAt_comes_directory hb (Request.filled_directory name) rfl hplain
  exact ⟨b', (addInTree_eq _ b).trans hrun, hreach⟩

theorem tell_comes (notice : Notice) (hb : b.Unhindered lost) :
    Comes lost [] none (tell notice) b := by
  refine .of_ok rfl ⟨⟨rfl, rfl, rfl, rfl, rfl, rfl⟩, .single (.tell b notice),
    ⟨hb.orderly.listed, hb.orderly.follow⟩, ?_, hb.room, hb.isOpen, hb.owner⟩
  exact fun hkeep => ⟨(hb.claims hkeep).claimed, (hb.claims hkeep).apart⟩

end

end Builder

/-! ## Faults -/

/-- Why a file cannot be added: it cannot be opened, or there is no name for it. -/
def fileFault (fs : FileSystem) (root : Option String) (name : String) (source : Bytes) :
    Option Cause :=
  match fs.openPath source with
  | .error cause => some cause
  | .ok _ => if (Placement.entry root name).isRoot then some (.nameless name .file) else none

/-- Why an item of a tree cannot be added: its name is not text, or it is a file
    whose path is too long to be opened, or for which there is no name. -/
def itemFault (fs : FileSystem) (root : Option String) (dest : String) (spot : Spot) :
    Option Cause :=
  match itemName dest spot.below.reverse, fs.node? spot.location with
  | .error cause, _ => some cause
  | .ok name, some (.file _ _) =>
    if FileSystem.isTooLong spot.path then some (.system .nameTooLong)
    else if (Placement.treeEntry root name).isRoot then some (.nameless name .file)
    else none
  | .ok _, _ => none

/-- What an item of a tree asks for, unless it has a fault. -/
def itemAsked (fs : FileSystem) (root : Option String) (dest : String) (mode : Option UInt32)
    (spot : Spot) : List Asked :=
  Builder.askedUnless (itemFault fs root dest spot) (itemRequest fs root dest mode spot)

/-- What is asked for on a walk, up to the first item with a fault. -/
def walkAsked (fs : FileSystem) (root : Option String) (dest : String) (mode : Option UInt32)
    (walk : Walk) : List Asked :=
  Builder.askedUpTo (itemFault fs root dest) (itemAsked fs root dest mode) walk.spots

/-- Why a tree cannot be added as a whole: the first item with a fault, or why the
    walk halts. -/
def walkFault (fs : FileSystem) (root : Option String) (dest : String) (walk : Walk) :
    Option Cause :=
  (walk.spots.findSome? (itemFault fs root dest)).or walk.halt

/-- Items without a fault ask for all they can. -/
theorem flatMap_itemAsked {fs : FileSystem} {root : Option String} {dest : String}
    {mode : Option UInt32} {spots : List Spot} (h : ∀ s ∈ spots, itemFault fs root dest s = none) :
    spots.flatMap (itemAsked fs root dest mode) = spots.flatMap (itemRequest fs root dest mode) := by
  have hsame : ∀ s ∈ spots, itemAsked fs root dest mode s = itemRequest fs root dest mode s := by
    intro s hs
    rw [itemAsked, h s hs, Builder.askedUnless_none]
  rw [List.flatMap_def, List.flatMap_def, List.map_congr_left hsame]

namespace Builder

/-! ## Imports -/

section
variable {fs : FileSystem} {lost : String → Prop} {b : Builder} {mode : Option UInt32}

/-- What is opened and is no directory gives as much as it announces. -/
theorem size_le_of_openAt {loc : Location} {content : Content} (h : fs.openAt loc = .ok content)
    (hdir : fs.isDirectoryAt loc = false) :
    content.size.toNat ≤ content.reading.bytes.length := by
  unfold FileSystem.openAt at h
  unfold FileSystem.isDirectoryAt at hdir
  cases hnode : fs.node? loc with
  | none => rw [hnode] at h; cases h
  | some node =>
    rw [hnode] at h hdir
    cases node with
    | file m bytes =>
      cases h
      simp [Content.size, Content.reading, Reading.bytes, Nat.mod_le]
    | directory => cases hdir
    | link | socket => cases h
    | nullDevice | fullDevice => cases h; exact Nat.le_refl _

theorem isDirectoryAt_of_resolve {source : Bytes} {loc : Location} (h : fs.resolve source = .ok loc) :
    fs.isDirectoryAt loc = fs.isDirectory source := by
  unfold FileSystem.isDirectory FileSystem.status FileSystem.isDirectoryAt
  rw [h]
  simp only [bind, Except.bind]
  cases fs.node? loc with
  | none => rfl
  | some node => rfl

theorem openNow_ok {loc : Location} {content : Content} (happart : b.sink.place ≠ some loc)
    (h : fs.openAt loc = .ok content) : openNow fs loc b = .ok content b := by
  rw [openNow_eq, openDuring_of_ne happart, h]
  rfl

theorem openNow_error {loc : Location} {cause : Cause} (happart : b.sink.place ≠ some loc)
    (h : fs.openAt loc = .error cause) : openNow fs loc b = .error cause b := by
  rw [openNow_eq, openDuring_of_ne happart, h]
  rfl

/-- **A file** that is no directory is added, or it cannot be opened or has no
    name. -/
theorem importFile_comes {name : String} {source : Bytes} (hb : b.Unhindered lost)
    (happart : fs.Apart b.sink.place source) (hdir : fs.isDirectory source = false)
    (hlost : ¬ lost (Placement.entry b.root name).name) :
    Comes lost (askedUnless (fileFault fs b.root name source)
        (fileRequest fs b.root name source mode)) (fileFault fs b.root name source)
      (importFile fs name source mode) b := by
  cases hresolve : fs.resolve source with
  | error cause =>
    have hopen : fs.openPath source = .error cause := by rw [FileSystem.openPath, hresolve]; rfl
    rw [fileFault, hopen]
    refine .of_error hb ?_
    rw [importFile, hresolve]
    rfl
  | ok loc =>
    have hpath : fs.openPath source = fs.openAt loc := by rw [FileSystem.openPath, hresolve]; rfl
    have happartLoc : b.sink.place ≠ some loc := happart.top loc hresolve
    cases hopen : fs.openAt loc with
    | error cause =>
      rw [fileFault, hpath, hopen]
      refine .of_error hb ?_
      rw [importFile, hresolve]
      show (openNow fs loc >>= _) b = _
      exact bind_of_error (openNow_error happartLoc hopen)
    | ok content =>
      have himport : importFile fs name source mode b = add (storedFile name content mode) b := by
        rw [importFile, hresolve]
        show (openNow fs loc >>= _) b = _
        exact bind_of_ok (openNow_ok happartLoc hopen)
      have hfilled := filled_storedFile name mode
        (size_le_of_openAt hopen ((isDirectoryAt_of_resolve hresolve).trans hdir))
      have hk := storedFile_ne_directory name content mode
      obtain ⟨b', hrun, hreach⟩ :=
        addAt_comes_other hb hfilled hk (Placement.plain_entry b.root name) hlost
      rw [fileFault, fileRequest, hpath, hopen]
      exact ⟨b', himport.trans ((add_eq _ b).trans hrun), hreach⟩

/-- A file in a tree is added, unless its path is too long or it has no name. -/
theorem openSpot_comes {spot : Spot} {name : String} {m : UInt32} {bytes : Bytes}
    (hb : b.Unhindered lost) (happart : b.sink.place ≠ some spot.location)
    (hnode : fs.node? spot.location = some (.file m bytes))
    (hlost : ¬ lost (Placement.treeEntry b.root name).name) :
    let fault := if FileSystem.isTooLong spot.path then some (Cause.system .nameTooLong)
      else if (Placement.treeEntry b.root name).isRoot then some (.nameless name .file) else none
    let content := Content.stream { chunks := [bytes] } (UInt64.ofNat bytes.length)
    Comes lost (askedUnless fault [⟨storedFile name content mode, .treeEntry b.root name⟩]) fault
      (openSpot fs spot >>= fun content => addInTree (storedFile name content mode)) b := by
  intro fault content
  have hopenAt : fs.openAt spot.location = .ok content := by
    rw [FileSystem.openAt, hnode]
    rfl
  by_cases hlong : FileSystem.isTooLong spot.path
  · have hfault : fault = some (.system .nameTooLong) := if_pos hlong
    rw [hfault, openSpot, if_pos hlong]
    exact .of_error hb rfl
  · have hfault : fault = if (Placement.treeEntry b.root name).isRoot then
        some (.nameless name .file) else none := if_neg hlong
    have hopen : openNow fs spot.location b = .ok content b := openNow_ok happart hopenAt
    have hdir : fs.isDirectoryAt spot.location = false := by
      rw [FileSystem.isDirectoryAt, hnode]
      rfl
    have hfilled := filled_storedFile name mode (size_le_of_openAt hopenAt hdir)
    have hk := storedFile_ne_directory name content mode
    obtain ⟨b', hrun, hreach⟩ :=
      addAt_comes_other hb hfilled hk (Placement.plain_treeEntry b.root name) hlost
    rw [hfault, openSpot, if_neg hlong]
    exact ⟨b', (bind_of_ok hopen).trans ((addInTree_eq _ b).trans hrun), hreach⟩

/-- **An item of a tree** is added, or told about, or it has a fault. -/
theorem importItem_comes {dest : String} {spot : Spot} (hb : b.Unhindered lost)
    (happart : b.sink.place ≠ some spot.location)
    (hlost : ∀ a ∈ itemRequest fs b.root dest mode spot, a.request.kind ≠ .directory →
      ¬ lost a.place.name) :
    Comes lost (itemAsked fs b.root dest mode spot) (itemFault fs b.root dest spot)
      (importItem fs dest mode spot) b := by
  cases hname : itemName dest spot.below.reverse with
  | error cause =>
    have hfault : itemFault fs b.root dest spot = some cause := by rw [itemFault, hname]
    rw [itemAsked, hfault]
    refine .of_error hb ?_
    rw [importItem, hname]
    rfl
  | ok name =>
    unfold importItem itemAsked itemFault itemRequest
    unfold itemRequest at hlost
    rw [hname] at hlost ⊢
    cases hnode : fs.node? spot.location with
    | none => exact tell_comes _ hb
    | some node =>
      rw [hnode] at hlost
      cases node with
      | directory m =>
        exact addDirectory_comes name hb
      | file m bytes =>
        have hk := storedFile_ne_directory name
          (.stream { chunks := [bytes] } (UInt64.ofNat bytes.length)) mode
        exact openSpot_comes hb happart hnode (hlost _ List.mem_cons_self hk)
      | link | socket | nullDevice | fullDevice => exact tell_comes _ hb

/-- **The items of a walk** are added up to the first one with a fault. -/
theorem importWalk_comes {dest : String} {walk : Walk} (hb : b.Unhindered lost)
    (happart : ∀ spot ∈ walk.spots, b.sink.place ≠ some spot.location)
    (hlost : ∀ spot ∈ walk.spots, ∀ a ∈ itemRequest fs b.root dest mode spot,
      a.request.kind ≠ .directory → ¬ lost a.place.name) :
    Comes lost (walkAsked fs b.root dest mode walk) (walkFault fs b.root dest walk)
      (importWalk fs dest mode walk) b := by
  have hitems : Comes lost (walkAsked fs b.root dest mode walk)
      (walk.spots.findSome? (itemFault fs b.root dest)) (walk.spots.forM (importItem fs dest mode)) b := by
    refine .forM hb fun spot hspot b' hb' hlike => ?_
    have hitem : Comes lost (itemAsked fs b'.root dest mode spot) (itemFault fs b'.root dest spot)
        (importItem fs dest mode spot) b' :=
      importItem_comes hb' (hlike.place ▸ happart spot hspot) (hlike.root ▸ hlost spot hspot)
    rwa [hlike.root] at hitem
  have hall : Comes lost (walkAsked fs b.root dest mode walk ++
      askedUnless (walk.spots.findSome? (itemFault fs b.root dest)) [])
      (walkFault fs b.root dest walk) (importWalk fs dest mode walk) b := by
    refine hitems.bind fun b' hb' _ => ?_
    cases walk.halt with
    | none => exact .of_ok rfl (.refl hb')
    | some cause => exact .of_error hb' rfl
  rw [askedUnless_nil, List.append_nil] at hall
  exact hall

/-- **A tree** is added item by item. -/
theorem importTree_comes {dest : String} {source : Bytes} {walk : Walk} (hb : b.Unhindered lost)
    (happart : fs.Apart b.sink.place source) (hdir : fs.isDirectory source)
    (hwalk : fs.walk source = .ok walk)
    (hlost : ∀ spot ∈ walk.spots, ∀ a ∈ itemRequest fs b.root dest mode spot,
      a.request.kind ≠ .directory → ¬ lost a.place.name) :
    Comes lost (walkAsked fs b.root dest mode walk) (walkFault fs b.root dest walk)
      (importTree fs dest source mode) b := by
  obtain ⟨b', hrun, hreach⟩ := importWalk_comes hb (happart.items walk hwalk) hlost
  exact ⟨b', (importTree_of_walk dest mode hb.isOpen hdir hwalk).trans hrun, hreach⟩

end

end Builder

end Tarball
