/-
  How the import of a tree ends.

  With an open archive, a sink that takes everything and an owner that fits a header
  the import of a tree can be ended by the tree only: by the first of the items that
  are in the way of a walk or cannot be opened.  Without any it succeeds.

  * `Builder.Ready` says that nothing but the tree can end an import;
  * `Builder.EndsIn` says of a step that it ends with a fault, or without one, and
    leaves a builder ready;
  * `Builder.importTree_ends`: the import of a tree ends with the fault of its walk;
  * `Builder.importTree_failure_iff`: that is the first obstacle below the source.
-/
import Tarball.Proofs.Obstacles

namespace Tarball
namespace Builder

/-! ## Nothing but the tree in the way -/

/-- An open archive below a root directory, with a sink that takes everything and an
    owner that fits a header. -/
structure Ready (root : Option String) (b : Builder) : Prop where
  root : b.root = root
  isOpen : b.isOpen
  room : b.sink.room = none
  owner : b.owner.fault = none

/-- A step that ends with a fault, or without one, wherever it starts from. -/
def EndsIn (root : Option String) (fault : Option Cause) (act : Building Unit) : Prop :=
  ∀ b : Builder, b.Ready root → ∃ b', act b = ending fault b' ∧ b'.Ready root

section
variable {root : Option String} {fault fault' : Option Cause}

theorem EndsIn.bind {x y : Building Unit} (hx : EndsIn root fault x) (hy : EndsIn root fault' y) :
    EndsIn root (fault.or fault') (x >>= fun _ => y) := by
  intro b hb
  obtain ⟨b₁, hfirst, hb₁⟩ := hx b hb
  cases fault with
  | some cause => exact ⟨b₁, bind_of_error hfirst, hb₁⟩
  | none =>
    obtain ⟨b₂, hsecond, hb₂⟩ := hy b₁ hb₁
    exact ⟨b₂, (bind_of_ok hfirst).trans hsecond, hb₂⟩

theorem EndsIn.forM {ι : Type} {f : ι → Building Unit} {fault : ι → Option Cause} (l : List ι)
    (hf : ∀ i ∈ l, EndsIn root (fault i) (f i)) : EndsIn root (l.findSome? fault) (l.forM f) := by
  induction l with
  | nil => exact fun b hb => ⟨b, rfl, hb⟩
  | cons i l ih =>
    have hrest := ih fun j hj => hf j (List.mem_cons_of_mem _ hj)
    have hall := (hf i List.mem_cons_self).bind hrest
    rw [List.findSome?_cons]
    cases hi : fault i with
    | none => rw [hi, Option.none_or] at hall; exact hall
    | some cause => rw [hi, Option.some_or] at hall; exact hall

/-- What leaves a builder as it is ends as it does. -/
theorem EndsIn.of_eq {act : Building Unit} (h : ∀ b, act b = ending fault b) : EndsIn root fault act :=
  fun b hb => ⟨b, h b, hb⟩

/-! ## Additions -/

theorem addInTree_ends {r : Request} (hr : r.Filled) :
    EndsIn root (if (Placement.treeEntry root r.name).isRoot ∧ r.kind ≠ .directory then
      some (.nameless r.name r.kind) else none) (addInTree r) := by
  intro b hb
  have hadd : addInTree r b = addAt r (.treeEntry root r.name) b := by rw [addInTree_eq, hb.root]
  rw [hadd]
  split
  · next hname => exact ⟨b, addAt_of_isRoot hb.isOpen hname.1 hname.2, hb⟩
  · next hname =>
    have hdirectory : (Placement.treeEntry root r.name).isRoot → r.kind = .directory :=
      fun hroot => Decidable.not_not.1 fun hk => hname ⟨hroot, hk⟩
    have howner : (r.owner.getD b.owner).fault = none := by rw [hr.owner]; exact hb.owner
    obtain ⟨b', hrun, hroom, hopen⟩ := addAt_succeeds hb.isOpen howner hr.content hdirectory hb.room
    have hdoes : Does (fun _ => True) (addAt r (.treeEntry root r.name)) b :=
      addAt_does (fun _ => trivial) r b
    have hlike := (hdoes.ok hrun).like
    exact ⟨b', hrun, hlike.root.trans hb.root, hopen, hroom, hlike.owner ▸ hb.owner⟩

variable {fs : FileSystem}

/-- A file can be opened while an archive is being written, be it the archive's own
    file, and gives as much as it announces. -/
theorem exists_openDuring {loc : Location} {m : UInt32} {bytes : Bytes}
    (hnode : fs.node? loc = some (.file m bytes)) (s : Sink) :
    ∃ content, fs.openDuring s loc = .ok content ∧
      content.size.toNat ≤ content.reading.bytes.length := by
  obtain ⟨m', bytes', hfile⟩ : ∃ m' bytes', (fs.including s).node? loc = some (.file m' bytes') := by
    unfold FileSystem.including
    split
    · exact ⟨m, bytes, hnode⟩
    · rw [FileSystem.node?_put]
      split
      · exact ⟨_, _, rfl⟩
      · exact ⟨m, bytes, hnode⟩
  have hopen : (fs.including s).openAt loc =
      .ok (.stream { chunks := [bytes'] } (UInt64.ofNat bytes'.length)) := by
    rw [FileSystem.openAt, hfile]
    rfl
  have hleaf : (fs.including s).isDirectoryAt loc = false := FileSystem.isDirectoryAt_eq hfile
  exact ⟨_, (fs.openDuring_eq s loc).trans hopen, size_le_of_openAt hopen hleaf⟩

/-- A file of a tree is added, unless its path is too long or it has no name. -/
theorem openSpot_ends {spot : Spot} {m : UInt32} {bytes : Bytes} (name : String) (mode : Option UInt32)
    (hnode : fs.node? spot.location = some (.file m bytes)) :
    EndsIn root (if FileSystem.isTooLong spot.path then some (.system .nameTooLong)
        else if (Placement.treeEntry root name).isRoot then some (.nameless name .file) else none)
      (openSpot fs spot >>= fun content => addInTree (storedFile name content mode)) := by
  by_cases hlong : FileSystem.isTooLong spot.path
  · rw [if_pos hlong, openSpot, if_pos hlong]
    exact .of_eq fun b => rfl
  · rw [if_neg hlong, openSpot, if_neg hlong]
    intro b hb
    obtain ⟨content, hopen, hsize⟩ := exists_openDuring hnode b.sink
    have hcontent : openNow fs spot.location b = .ok content b := by
      rw [openNow_eq, hopen]
      rfl
    obtain ⟨b', hrun, hb'⟩ := addInTree_ends (filled_storedFile name mode hsize) b hb
    have hfault : (if (Placement.treeEntry root (storedFile name content mode).name).isRoot ∧
          (storedFile name content mode).kind ≠ .directory then
        some (Cause.nameless (storedFile name content mode).name (storedFile name content mode).kind)
        else none) =
        if (Placement.treeEntry root name).isRoot then some (.nameless name .file) else none := by
      simp [storedFile, Request.file]
    rw [hfault] at hrun
    exact ⟨b', (bind_of_ok hcontent).trans hrun, hb'⟩

theorem importItem_ends (dest : String) (mode : Option UInt32) (spot : Spot) :
    EndsIn root (itemFault fs root dest spot) (importItem fs dest mode spot) := by
  unfold itemFault importItem
  cases hname : itemName dest spot.below.reverse with
  | error cause => exact .of_eq fun b => rfl
  | ok name =>
    have htell : EndsIn root none (tell (.special (Utf8.display spot.path))) :=
      fun b hb => ⟨_, rfl, hb.root, hb.isOpen, hb.room, hb.owner⟩
    cases hnode : fs.node? spot.location with
    | none => exact htell
    | some node =>
      cases node with
      | directory m =>
        have hadd : EndsIn root _ (addInTree (.directory name)) :=
          addInTree_ends (Request.filled_directory name)
        rw [if_neg fun h => h.2 rfl] at hadd
        exact hadd
      | file m bytes => exact openSpot_ends name mode hnode
      | _ => exact htell

theorem importWalk_ends (dest : String) (mode : Option UInt32) (walk : Walk) :
    EndsIn root (walkFault fs root dest walk) (importWalk fs dest mode walk) := by
  have hitems : EndsIn root (walk.spots.findSome? (itemFault fs root dest))
      (walk.spots.forM (importItem fs dest mode)) :=
    .forM _ fun spot _ => importItem_ends dest mode spot
  refine hitems.bind ?_
  cases walk.halt with
  | none => exact .of_eq fun b => rfl
  | some cause => exact .of_eq fun b => rfl

end

section
variable {fs : FileSystem} {source : Bytes} {walk : Walk}

theorem exists_texts {names : List Bytes} (h : ∀ name ∈ names, (Utf8.decode? name).isSome) :
    ∃ texts, names.mapM Utf8.decode? = some texts := by
  induction names with
  | nil => exact ⟨[], rfl⟩
  | cons name names ih =>
    obtain ⟨text, htext⟩ := Option.isSome_iff_exists.1 (h name List.mem_cons_self)
    obtain ⟨texts, htexts⟩ := ih fun other hother => h other (List.mem_cons_of_mem _ hother)
    refine ⟨text :: texts, ?_⟩
    rw [List.mapM_cons, htext, htexts]
    rfl

/-- What is wrong with an item of a legible tree can only be that it is a file whose
    path is too long. -/
theorem itemFault_eq (root : Option String) (dest : String) (hfs : fs.Legible)
    (hdir : fs.isDirectory source) (hwalk : fs.walk source = .ok walk) {s : Spot} (hs : s ∈ walk.spots) :
    itemFault fs root dest s = fs.longFile? s := by
  have hstands := (FileSystem.below_of_walk hwalk hs).stands hfs
  have hnames := hfs.of_itemAt? (by rw [hstands.here]; exact Option.some_ne_none _)
  have htexts : ∀ name ∈ s.below.reverse, (Utf8.decode? name).isSome :=
    fun name hname => (hnames name (List.mem_reverse.1 hname)).2
  obtain ⟨way, hdecode⟩ := exists_texts htexts
  have hname : itemName dest s.below.reverse = .ok (pathIn dest way) := by
    rw [itemName, hdecode]
    rfl
  rw [itemFault, hname, FileSystem.longFile?]
  cases hnode : fs.node? s.location with
  | none => rfl
  | some node =>
    cases node with
    | file m bytes =>
      have hbelow := hstands.below_ne_nil hdir (FileSystem.isDirectoryAt_eq hnode)
      obtain ⟨hbytes, hcan⟩ := exists_way_of_mapM
        (fun name hname => (hnames name (List.mem_reverse.1 hname)).1) hdecode
      have hway : way ≠ [] := by
        rintro rfl
        exact hbelow (List.reverse_eq_nil_iff.1 hbytes)
      have hroot := isRoot_pathIn root dest (fun name hname => (hcan name hname).1) hway
      dsimp only
      rw [hroot, if_neg Bool.false_ne_true]
    | _ => rfl

/-- **The import of a tree ends with the fault of its walk.** -/
theorem importTree_ends {b : Builder} {root : Option String} (hb : b.Ready root) (dest : String)
    (mode : Option UInt32) (hfs : fs.Legible) (hdir : fs.isDirectory source)
    (hwalk : fs.walk source = .ok walk) :
    ∃ b', importTree fs dest source mode b = ending (walk.fault fs.longFile?) b' := by
  have hfault : walkFault fs root dest walk = walk.fault fs.longFile? := by
    exact Walk.fault_congr fun s hs => itemFault_eq root dest hfs hdir hwalk hs
  obtain ⟨b', hrun, -⟩ := importWalk_ends dest mode walk b hb
  refine ⟨b', ?_⟩
  rw [importTree_of_walk dest mode hb.isOpen hdir hwalk, hrun, hfault]

end

/-- **The import of a tree succeeds just if nothing is in its way**, and otherwise it
    ends with the first obstacle below the source: a link that leads nowhere or back to
    a directory above it, a directory a hundred levels down, or an item whose path is
    too long.  Whatever it ends with, members are written only for items that are no
    more than a hundred levels down. -/
theorem importTree_failure_iff {fs : FileSystem} {source : Bytes} {b : Builder} (dest : String)
    (mode : Option UInt32) (ho : b.isOpen) (hroom : b.sink.room = none)
    (howner : b.owner.fault = none) (hfs : fs.Legible) (hdir : fs.isDirectory source) :
    let outcome := Outcome.ofResult (importTree fs dest source mode b)
    (outcome.failure = none ↔ ∀ below, fs.obstacle? source below = none) ∧
      (∀ cause, outcome.failure = some cause ↔ ∃ below, fs.FirstObstacle source below cause) ∧
      ∃ added, outcome.builder.members = b.members ++ added ∧ ∀ m ∈ added, ∃ spot : Spot,
        fs.itemAt? source spot.below = some spot.location ∧
          spot.below.length ≤ FileSystem.levelLimit ∧ m.WrittenFor fs dest spot b.root := by
  intro outcome
  obtain ⟨walk, hwalk⟩ := FileSystem.exists_walk hdir
  have hfinds := FileSystem.walk_finds hfs hdir hwalk
  have hfailure : outcome.failure = walk.fault fs.longFile? := by
    obtain ⟨b', hrun⟩ := importTree_ends ⟨rfl, ho, hroom, howner⟩ dest mode hfs hdir hwalk
    show (Outcome.ofResult _).failure = _
    rw [hrun]
    cases walk.fault fs.longFile? <;> rfl
  refine ⟨?_, fun cause => ?_, ?_⟩
  · rw [hfailure]
    exact hfinds.eq_none_iff
  · rw [hfailure]
    exact hfinds.eq_some_iff cause
  · obtain ⟨-, added, hadded, hmay⟩ := importTree_writes fs dest hdir hwalk mode b
    refine ⟨added, by rw [Outcome.builder_ofResult]; exact hadded, fun m hm => ?_⟩
    obtain ⟨spot, hspot, hfor⟩ := hmay m hm
    have hstands := (FileSystem.below_of_walk hwalk hspot).stands hfs
    exact ⟨spot, hstands.here, FileSystem.length_below_le hwalk hspot, hfor⟩

/-- A directory with a link to itself. -/
def backLink : FileSystem where
  items := [([bytesOf "t"], .directory 0o755), ([bytesOf "l", bytesOf "t"], .link (bytesOf "."))]
  distinct := by decide

theorem firstObstacle_backLink :
    backLink.FirstObstacle (bytesOf "t") [bytesOf "l"] (.cycle "t/l" "t") := by
  have htop : backLink.itemAt? (bytesOf "t") [] = some [bytesOf "t"] := by decide
  have hnone : backLink.obstacle? (bytesOf "t") [] = none := by decide
  have hnames : backLink.names [bytesOf "t"] = [bytesOf "l"] := by decide
  refine ⟨by decide +kernel, fun other hsome => ?_⟩
  have hne : backLink.obstacle? (bytesOf "t") other ≠ none := Option.isSome_iff_ne_none.1 hsome
  rcases FileSystem.eq_or_exists_of_suffix (List.nil_suffix (l := other)) with rfl | ⟨rest, name, rfl⟩
  · exact absurd hnone hne
  · obtain ⟨dir, hdir, hlists⟩ := FileSystem.exists_lists_of_obstacle? hne
    obtain rfl : [bytesOf "t"] = dir := Option.some.inj (htop.symm.trans hdir)
    have hname := (FileSystem.lists_iff.1 hlists).2
    rw [hnames, List.mem_singleton] at hname
    rw [hname, List.reverse_append]
    exact (List.prefix_append _ _).le

theorem importTree_failure_iff_backLink :
    (Outcome.ofResult (importTree backLink "p" (bytesOf "t") none (opened {} {}))).failure =
      some (.cycle "t/l" "t") := by
  have hopen : (opened {} {}).isOpen := by decide
  have hroom : (opened {} {}).sink.room = none := by decide
  have howner : (opened {} {}).owner.fault = none := by decide
  have hlegible : backLink.Legible := by decide +kernel
  have hdir : backLink.isDirectory (bytesOf "t") := by decide
  exact ((importTree_failure_iff "p" none hopen hroom howner hlegible hdir).2.1 _).2
    ⟨_, firstObstacle_backLink⟩

theorem isLinkAt_oneFile (loc : Location) : oneFile.isLinkAt loc = false := by
  unfold FileSystem.isLinkAt
  cases hnode : oneFile.node? loc with
  | none => rfl
  | some node =>
    have hitems : ∀ item ∈ oneFile.items, item.2.isLink = false := by decide
    rcases FileSystem.mem_items_of_node? hnode with hitem | rfl
    · exact hitems _ hitem
    · have hroot : oneFile.node? [] = some (.directory Node.directoryMode) := by decide
      rw [hroot] at hnode
      cases hnode
      rfl

/-- Below the long way to a directory there is no directory but itself. -/
theorem eq_nil_of_directory_longWay {below : List Bytes}
    (h : (oneFile.itemAt? longWay below).any oneFile.isDirectoryAt) : below = [] := by
  have htop : oneFile.itemAt? longWay [] = some [bytesOf "t"] :=
    FileSystem.itemAt?_nil resolveLinks_longWay
  have hcons : ∀ name below loc, oneFile.itemAt? longWay (name :: below) = some loc →
      ∃ dir, oneFile.itemAt? longWay below = some dir ∧ loc = name :: dir := by
    intro name below loc hloc
    have hsome : oneFile.itemAt? longWay (name :: below) ≠ none := by
      rw [hloc]
      exact Option.some_ne_none loc
    obtain ⟨dir, hdir, hlists⟩ := FileSystem.exists_lists_cons (.inl hsome)
    rw [FileSystem.itemAt?, hdir, Option.bind_some, if_pos hlists, isLinkAt_oneFile,
      if_neg Bool.false_ne_true] at hloc
    exact ⟨dir, hdir, (Option.some.inj hloc).symm⟩
  cases below with
  | nil => rfl
  | cons name below =>
    obtain ⟨loc, hloc, hdir⟩ := (Option.any_eq_true _ _).1 h
    obtain ⟨dir, hat, rfl⟩ := hcons name below loc hloc
    have hdirs : ∀ item ∈ oneFile.items, item.2.isDirectory → item.1 = [bytesOf "t"] := by
      decide
    obtain ⟨node, hnode, hkind⟩ := (Option.any_eq_true _ _).1 hdir
    have hitem := (FileSystem.mem_items_of_node? hnode).resolve_right (List.cons_ne_nil name dir)
    obtain ⟨-, rfl⟩ := List.cons.inj (hdirs _ hitem hkind)
    -- then the name would stand in the top of the file system
    cases below with
    | nil => cases htop.symm.trans hat
    | cons other below =>
      obtain ⟨dir, -, hempty⟩ := hcons other below [] hat
      cases hempty

/-- Neither a link nor the depth is in the way of the directory with one file, by
    however long a way it is imported: yet it is not, if the file cannot be opened by
    its path. -/
theorem longWay_without_links : start {} {} = .ok () (opened {} {}) ∧
    oneFile.Legible ∧ oneFile.isDirectory longWay ∧
    (∀ below, oneFile.badLink? longWay below = none ∧ oneFile.deepDirectory? longWay below = none) ∧
    (Outcome.ofResult (importTree oneFile "p" longWay none (opened {} {}))).failure =
      some (.system .nameTooLong) := by
  have hdir : oneFile.isDirectory longWay :=
    FileSystem.isDirectory_iff.2 ⟨_, resolveLinks_longWay, by decide⟩
  refine ⟨Outcome.ofResult_succeeds (by decide +kernel), by decide +kernel, hdir,
    fun below => ⟨?_, ?_⟩, ?_⟩
  · refine if_neg ?_
    cases below with
    | nil => exact Bool.false_ne_true
    | cons name below => simp [FileSystem.endsInLink, isLinkAt_oneFile]
  · refine if_neg ?_
    rintro ⟨hdeep, hat⟩
    rw [eq_nil_of_directory_longWay hat] at hdeep
    exact absurd hdeep (by decide)
  · rw [importTree_of_walk "p" none (by decide) hdir walk_longWay]
    decide +kernel

end Builder
end Tarball
