/-
  Trees that show the same.

  Two places, each in a file system of its own, are alike if the same is found
  from them: files with the same content, other items of the same kind, or
  directories with the same names in them, each of which leads to places that
  are alike.  Links stand for what they lead to, and permission bits, the order
  of a directory and the way to a place do not count.

  * `FileSystem.Alike` is this relation; it holds of finite trees only;
  * `FileSystem.Ends` says that all ways from a place end (`FileSystem.Ends.acyclic`:
    none leads back to where it started);
  * `FileSystem.Alike.put`: creating a file away from the places does no harm;
  * `FileSystem.Alike.tour`: walks from two such places meet the same.
-/
import Mathlib.Data.List.Forall2
import Mathlib.Logic.Relation
import Tarball.FileSystem.Walk
import Tarball.Proofs.Creation

namespace Tarball

/-- What an item is, whatever its permission bits. -/
def Node.bare : Node → Node
  | file _ content => file 0 content
  | directory _ => directory 0
  | socket _ => socket 0
  | link target => link target
  | nullDevice => nullDevice
  | fullDevice => fullDevice

theorem Node.isDirectory_bare (node : Node) : node.bare.isDirectory = node.isDirectory := by
  cases node <;> rfl

theorem Node.isDirectory_eq {node node' : Node} (h : node.bare = node'.bare) :
    node.isDirectory = node'.isDirectory := by
  rw [← node.isDirectory_bare, h, node'.isDirectory_bare]

namespace FileSystem

/-! ## Places that are alike -/

/-- What is met at a place, by a path that is not too long, away from a location:
    the place is neither there nor the directory around it. -/
structure Meets (fs : FileSystem) (loc : Location) (s : Spot) (node : Node) : Prop where
  node : fs.node? s.location = some node
  short : isTooLong s.path = false
  apart : s.location ≠ loc
  around : s.location ≠ loc.tail

/-- Two places that show the same, each in its file system and away from a
    location in it. -/
inductive Alike (fs fs' : FileSystem) (loc loc' : Location) : Spot → Spot → Prop
  | item {s s' : Spot} {node node' : Node} (meets : fs.Meets loc s node)
      (meets' : fs'.Meets loc' s' node') (same : node.bare = node'.bare)
      (leaf : node.isDirectory = false) : Alike fs fs' loc loc' s s'
  | directory {s s' : Spot} {m m' : UInt32} (meets : fs.Meets loc s (.directory m))
      (meets' : fs'.Meets loc' s' (.directory m'))
      (names : ∀ name, name ∈ fs.names s.location ↔ name ∈ fs'.names s'.location)
      (enters : ∀ name ∈ fs.names s.location, ∃ c, fs.enter s name = .ok c)
      (enters' : ∀ name ∈ fs'.names s'.location, ∃ c', fs'.enter s' name = .ok c')
      (children : ∀ name c c', name ∈ fs.names s.location → fs.enter s name = .ok c →
        fs'.enter s' name = .ok c' → Alike fs fs' loc loc' c c') : Alike fs fs' loc loc' s s'

variable {fs fs' : FileSystem} {loc loc' : Location} {s s' t : Spot}

/-- Directories with the same names in them are alike if each name leads to places
    that are alike. -/
theorem Alike.of_children {m m' : UInt32} (meets : fs.Meets loc s (.directory m))
    (meets' : fs'.Meets loc' s' (.directory m'))
    (names : ∀ name, name ∈ fs.names s.location ↔ name ∈ fs'.names s'.location)
    (children : ∀ name ∈ fs.names s.location, ∃ c c', fs.enter s name = .ok c ∧
      fs'.enter s' name = .ok c' ∧ Alike fs fs' loc loc' c c') : Alike fs fs' loc loc' s s' := by
  refine .directory meets meets' names ?_ ?_ ?_
  · intro name hname
    obtain ⟨c, -, hc, -⟩ := children name hname
    exact ⟨c, hc⟩
  · intro name hname
    obtain ⟨-, c', -, hc', -⟩ := children name ((names name).2 hname)
    exact ⟨c', hc'⟩
  · intro name c c' hname hc hc'
    obtain ⟨d, d', hd, hd', hchild⟩ := children name hname
    obtain rfl : c = d := Except.ok.inj (hc.symm.trans hd)
    obtain rfl : c' = d' := Except.ok.inj (hc'.symm.trans hd')
    exact hchild

/-- The same is met at both places, but for permission bits. -/
theorem Alike.exists_meets (h : Alike fs fs' loc loc' s s') : ∃ node node',
    fs.Meets loc s node ∧ fs'.Meets loc' s' node' ∧ node.bare = node'.bare := by
  cases h with
  | item meets meets' same => exact ⟨_, _, meets, meets', same⟩
  | directory meets meets' => exact ⟨_, _, meets, meets', rfl⟩

theorem Alike.symm (h : Alike fs fs' loc loc' s s') : Alike fs' fs loc' loc s' s := by
  induction h with
  | @item s s' node node' meets meets' same leaf =>
    exact .item meets' meets same.symm ((Node.isDirectory_eq same).symm.trans leaf)
  | directory meets meets' names enters enters' _ ih =>
    refine .directory meets' meets (fun name => (names name).symm) enters' enters ?_
    intro name c' c hname henter' henter
    exact ih name c c' ((names name).2 hname) henter henter'

/-! ## Following names -/

/-- With more links allowed a way leads to the same place. -/
theorem follow_more {links : Nat} {here : Location} {names : List Bytes} {r : Location × Nat}
    (h : fs.follow links here names = .ok r) (more : Nat) :
    fs.follow (links + more) here names = .ok (r.1, r.2 + more) := by
  induction links, here, names using follow_induct fs with
  | done links here => rw [follow_nil] at h ⊢; cases h; rfl
  | stop links here name rest failure hstop => rw [follow_stop hstop] at h; cases h
  | place links here name rest next hplace ih =>
    rw [follow_place hplace] at h
    rw [follow_place hplace]
    exact ih h
  | loop here name rest target hlink => rw [follow_loop hlink] at h; cases h
  | link links here name rest target hlink ih =>
    rw [follow_link hlink] at h
    rw [Nat.succ_add, follow_link hlink]
    exact ih h

/-- However many links may be met, a way leads to one place at most. -/
theorem follow_unique {links links' : Nat} {here : Location} {names : List Bytes}
    {r r' : Location × Nat} (h : fs.follow links here names = .ok r)
    (h' : fs.follow links' here names = .ok r') : r.1 = r'.1 := by
  rcases Nat.le_total links links' with hle | hle
  · obtain ⟨more, rfl⟩ := Nat.exists_eq_add_of_le hle
    rw [follow_more h more] at h'
    cases h'
    rfl
  · obtain ⟨more, rfl⟩ := Nat.exists_eq_add_of_le hle
    rw [follow_more h' more] at h
    cases h
    rfl

theorem enter_ok_iff {name : Bytes} {c : Spot} : fs.enter s name = .ok c ↔
    (fs.isLinkAt (name :: s.location) && isTooLong (joinPath s.path name)) = false ∧
      ∃ r, fs.follow s.links s.location [name] = .ok r ∧ c = s.child name r.1 r.2 := by
  unfold enter
  split
  · next h => simp [h]
  · next h =>
    cases fs.follow s.links s.location [name] with
    | error failure => simp [Except.map]
    | ok r =>
      simp only [Except.map, Except.ok.injEq, exists_eq_left']
      constructor
      · rintro rfl
        exact ⟨by simpa using h, rfl⟩
      · rintro ⟨-, rfl⟩
        rfl

/-- A name leads to one location, however a directory was reached. -/
theorem location_of_enter {name : Bytes} {c d : Spot} (hat : s.location = t.location)
    (hc : fs.enter s name = .ok c) (hd : fs.enter t name = .ok d) : c.location = d.location := by
  obtain ⟨-, r, hr, rfl⟩ := enter_ok_iff.1 hc
  obtain ⟨-, r', hr', rfl⟩ := enter_ok_iff.1 hd
  rw [← hat] at hr'
  exact follow_unique hr hr'

/-- Whether there is a directory is told by what there is. -/
theorem isDirectoryAt_eq {node : Node} (h : fs.node? loc = some node) :
    fs.isDirectoryAt loc = node.isDirectory := by
  rw [isDirectoryAt, h]
  rfl

theorem isDirectory_iff {path : Bytes} : fs.isDirectory path ↔
    ∃ r, fs.resolveLinks path = .ok r ∧ fs.isDirectoryAt r.1 := by
  unfold isDirectory
  constructor
  · intro h
    split at h
    · next node hstatus =>
      obtain ⟨r, hr, hnode⟩ := status_ok_iff.1 hstatus
      exact ⟨r, hr, (isDirectoryAt_eq hnode).trans h⟩
    · cases h
  · rintro ⟨r, hr, hdir⟩
    cases hnode : fs.node? r.1 with
    | none => rw [isDirectoryAt, hnode] at hdir; cases hdir
    | some node =>
      rw [status_ok_iff.2 ⟨r, hr, hnode⟩]
      exact (isDirectoryAt_eq hnode).symm.trans hdir

/-- Only a directory can be entered. -/
theorem directory_of_enter {name : Bytes} {c : Spot} (h : fs.enter s name = .ok c) :
    ∃ m, fs.node? s.location = some (.directory m) := by
  obtain ⟨-, r, hr, -⟩ := enter_ok_iff.1 h
  cases hstride : fs.stride s.location name with
  | error failure => rw [follow_stop hstride] at hr; cases hr
  | ok next => exact directory_of_stride hstride

/-! ## No way back -/

/-- Whether one of the names in a place leads to another place. -/
def Leads (fs : FileSystem) (s t : Spot) : Prop :=
  ∃ name ∈ fs.names s.location, fs.enter s name = .ok t

/-- A place from which all ways end: what is in a directory can be entered, and
    there are finitely many levels of that. -/
inductive Ends (fs : FileSystem) : Spot → Prop
  | intro {s : Spot}
      (enters : fs.isDirectoryAt s.location → ∀ name ∈ fs.names s.location, ∃ c, fs.enter s name = .ok c)
      (further : ∀ c, fs.Leads s c → Ends fs c) : Ends fs s

/-- Nothing is further down than what is no directory. -/
theorem Ends.of_leaf (h : fs.isDirectoryAt s.location = false) : fs.Ends s := by
  refine .intro (fun hdir => absurd hdir (by simp [h])) ?_
  rintro c ⟨name, _, henter⟩
  obtain ⟨m, hdir⟩ := directory_of_enter henter
  cases (isDirectoryAt_eq hdir).symm.trans h

theorem Ends.enters (h : fs.Ends s) (hdir : fs.isDirectoryAt s.location) {name : Bytes}
    (hname : name ∈ fs.names s.location) : ∃ c, fs.enter s name = .ok c := by
  cases h with
  | intro enters => exact enters hdir name hname

open Relation in
/-- All ways end from what is further down as well. -/
theorem Ends.descend (h : fs.Ends s) (ht : TransGen fs.Leads s t) : fs.Ends t := by
  have hstep : ∀ {u v : Spot}, fs.Ends u → fs.Leads u v → fs.Ends v := by
    intro u v hu hlead
    cases hu with
    | intro _ further => exact further v hlead
  induction ht with
  | single hlead => exact hstep h hlead
  | tail _ hlead ih => exact hstep ih hlead

open Relation in
/-- **No way leads back to where it started**: it would lead on from there for
    ever. -/
theorem Ends.acyclic (h : fs.Ends s) : ∀ t, TransGen fs.Leads s t → t.location ≠ s.location := by
  induction h with
  | @intro s enters further ih =>
    intro t ht hback
    have hends : fs.Ends t := (Ends.intro enters further).descend ht
    obtain ⟨c, ⟨name, hname, hc⟩, hrest⟩ := TransGen.head'_iff.1 ht
    -- what was found from the start is found from there again
    obtain ⟨d, hd⟩ : ∃ d, fs.enter t name = .ok d := by
      obtain ⟨m, hdir⟩ := directory_of_enter hc
      refine hends.enters ?_ (hback ▸ hname)
      exact hback ▸ isDirectoryAt_eq hdir
    have hleads : TransGen fs.Leads c d := TransGen.tail' hrest ⟨name, hback ▸ hname, hd⟩
    exact ih c ⟨name, hname, hc⟩ d hleads (location_of_enter hback hd hc)

theorem Alike.ends (h : Alike fs fs' loc loc' s s') : fs.Ends s := by
  induction h with
  | item meets _ _ leaf =>
    refine .of_leaf ?_
    exact (isDirectoryAt_eq meets.node).trans leaf
  | directory _ _ names enters enters' _ ih =>
    refine .intro (fun _ => enters) ?_
    rintro c ⟨name, hname, henter⟩
    obtain ⟨c', henter'⟩ := enters' name ((names name).1 hname)
    exact ih name c c' hname henter henter'

/-! ## Creating a file elsewhere -/

theorem mem_names {dir : Location} {name : Bytes} :
    name ∈ fs.names dir ↔ ∃ node, (name :: dir, node) ∈ fs.items := by
  rw [names, List.mem_filterMap]
  constructor
  · rintro ⟨⟨here, node⟩, hitem, hname⟩
    refine ⟨node, ?_⟩
    cases here with
    | nil => cases hname
    | cons first above =>
      rw [nameIn] at hname
      split at hname
      · next habove => cases hname; rw [← habove]; exact hitem
      · cases hname
  · rintro ⟨node, hitem⟩
    exact ⟨(name :: dir, node), hitem, by rw [nameIn, if_pos rfl]⟩

/-- What there is at a location but the root is one of the items. -/
theorem mem_items_of_node? {node : Node} (h : fs.node? loc = some node) :
    (loc, node) ∈ fs.items ∨ loc = [] := by
  unfold node? at h
  cases hlookup : fs.items.lookup loc with
  | some other =>
    rw [hlookup] at h
    cases h
    obtain ⟨before, after, hsplit, -⟩ := List.lookup_eq_some_iff.1 hlookup
    exact .inl (by rw [hsplit]; simp)
  | none =>
    rw [hlookup] at h
    dsimp only at h
    split at h
    · next hroot => exact .inr hroot
    · cases h

/-- A file put elsewhere adds no name to a directory. -/
theorem mem_names_put {dir : Location} (hdir : dir ≠ loc.tail) (name : Bytes) (node : Node) :
    name ∈ (fs.put loc node).names dir ↔ name ∈ fs.names dir := by
  have hne : name :: dir ≠ loc := by
    rintro rfl
    exact hdir rfl
  simp [mem_names, FileSystem.put, others, hne]

theorem enter_put (hloc : fs.CanHold loc) (haround : s.location ≠ loc.tail) {name : Bytes} {c : Spot}
    {mode : UInt32} {content : Bytes} (h : fs.enter s name = .ok c) :
    (fs.put loc (.file mode content)).enter s name = .ok c := by
  obtain ⟨hlink, r, hr, hc⟩ := enter_ok_iff.1 h
  have hne : name :: s.location ≠ loc := by
    intro he
    rw [← he] at haround
    exact haround rfl
  refine enter_ok_iff.2 ⟨?_, r, follow_put hloc hr, hc⟩
  rw [isLinkAt, node?_put_of_ne hne]
  exact hlink

theorem Meets.put {node : Node} (h : fs.Meets loc s node) (made : Node) :
    (fs.put loc made).Meets loc s node :=
  ⟨(node?_put_of_ne h.apart made).trans h.node, h.short, h.apart, h.around⟩

/-- **Places that are alike stay so** when a file is created away from each. -/
theorem Alike.put (hloc : fs.CanHold loc) (hloc' : fs'.CanHold loc') {mode mode' : UInt32}
    {content content' : Bytes} (h : Alike fs fs' loc loc' s s') :
    Alike (fs.put loc (.file mode content)) (fs'.put loc' (.file mode' content')) loc loc' s s' := by
  induction h with
  | item meets meets' same leaf => exact .item (meets.put _) (meets'.put _) same leaf
  | @directory s s' m m' meets meets' names enters enters' _ ih =>
    refine .of_children (meets.put _) (meets'.put _) ?_ ?_
    · intro name
      rw [mem_names_put meets.around, mem_names_put meets'.around]
      exact names name
    · intro name hname
      have hname := (mem_names_put meets.around name _).1 hname
      obtain ⟨c, hc⟩ := enters name hname
      obtain ⟨c', hc'⟩ := enters' name ((names name).1 hname)
      exact ⟨c, c', enter_put hloc meets.around hc, enter_put hloc' meets'.around hc',
        ih name c c' hname hc hc'⟩

/-! ## Walks -/

theorem nodup_names (dir : Location) : (fs.names dir).Nodup := by
  have hnames : fs.names dir = (fs.items.map Prod.fst).filterMap (nameIn dir) := by
    rw [names, List.filterMap_map]
    rfl
  rw [hnames]
  have hat : ∀ {here : Location} {name : Bytes}, name ∈ nameIn dir here → here = name :: dir := by
    intro here name hname
    cases here with
    | nil => cases hname
    | cons first above =>
      rw [nameIn] at hname
      split at hname
      · next habove => cases hname; rw [habove]
      · cases hname
  refine List.Pairwise.filterMap _ ?_ fs.distinct
  rintro here here' hne name hname _ hname' rfl
  exact hne ((hat hname).trans (hat hname').symm)

/-- The names in a directory are listed in increasing order. -/
theorem pairwise_sortedNames (dir : Location) : (fs.sortedNames dir).Pairwise (· < ·) := by
  have hsorted : (fs.sortedNames dir).Pairwise (· ≤ ·) := by
    refine (List.pairwise_mergeSort ?_ ?_ _).imp of_decide_eq_true
    · intro a b c hab hbc
      exact decide_eq_true (List.le_trans (of_decide_eq_true hab) (of_decide_eq_true hbc))
    · intro a b
      rcases List.le_total a b with hab | hba
      · simp [hab]
      · simp [hba]
  have hnodup : (fs.sortedNames dir).Nodup := (List.mergeSort_perm _ _).nodup_iff.2 (nodup_names dir)
  exact hsorted.imp₂ (fun a b hle hne => Std.lt_of_le_of_ne hle hne) hnodup

/-- There is one way to list the names in a directory in increasing order. -/
theorem sortedNames_eq_of_pairwise {dir : Location} {names : List Bytes}
    (hnames : names.Pairwise (· < ·)) (h : ∀ name, name ∈ fs.names dir ↔ name ∈ names) :
    fs.sortedNames dir = names := by
  refine List.Perm.eq_of_pairwise ?_ (pairwise_sortedNames dir) hnames ?_
  · intro a b _ _ hab hba
    exact absurd hba (List.lt_asymm hab)
  · have hnodup : names.Nodup := hnames.imp fun hlt => by rintro rfl; exact List.lt_irrefl _ hlt
    exact (List.mergeSort_perm _ _).trans
      ((List.perm_ext_iff_of_nodup (nodup_names dir) hnodup).2 h)

/-- Directories with the same names in them list them in the same order. -/
theorem sortedNames_eq {dir dir' : Location}
    (h : ∀ name, name ∈ fs.names dir ↔ name ∈ fs'.names dir') :
    fs.sortedNames dir = fs'.sortedNames dir' := by
  refine sortedNames_eq_of_pairwise (pairwise_sortedNames dir') fun name => ?_
  rw [h name, sortedNames, List.mem_mergeSort]

/-- Two places that a walk each has come to, by the same names, and that are
    alike. -/
structure SameSpot (fs fs' : FileSystem) (loc loc' : Location) (s s' : Spot) : Prop where
  below : s.below = s'.below
  alike : Alike fs fs' loc loc' s s'

/-- Two walks that meet the same, and both halt or both do not. -/
structure SameWalk (fs fs' : FileSystem) (loc loc' : Location) (w w' : Walk) : Prop where
  spots : List.Forall₂ (SameSpot fs fs' loc loc') w.spots w'.spots
  halt : w.halt = none ↔ w'.halt = none

theorem SameWalk.one (h : SameSpot fs fs' loc loc' s s') :
    SameWalk fs fs' loc loc' { spots := [s] } { spots := [s'] } :=
  ⟨.cons h .nil, Iff.rfl⟩

theorem SameWalk.andThen {w w' : Walk} {next next' : Unit → Walk} (h : SameWalk fs fs' loc loc' w w')
    (hnext : SameWalk fs fs' loc loc' (next ()) (next' ())) :
    SameWalk fs fs' loc loc' (w.andThen next) (w'.andThen next') := by
  unfold Walk.andThen
  cases hw : w.halt with
  | none =>
    rw [h.halt.1 hw]
    exact ⟨List.rel_append h.spots hnext.spots, hnext.halt⟩
  | some cause =>
    cases hw' : w'.halt with
    | none => rw [h.halt.2 hw'] at hw; cases hw
    | some cause' => exact h

theorem SameWalk.inTurn {α : Type} {go go' : α → Walk} {l : List α}
    (h : ∀ a ∈ l, SameWalk fs fs' loc loc' (go a) (go' a)) :
    SameWalk fs fs' loc loc' (Walk.inTurn go l) (Walk.inTurn go' l) := by
  induction l with
  | nil => exact ⟨.nil, Iff.rfl⟩
  | cons a l ih =>
    have hrest := ih fun b hb => h b (List.mem_cons_of_mem _ hb)
    exact (h a List.mem_cons_self).andThen hrest

theorem Alike.isDirectoryAt (h : Alike fs fs' loc loc' s s') :
    fs.isDirectoryAt s.location = fs'.isDirectoryAt s'.location := by
  obtain ⟨node, node', meets, meets', same⟩ := h.exists_meets
  rw [FileSystem.isDirectoryAt, FileSystem.isDirectoryAt, meets.node, meets'.node]
  exact Node.isDirectory_eq same

/-- Whether no way from a place leads to one of the directories above it. -/
def Onward (fs : FileSystem) (above : List Spot) (s : Spot) : Prop :=
  ∀ a ∈ above, ∀ t, Relation.TransGen fs.Leads s t → t.location ≠ a.location

theorem ledBackTo_eq_none {above : List Spot} {c : Spot} (item : Location)
    (hacyclic : ∀ t, Relation.TransGen fs.Leads s t → t.location ≠ s.location)
    (honward : fs.Onward above s) (hlead : fs.Leads s c) :
    fs.ledBackTo item c.location (s :: above) = none := by
  unfold ledBackTo
  split
  · rw [List.find?_eq_none]
    intro a ha hat
    have hat : a.location = c.location := by simpa using hat
    rcases List.mem_cons.1 ha with rfl | ha
    · exact hacyclic c (.single hlead) hat.symm
    · exact honward a ha c (.single hlead) hat.symm
  · rfl

theorem Onward.child {above : List Spot} {c : Spot}
    (hacyclic : ∀ t, Relation.TransGen fs.Leads s t → t.location ≠ s.location)
    (honward : fs.Onward above s) (hlead : fs.Leads s c) : fs.Onward (s :: above) c := by
  intro a ha t ht
  rcases List.mem_cons.1 ha with rfl | ha
  · exact hacyclic t (.head hlead ht)
  · exact honward a ha t (.head hlead ht)

/-- **Walks from places that are alike meet the same**, item by item. -/
theorem Alike.tour (h : Alike fs fs' loc loc' s s') (hbelow : s.below = s'.below)
    (hdir : fs.isDirectoryAt s.location) (levels : Nat) {above above' : List Spot}
    (honward : fs.Onward above s) (honward' : fs'.Onward above' s') :
    SameWalk fs fs' loc loc' (fs.tour levels above s) (fs'.tour levels above' s') := by
  induction h generalizing levels above above' with
  | item meets _ _ leaf =>
    rw [FileSystem.isDirectoryAt, meets.node] at hdir
    exact absurd hdir (by simp [leaf])
  | @directory s s' m m' meets meets' names enters enters' children ih =>
    have halike : Alike fs fs' loc loc' s s' :=
      .directory meets meets' names enters enters' children
    have hacyclic := halike.ends.acyclic
    have hacyclic' := halike.symm.ends.acyclic
    cases levels with
    | zero => exact ⟨.cons ⟨hbelow, halike⟩ .nil, by simp [FileSystem.tour]⟩
    | succ levels =>
      rw [FileSystem.tour, FileSystem.tour, meets.short, meets'.short, sortedNames_eq names]
      refine (SameWalk.one ⟨hbelow, halike⟩).andThen (.inTurn ?_)
      intro name hname
      have hname' : name ∈ fs'.names s'.location := List.mem_mergeSort.1 hname
      have hname := (names name).2 hname'
      obtain ⟨c, hc⟩ := enters name hname
      obtain ⟨c', hc'⟩ := enters' name hname'
      have hchild := children name c c' hname hc hc'
      have hbelowChild : c.below = c'.below := by
        obtain ⟨-, r, -, rfl⟩ := enter_ok_iff.1 hc
        obtain ⟨-, r', -, rfl⟩ := enter_ok_iff.1 hc'
        rw [Spot.child, Spot.child, hbelow]
      simp only [hc, hc', ← hchild.isDirectoryAt]
      split
      · next hdirChild =>
        have hlead : fs.Leads s c := ⟨name, hname, hc⟩
        have hlead' : fs'.Leads s' c' := ⟨name, hname', hc'⟩
        rw [ledBackTo_eq_none _ hacyclic honward hlead,
          ledBackTo_eq_none _ hacyclic' honward' hlead']
        exact ih name c c' hname hc hc' hbelowChild hdirChild levels
          (honward.child hacyclic hlead) (honward'.child hacyclic' hlead')
      · exact .one ⟨hbelowChild, hchild⟩

end FileSystem

end Tarball
