/-
  Finite trees of files and directories.

  A tree is a file with its content, or a directory with the names in it and what
  stands under each.  A place of a file system shows a tree if the same is found
  from there, links standing for what they lead to.  A walk from such a place
  comes to all that is in the tree: each directory before what it holds, and what
  it holds in the order of the bytes of the names.

  * `Tree.listing` are the items of a tree in this order;
  * `FileSystem.Shows` says that a place shows a tree;
  * `FileSystem.Shows.tour`: a walk from there lists the tree.
-/
import Tarball.Proofs.Decoding
import Tarball.Proofs.Placement
import Tarball.Proofs.Walks

namespace Tarball

/-! ## Trees -/

/-- A name that an item of a directory can have. -/
structure CanName (name : String) : Prop where
  plain : Segment.Plain name.toList
  /-- It does not stand for the directory itself. -/
  notDot : name ≠ "."

/-- A finite tree.  The names in a directory are in the order of their bytes, and
    the size of a file fits its header. -/
inductive Tree where
  | file (content : Bytes) (fits : content.length < UInt64.size)
  | directory (names : List String) (ordered : names.Pairwise fun a b => bytesOf a < bytesOf b)
      (named : ∀ name ∈ names, CanName name) (items : String → Tree)

namespace Tree

/-- An item of a tree: the names on the way to it, outermost first, and its content
    unless it is a directory. -/
structure Item where
  way : List String
  content : Option Bytes := none
  deriving DecidableEq, Repr

/-- What an item is, with its permission bits. -/
def Item.node (m : UInt32) (item : Item) : Node :=
  match item.content with
  | none => .directory m
  | some content => .file m content

/-- The items of a tree that stands at the end of a way, a directory before what it
    holds. -/
def listing (way : List String) : Tree → List Item
  | file content _ => [{ way, content := some content }]
  | directory names _ _ items =>
    { way } :: names.flatMap fun name => (items name).listing (way ++ [name])

/-- The items that stand in a directory at the end of a way. -/
def inside (way : List String) (names : List String) (items : String → Tree) : List Item :=
  names.flatMap fun name => (items name).listing (way ++ [name])

theorem prefix_of_mem_listing {tree : Tree} {way : List String} {item : Item}
    (h : item ∈ tree.listing way) : way <+: item.way := by
  induction tree generalizing way with
  | file content fits =>
    obtain rfl := List.mem_singleton.1 h
    exact List.prefix_rfl
  | directory names ordered named items ih =>
    rcases List.mem_cons.1 h with rfl | h
    · exact List.prefix_rfl
    · obtain ⟨name, -, h⟩ := List.mem_flatMap.1 h
      exact (List.prefix_append way [name]).trans (ih name h)

/-- The way to an item is made of names. -/
theorem canName_of_mem_listing {tree : Tree} {way : List String} {item : Item}
    (hway : ∀ name ∈ way, CanName name) (h : item ∈ tree.listing way) :
    ∀ name ∈ item.way, CanName name := by
  induction tree generalizing way with
  | file content fits =>
    obtain rfl := List.mem_singleton.1 h
    exact hway
  | directory names ordered named items ih =>
    rcases List.mem_cons.1 h with rfl | h
    · exact hway
    · obtain ⟨name, hname, h⟩ := List.mem_flatMap.1 h
      exact ih name (List.forall_mem_append.2 ⟨hway, by simpa using named name hname⟩) h

/-- What stands in a directory is further down than the directory. -/
theorem length_lt_of_mem_listing {tree : Tree} {way : List String} {name : String} {item : Item}
    (h : item ∈ tree.listing (way ++ [name])) : way.length < item.way.length := by
  have hlength := (prefix_of_mem_listing h).length_le
  rw [List.length_append, List.length_singleton] at hlength
  omega

/-- What stands under different names is at the end of different ways. -/
theorem way_ne_of_name_ne {tree tree' : Tree} {way : List String} {name name' : String}
    {item item' : Item} (hne : name ≠ name') (h : item ∈ tree.listing (way ++ [name]))
    (h' : item' ∈ tree'.listing (way ++ [name'])) : item.way ≠ item'.way := by
  obtain ⟨rest, hrest⟩ := prefix_of_mem_listing h
  obtain ⟨rest', hrest'⟩ := prefix_of_mem_listing h'
  rw [← hrest, ← hrest']
  intro he
  simp only [List.append_assoc, List.append_cancel_left_eq] at he
  exact hne (List.cons.inj he).1

/-- What stands in a directory is named by names, and further down than it. -/
theorem way_of_mem_inside {names : List String} {items : String → Tree} {way : List String}
    (hway : ∀ name ∈ way, CanName name) (hnamed : ∀ name ∈ names, CanName name) {item : Item}
    (h : item ∈ inside way names items) :
    way.length < item.way.length ∧ ∀ name ∈ item.way, CanName name := by
  obtain ⟨name, hname, hitem⟩ := List.mem_flatMap.1 h
  have hchild : ∀ other ∈ way ++ [name], CanName other :=
    List.forall_mem_append.2 ⟨hway, by simpa using hnamed name hname⟩
  exact ⟨length_lt_of_mem_listing hitem, canName_of_mem_listing hchild hitem⟩

/-- The files in a directory are further down than it. -/
theorem way_ne_of_isSome {names : List String} {ordered : names.Pairwise fun a b => bytesOf a < bytesOf b}
    {named : ∀ name ∈ names, CanName name} {items : String → Tree} {item : Item}
    (h : item ∈ (directory names ordered named items).listing []) (hfile : item.content.isSome) :
    item.way ≠ [] := by
  rcases List.mem_cons.1 h with rfl | h
  · cases hfile
  · exact List.ne_nil_of_length_pos (way_of_mem_inside (by simp) named h).1

end Tree

namespace FileSystem

/-! ## Places that show a tree -/

/-- A place that shows a tree: what is found from there is the same, and can be
    reached by paths that are not too long. -/
inductive Shows (fs : FileSystem) : Spot → Tree → Prop
  | file {s : Spot} {m : UInt32} {content : Bytes} {fits : content.length < UInt64.size}
      (node : fs.node? s.location = some (.file m content)) (short : isTooLong s.path = false) :
      Shows fs s (.file content fits)
  | directory {s : Spot} {m : UInt32} {names : List String}
      {ordered : names.Pairwise fun a b => bytesOf a < bytesOf b}
      {named : ∀ name ∈ names, CanName name} {items : String → Tree}
      (node : fs.node? s.location = some (.directory m)) (short : isTooLong s.path = false)
      (listed : ∀ name, name ∈ fs.names s.location ↔ name ∈ names.map bytesOf)
      (enters : ∀ name ∈ names, ∃ c, fs.enter s (bytesOf name) = .ok c)
      (children : ∀ name c, name ∈ names → fs.enter s (bytesOf name) = .ok c →
        Shows fs c (items name)) : Shows fs s (.directory names ordered named items)

variable {fs : FileSystem} {s : Spot} {tree : Tree}

/-- All ways end from a place that shows a tree. -/
theorem Shows.ends (h : fs.Shows s tree) : fs.Ends s := by
  induction h with
  | file node short =>
    refine .of_leaf ?_
    rw [isDirectoryAt, node]
    rfl
  | @directory s m names ordered named items node short listed enters children ih =>
    have hread : ∀ name ∈ fs.names s.location, ∃ text ∈ names, bytesOf text = name :=
      fun name hname => List.mem_map.1 ((listed name).1 hname)
    constructor
    · intro _ name hname
      obtain ⟨text, htext, rfl⟩ := hread name hname
      exact enters text htext
    · rintro c ⟨name, hname, henter⟩
      obtain ⟨text, htext, rfl⟩ := hread name hname
      exact ih text c htext henter

/-! ## Walks through trees -/

/-- A place that a walk has come to, where an item of a tree is. -/
structure Met (fs : FileSystem) (spot : Spot) (item : Tree.Item) : Prop where
  way : spot.way = item.way.map bytesOf
  node : ∃ m, fs.node? spot.location = some (item.node m)
  short : isTooLong spot.path = false

/-- A walk that comes to all items of a list, in their order, and does not halt. -/
structure Lists (fs : FileSystem) (w : Walk) (items : List Tree.Item) : Prop where
  spots : List.Forall₂ fs.Met w.spots items
  halt : w.halt = none

theorem lists_one {item : Tree.Item} (h : fs.Met s item) : fs.Lists { spots := [s] } [item] :=
  ⟨.cons h .nil, rfl⟩

theorem Lists.andThen {w : Walk} {next : Unit → Walk} {items more : List Tree.Item}
    (h : fs.Lists w items) (hnext : fs.Lists (next ()) more) :
    fs.Lists (w.andThen next) (items ++ more) := by
  unfold Walk.andThen
  rw [h.halt]
  exact ⟨List.rel_append h.spots hnext.spots, hnext.halt⟩

theorem lists_inTurn {go : Bytes → Walk} {names : List String} {items : String → List Tree.Item}
    (h : ∀ name ∈ names, fs.Lists (go (bytesOf name)) (items name)) :
    fs.Lists (Walk.inTurn go (names.map bytesOf)) (names.flatMap items) := by
  induction names with
  | nil => exact ⟨.nil, rfl⟩
  | cons name names ih =>
    have hrest := ih fun other hother => h other (List.mem_cons_of_mem _ hother)
    exact (h name List.mem_cons_self).andThen hrest

/-- A place that is no directory shows a single file. -/
theorem Shows.lists_leaf (h : fs.Shows s tree) (hdir : ¬ fs.isDirectoryAt s.location)
    {way : List String} (hway : s.way = way.map bytesOf) :
    fs.Lists { spots := [s] } (tree.listing way) := by
  cases h with
  | file node short => exact lists_one ⟨hway, ⟨_, node⟩, short⟩
  | directory node =>
    rw [isDirectoryAt, node] at hdir
    exact absurd rfl hdir

/-- **A walk lists the tree** that is shown where it starts, as long as no directory
    is too far down. -/
theorem Shows.tour (h : fs.Shows s tree) (hdir : fs.isDirectoryAt s.location) {way : List String}
    (hway : s.way = way.map bytesOf) {levels : Nat}
    (hdeep : ∀ item ∈ tree.listing way, item.content = none → item.way.length < way.length + levels)
    {above : List Spot} (honward : fs.Onward above s) :
    fs.Lists (fs.tour levels above s) (tree.listing way) := by
  induction h generalizing way levels above with
  | file node short =>
    rw [isDirectoryAt, node] at hdir
    cases hdir
  | @directory s m names ordered named items node short listed enters children ih =>
    have hshows : fs.Shows s (.directory names ordered named items) :=
      .directory node short listed enters children
    have hends := hshows.ends
    have htop : fs.Met s { way } := ⟨hway, ⟨m, node⟩, short⟩
    cases levels with
    | zero => exact absurd (hdeep { way } List.mem_cons_self rfl) (by simp)
    | succ levels =>
      have hnames : fs.sortedNames s.location = names.map bytesOf :=
        sortedNames_eq_of_pairwise (List.pairwise_map.2 ordered) listed
      rw [FileSystem.tour, short, if_neg Bool.false_ne_true, hnames]
      refine (lists_one htop).andThen (lists_inTurn fun name hname => ?_)
      obtain ⟨c, hc⟩ := enters name hname
      have hchild := children name c hname hc
      have hwayChild : c.way = (way ++ [name]).map bytesOf := by
        obtain ⟨-, r, -, rfl⟩ := enter_ok_iff.1 hc
        rw [Spot.way_child, hway, List.map_append]
        rfl
      have hlead : fs.Leads s c := ⟨bytesOf name, (listed _).2 (List.mem_map_of_mem hname), hc⟩
      have hdeepChild : ∀ item ∈ (items name).listing (way ++ [name]), item.content = none →
          item.way.length < (way ++ [name]).length + levels := by
        intro item hitem hnone
        have hlength := hdeep item (List.mem_cons_of_mem _ (List.mem_flatMap.2 ⟨name, hname, hitem⟩)) hnone
        rw [List.length_append, List.length_singleton]
        omega
      rw [hc]
      dsimp only
      by_cases hdirChild : fs.isDirectoryAt c.location
      · rw [if_pos hdirChild, ledBackTo_eq_none _ hends.acyclic honward hlead]
        exact ih name c hname hc hdirChild hwayChild hdeepChild (honward.child hends.acyclic hlead)
      · rw [if_neg hdirChild]
        exact hchild.lists_leaf hdirChild hwayChild

/-! ## Paths to trees -/

/-- A path that leads to a place that shows a tree. -/
def LeadsTo (fs : FileSystem) (path : Bytes) (tree : Tree) : Prop :=
  ∃ location links, fs.resolveLinks path = .ok (location, links) ∧
    fs.Shows { location, path, links } tree

theorem LeadsTo.isDirectory_of_file {path : Bytes} {content : Bytes} {fits : content.length < UInt64.size}
    (h : fs.LeadsTo path (.file content fits)) : fs.isDirectory path = false := by
  obtain ⟨location, links, hresolve, hshows⟩ := h
  cases hshows with
  | @file _ m _ _ node =>
    have hstatus : fs.status path = .ok (.file m content) :=
      status_ok_iff.2 ⟨(location, links), hresolve, node⟩
    rw [FileSystem.isDirectory, hstatus]
    rfl

/-- **The walk from a path lists the tree** that it leads to. -/
theorem LeadsTo.exists_walk {path : Bytes} (h : fs.LeadsTo path tree) (hdir : fs.isDirectory path)
    (hdeep : ∀ item ∈ tree.listing [], item.content = none → item.way.length < levelLimit) :
    ∃ walk, fs.walk path = .ok walk ∧ fs.Lists walk (tree.listing []) := by
  obtain ⟨location, links, hresolve, hshows⟩ := h
  have hat : fs.isDirectoryAt location := by
    obtain ⟨r, hr, hat⟩ := isDirectory_iff.1 hdir
    obtain rfl : (location, links) = r := Except.ok.inj (hresolve.symm.trans hr)
    exact hat
  refine ⟨fs.tour levelLimit [] { location, path, links }, ?_, ?_⟩
  · rw [FileSystem.walk, hresolve]
    rfl
  · refine hshows.tour hat rfl (fun item hitem hnone => ?_) (fun a ha => absurd ha (by simp))
    have hlength := hdeep item hitem hnone
    simpa using hlength

end FileSystem

end Tarball
