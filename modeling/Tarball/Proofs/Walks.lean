/-
  The order of a walk.

  A walk comes to each directory before what it holds, and to what it holds in
  the order of the names: the ways to the places it comes to are in the order of
  a dictionary.  If it halts because a directory is too far down, that is the
  last place it came to.

  * `Spot.way` are the names on the way to a place;
  * `Walk.Descends` says of a walk that it is in this order (`FileSystem.tour_descends`,
    `FileSystem.walk_descends`).
-/
import Tarball.Proofs.Alike

namespace Tarball

/-- The names on the way to a place, outermost first. -/
def Spot.way (s : Spot) : List Bytes := s.below.reverse

theorem Spot.way_child (s : Spot) (name : Bytes) (location : Location) (links : Nat) :
    (s.child name location links).way = s.way ++ [name] := by
  simp [way, child]

namespace Walk

/-- A walk that comes to places in the order of the ways to them, all of which
    begin in the same manner.  If it halts for its depth, the last place is so
    many levels further down. -/
structure Descends (way : List Bytes) (levels : Nat) (w : Walk) : Prop where
  under : ∀ s ∈ w.spots, way <+: s.way
  ordered : w.spots.Pairwise fun s t => s.way < t.way
  deepest : ∀ path, w.halt = some (.tooDeep path) → ∃ before last, w.spots = before ++ [last] ∧
    last.way.length = way.length + levels ∧ path = Utf8.display last.path

variable {way : List Bytes} {levels : Nat}

theorem descends_of_nil {w : Walk} (hspots : w.spots = []) (hhalt : ∀ path, w.halt ≠ some (.tooDeep path)) :
    w.Descends way levels where
  under := by simp [hspots]
  ordered := by simp [hspots]
  deepest path h := absurd h (hhalt path)

theorem descends_one (s : Spot) (levels : Nat) :
    ({ spots := [s] } : Walk).Descends s.way levels where
  under := by simp
  ordered := List.pairwise_singleton _ _
  deepest := by simp

/-- One walk after another, all of whose places come later. -/
theorem Descends.andThen {w : Walk} {next : Unit → Walk} (hw : w.Descends way levels)
    (hnext : (next ()).Descends way levels)
    (hlater : ∀ s ∈ w.spots, ∀ t ∈ (next ()).spots, s.way < t.way) :
    (w.andThen next).Descends way levels := by
  unfold Walk.andThen
  cases hhalt : w.halt with
  | some cause => exact hw
  | none =>
    refine ⟨fun s hs => ?_, List.pairwise_append.2 ⟨hw.ordered, hnext.ordered, hlater⟩, ?_⟩
    · exact (List.mem_append.1 hs).elim (hw.under s) (hnext.under s)
    · intro path h
      obtain ⟨before, last, hspots, hlength, hpath⟩ := hnext.deepest path h
      refine ⟨w.spots ++ before, last, ?_, hlength, hpath⟩
      rw [List.append_assoc, ← hspots]

theorem Descends.weaken {name : Bytes} {w : Walk} (h : w.Descends (way ++ [name]) levels) :
    w.Descends way (levels + 1) := by
  refine ⟨fun s hs => (List.prefix_append way [name]).trans (h.under s hs), h.ordered, ?_⟩
  intro path hhalt
  obtain ⟨before, last, hspots, hlength, hpath⟩ := h.deepest path hhalt
  refine ⟨before, last, hspots, ?_, hpath⟩
  rw [hlength, List.length_append, List.length_singleton]
  omega

/-- Walks one after the other come to what the first of them come to, up to the one
    that halts. -/
theorem spots_inTurn {α : Type} (go : α → Walk) (l : List α) :
    ∃ done, done <+: l ∧ (inTurn go l).spots = done.flatMap fun a => (go a).spots := by
  induction l with
  | nil => exact ⟨[], List.nil_prefix, rfl⟩
  | cons a l ih =>
    rw [inTurn, Walk.andThen]
    cases (go a).halt with
    | some cause => exact ⟨[a], List.prefix_append [a] l, by simp⟩
    | none =>
      obtain ⟨done, hdone, hspots⟩ := ih
      exact ⟨a :: done, List.cons_prefix_cons.2 ⟨rfl, hdone⟩, by rw [List.flatMap_cons, ← hspots]⟩

theorem inTurn_of_leaves {go : Bytes → Walk} {names : List Bytes} {spots : List Spot}
    (h : List.Forall₂ (fun name c => go name = { spots := [c] }) names spots) :
    inTurn go names = { spots := spots } := by
  induction h with
  | nil => rfl
  | cons hfirst _ ih => rw [inTurn, hfirst, ih]; rfl

theorem mem_spots_inTurn {α : Type} {go : α → Walk} {l : List α} {s : Spot}
    (h : s ∈ (inTurn go l).spots) : ∃ a ∈ l, s ∈ (go a).spots := by
  obtain ⟨done, hdone, hspots⟩ := spots_inTurn go l
  rw [hspots] at h
  obtain ⟨a, ha, hs⟩ := List.mem_flatMap.1 h
  exact ⟨a, hdone.subset ha, hs⟩

/-- What begins with the lesser one of two names comes before what begins with the
    greater one. -/
theorem way_lt_way {name name' : Bytes} {first second : List Bytes} (hlt : name < name')
    (hfirst : way ++ [name] <+: first) (hsecond : way ++ [name'] <+: second) : first < second := by
  obtain ⟨rest, rfl⟩ := hfirst
  obtain ⟨rest', rfl⟩ := hsecond
  rw [List.append_assoc, List.append_assoc]
  exact List.append_left_lt (List.cons_lt_cons_iff.2 (.inl hlt))

/-- Walks from the names in a directory, in their order. -/
theorem descends_inTurn {go : Bytes → Walk} {names : List Bytes} (hnames : names.Pairwise (· < ·))
    (hgo : ∀ name ∈ names, (go name).Descends (way ++ [name]) levels) :
    (inTurn go names).Descends way (levels + 1) := by
  induction names with
  | nil => exact descends_of_nil rfl (by simp [inTurn])
  | cons name names ih =>
    obtain ⟨hfirst, hnames⟩ := List.pairwise_cons.1 hnames
    have hhead := hgo name List.mem_cons_self
    have hrest := ih hnames fun name' h => hgo name' (List.mem_cons_of_mem _ h)
    refine hhead.weaken.andThen hrest fun s hs t ht => ?_
    obtain ⟨name', hname', ht⟩ := mem_spots_inTurn ht
    have hunder := (hgo name' (List.mem_cons_of_mem _ hname')).under t ht
    exact way_lt_way (hfirst name' hname') (hhead.under s hs) hunder

/-- A directory and then what it holds. -/
theorem descends_directory {go : Bytes → Walk} {names : List Bytes} (here : Spot)
    (hnames : names.Pairwise (· < ·))
    (hgo : ∀ name, (go name).Descends (here.way ++ [name]) levels) :
    (Walk.andThen { spots := [here] } fun _ => inTurn go names).Descends here.way (levels + 1) := by
  refine (descends_one here _).andThen (descends_inTurn hnames fun name _ => hgo name) ?_
  intro s hs t ht
  obtain rfl := List.mem_singleton.1 hs
  obtain ⟨name, -, ht⟩ := mem_spots_inTurn ht
  obtain ⟨rest, hrest⟩ := (hgo name).under t ht
  rw [← hrest, List.append_assoc]
  have hlonger : s.way ++ [] < s.way ++ ([name] ++ rest) := List.append_left_lt (List.nil_lt_cons _ _)
  rwa [List.append_nil] at hlonger

end Walk

namespace FileSystem

variable {fs : FileSystem}

/-- **A tour is in the order of a dictionary.** -/
theorem tour_descends (levels : Nat) (above : List Spot) (here : Spot) :
    (fs.tour levels above here).Descends here.way levels := by
  induction levels generalizing above here with
  | zero =>
    refine ⟨?_, List.pairwise_singleton _ _, ?_⟩
    · intro s hs
      obtain rfl := List.mem_singleton.1 hs
      exact List.prefix_rfl
    · intro path h
      cases h
      exact ⟨[], here, rfl, rfl, rfl⟩
  | succ levels ih =>
    rw [tour]
    split
    · exact (Walk.descends_one here _).andThen
        (Walk.descends_of_nil rfl (by simp [Walk.haltedAt])) (by simp [Walk.haltedAt])
    · refine Walk.descends_directory here (pairwise_sortedNames _) fun name => ?_
      split
      · exact Walk.descends_of_nil rfl (by simp [Walk.haltedAt])
      · next spot henter =>
        obtain ⟨-, r, -, rfl⟩ := enter_ok_iff.1 henter
        rw [← here.way_child name r.1 r.2]
        split
        · split
          · exact Walk.descends_of_nil rfl (by simp)
          · exact ih _ _
        · exact Walk.descends_one _ _

/-- A walk is a tour from its source. -/
theorem exists_tour_of_walk {source : Bytes} {walk : Walk} (h : fs.walk source = .ok walk) :
    ∃ here : Spot, fs.resolveLinks source = .ok (here.location, here.links) ∧ here.path = source ∧
      here.below = [] ∧ walk = fs.tour levelLimit [] here := by
  unfold FileSystem.walk at h
  cases hsource : fs.resolveLinks source with
  | error cause => rw [hsource] at h; cases h
  | ok r =>
    rw [hsource] at h
    cases h
    exact ⟨{ location := r.1, path := source, links := r.2 }, rfl, rfl, rfl, rfl⟩

/-- A directory can be walked through. -/
theorem exists_walk {source : Bytes} (h : fs.isDirectory source) : ∃ walk, fs.walk source = .ok walk := by
  obtain ⟨r, hr, -⟩ := isDirectory_iff.1 h
  rw [FileSystem.walk, hr]
  exact ⟨_, rfl⟩

/-- A walk through a directory with no directories in it comes to the directory and
    to its items in the order of their names. -/
theorem walk_of_leaves {path : Bytes} {loc : Location} {links : Nat} {names : List Bytes}
    {spots : List Spot} (hpath : fs.resolveLinks path = .ok (loc, links))
    (hshort : isTooLong path = false) (hnames : fs.names loc = names)
    (hordered : names.Pairwise (· < ·))
    (hleaves : List.Forall₂ (fun name c => fs.enter { location := loc, path, links } name = .ok c ∧
      fs.isDirectoryAt c.location = false) names spots) :
    fs.walk path = .ok { spots := { location := loc, path, links } :: spots } := by
  have hsorted : fs.sortedNames loc = names :=
    sortedNames_eq_of_pairwise hordered fun name => by rw [hnames]
  rw [FileSystem.walk, hpath]
  show Except.ok (fs.tour (99 + 1) [] { location := loc, path, links }) = _
  rw [FileSystem.tour, hshort, if_neg Bool.false_ne_true, hsorted]
  refine congrArg (fun rest : Walk => Except.ok (Walk.andThen _ fun _ => rest))
    (Walk.inTurn_of_leaves (hleaves.imp fun name c hc => ?_))
  rw [hc.1]
  dsimp only
  rw [hc.2, if_neg Bool.false_ne_true]

theorem walk_descends {path : Bytes} {walk : Walk} (h : fs.walk path = .ok walk) :
    walk.Descends [] levelLimit := by
  obtain ⟨here, -, -, hbelow, rfl⟩ := exists_tour_of_walk h
  have hway : here.way = [] := by rw [Spot.way, hbelow, List.reverse_nil]
  exact hway ▸ tour_descends levelLimit [] here

end FileSystem

end Tarball
