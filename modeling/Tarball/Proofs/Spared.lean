/-
  Trees without special files.

  Sockets and devices are no part of an archive.  A walk of a tree without them
  comes to what a walk of the tree with them comes to, but for these.

  * `FileSystem.Spares` says of two file systems that below a source the latter has
    what the former has but for special files and links to them
    (`FileSystem.spares_without`: if they were removed);
  * `FileSystem.Spares.walk`: its walk is the other one without them.
-/
import Tarball.Proofs.Walks

namespace Tarball

/-! ## Trees without special files -/

namespace FileSystem

variable {fs fs' : FileSystem} {source : Bytes}

/-- Whether what is at a location is neither a directory nor a file. -/
def isSpecialAt (fs : FileSystem) (loc : Location) : Bool :=
  (fs.node? loc).all fun node => !node.isDirectory && !node.isFile

/-- Whether a name in a directory leads to such a thing. -/
def leadsToSpecial (fs : FileSystem) (dir : Spot) (name : Bytes) : Bool :=
  match fs.enter dir name with
  | .ok spot => fs.isSpecialAt spot.location
  | .error _ => false

/-- The places that the ways from a source lead to. -/
def Below (fs : FileSystem) (source : Bytes) (s : Spot) : Prop :=
  ∃ location links, fs.resolveLinks source = .ok (location, links) ∧
    Relation.ReflTransGen fs.Leads { location, path := source, links } s

theorem Below.child {s c : Spot} (h : fs.Below source s) {name : Bytes}
    (hname : name ∈ fs.names s.location) (henter : fs.enter s name = .ok c) :
    fs.Below source c := by
  obtain ⟨location, links, hsource, hs⟩ := h
  exact ⟨location, links, hsource, hs.tail ⟨name, hname, henter⟩⟩

/-- Two file systems of which the latter has below a source what the former has, but
    for special files.  A name that leads to one is not there either, be it the name
    of a link; all other names lead where they led. -/
structure Spares (fs fs' : FileSystem) (source : Bytes) : Prop where
  resolves : fs'.resolveLinks source = fs.resolveLinks source
  node : ∀ s, fs.Below source s → fs.isSpecialAt s.location = false →
    fs'.node? s.location = fs.node? s.location
  names : ∀ s, fs.Below source s → fs.isDirectoryAt s.location → ∀ name,
    name ∈ fs'.names s.location ↔ name ∈ fs.names s.location ∧ fs.leadsToSpecial s name = false
  enter : ∀ s, fs.Below source s → fs.isDirectoryAt s.location → ∀ name ∈ fs'.names s.location,
    fs'.enter s name = fs.enter s name
  isLinkAt : ∀ s, fs.Below source s → fs.isDirectoryAt s.location → ∀ name ∈ fs'.names s.location,
    fs'.isLinkAt (name :: s.location) = fs.isLinkAt (name :: s.location)

theorem isSpecialAt_of_isDirectoryAt {loc : Location} (h : fs.isDirectoryAt loc) :
    fs.isSpecialAt loc = false := by
  unfold isDirectoryAt at h
  unfold isSpecialAt
  cases hnode : fs.node? loc with
  | none => simp [hnode] at h
  | some node =>
    have hdir : node.isDirectory = true := by simpa [hnode] using h
    simp [hdir]

theorem isSpecialAt_of_isLinkAt {loc : Location} (h : fs.isLinkAt loc) : fs.isSpecialAt loc := by
  unfold isLinkAt at h
  unfold isSpecialAt
  cases hnode : fs.node? loc with
  | none => rfl
  | some node =>
    cases node with
    | link target => rfl
    | _ => simp [hnode, Node.isLink] at h

/-! ### Removing them -/

/-- A file system from which some items were removed. -/
def without (fs : FileSystem) (gone : Location → Bool) : FileSystem :=
  { fs with
    items := fs.items.filter fun item => !gone item.1
    distinct := fs.distinct.sublist (List.filter_sublist.map Prod.fst) }

variable {gone : Location → Bool}

theorem lookup_without {loc : Location} (h : gone loc = false) (items : List (Location × Node)) :
    (items.filter fun item => !gone item.1).lookup loc = items.lookup loc := by
  induction items with
  | nil => rfl
  | cons item items ih =>
    cases hitem : gone item.1 with
    | true =>
      have hne : (loc == item.1) = false := by
        rw [beq_eq_false_iff_ne]
        rintro rfl
        rw [h] at hitem
        cases hitem
      rw [List.filter_cons_of_neg (by simp [hitem]), ih, List.lookup_cons, hne]
    | false =>
      rw [List.filter_cons_of_pos (by simp [hitem]), List.lookup_cons, List.lookup_cons, ih]

/-- What is not removed stays. -/
theorem node?_without {loc : Location} (h : gone loc = false) :
    (fs.without gone).node? loc = fs.node? loc := by
  have hitem : (fs.without gone).items.lookup loc = fs.items.lookup loc := lookup_without h fs.items
  rw [node?, node?, hitem]

theorem mem_names_without {dir : Location} {name : Bytes} :
    name ∈ (fs.without gone).names dir ↔ name ∈ fs.names dir ∧ gone (name :: dir) = false := by
  simp [mem_names, without]

/-- What a name leads to that is not the name of a link depends on the directory and
    the item only. -/
theorem enter_congr {dir : Spot} {name : Bytes}
    (hdir : fs'.node? dir.location = fs.node? dir.location)
    (hnode : fs'.node? (name :: dir.location) = fs.node? (name :: dir.location))
    (hlink : fs.isLinkAt (name :: dir.location) = false) : fs'.enter dir name = fs.enter dir name := by
  have hfollow : fs'.follow dir.links dir.location [name] =
      fs.follow dir.links dir.location [name] := by
    have hstride : fs'.stride dir.location name = fs.stride dir.location name := by
      rw [stride, stride, hdir, hnode]
    cases hat : fs.stride dir.location name with
    | error failure => rw [follow_stop hat, follow_stop (hstride.trans hat)]
    | ok next =>
      cases next with
      | place loc =>
        rw [follow_place hat, follow_place (hstride.trans hat), follow_nil, follow_nil]
      | link target => simp [isLinkAt, link_of_stride hat, Node.isLink] at hlink
  rw [enter, enter, isLinkAt, isLinkAt, hnode, hfollow]

/-- **Removing special files and the links to them** leaves out just these below a
    source, if all other links lead where they led. -/
theorem spares_without (hsource : (fs.without gone).resolveLinks source = fs.resolveLinks source)
    (hstays : ∀ s, fs.Below source s → fs.isSpecialAt s.location = false → gone s.location = false)
    (hgone : ∀ s, fs.Below source s → fs.isDirectoryAt s.location →
      ∀ name ∈ fs.names s.location, gone (name :: s.location) = fs.leadsToSpecial s name)
    (hlinks : ∀ s, fs.Below source s → ∀ name, fs.isLinkAt (name :: s.location) →
      gone (name :: s.location) = false → (fs.without gone).enter s name = fs.enter s name) :
    fs.Spares (fs.without gone) source where
  resolves := hsource
  node s hs h := node?_without (hstays s hs h)
  names s hs hdir name := by
    rw [mem_names_without]
    exact and_congr_right fun hname => by rw [hgone s hs hdir name hname]
  enter s hs hdir name hname := by
    obtain ⟨-, hkept⟩ := mem_names_without.1 hname
    have hat : (fs.without gone).node? s.location = fs.node? s.location :=
      node?_without (hstays s hs (isSpecialAt_of_isDirectoryAt hdir))
    cases hlink : fs.isLinkAt (name :: s.location) with
    | true => exact hlinks s hs name hlink hkept
    | false => exact enter_congr hat (node?_without hkept) hlink
  isLinkAt s _ _ name hname := by
    rw [FileSystem.isLinkAt, FileSystem.isLinkAt, node?_without (mem_names_without.1 hname).2]

end FileSystem

/-! ## Walks without special files -/

namespace Walk

/-- A walk without some of the places. -/
def sparing (keep : Spot → Bool) (w : Walk) : Walk :=
  { w with spots := w.spots.filter keep }

variable {keep : Spot → Bool}

theorem andThen_sparing (w : Walk) (next : Unit → Walk) :
    (w.andThen next).sparing keep = (w.sparing keep).andThen fun u => (next u).sparing keep := by
  unfold andThen
  cases hhalt : w.halt with
  | some cause => simp [sparing, hhalt]
  | none => simp [sparing, hhalt]

theorem empty_andThen (next : Unit → Walk) : ({} : Walk).andThen next = next () := by
  simp [andThen]

theorem mem_spots_andThen {w : Walk} {next : Unit → Walk} {s : Spot}
    (h : s ∈ (w.andThen next).spots) : s ∈ w.spots ∨ s ∈ (next ()).spots := by
  unfold andThen at h
  split at h
  · exact .inl h
  · exact List.mem_append.1 h

/-- Walks from some of the starts only, if the others add nothing. -/
theorem inTurn_sparing {α : Type} {go go' : α → Walk} {stays : α → Bool} {l : List α}
    (hstays : ∀ a ∈ l, stays a → go' a = (go a).sparing keep)
    (hgoes : ∀ a ∈ l, stays a = false → (go a).sparing keep = {}) :
    inTurn go' (l.filter stays) = (inTurn go l).sparing keep := by
  induction l with
  | nil => rfl
  | cons a l ih =>
    have hrest := ih (fun a' ha' => hstays a' (List.mem_cons_of_mem _ ha'))
      (fun a' ha' => hgoes a' (List.mem_cons_of_mem _ ha'))
    rw [inTurn, andThen_sparing, ← hrest]
    cases ha : stays a with
    | true =>
      rw [List.filter_cons_of_pos ha, inTurn, hstays a List.mem_cons_self ha]
    | false =>
      rw [List.filter_cons_of_neg (by simp [ha]), hgoes a List.mem_cons_self ha, empty_andThen]

end Walk

namespace FileSystem

variable {fs fs' : FileSystem} {source : Bytes}

/-- Whether what a walk has come to is a directory or a file. -/
def isPlain (fs : FileSystem) (s : Spot) : Bool := !fs.isSpecialAt s.location

theorem Spares.sortedNames (h : fs.Spares fs' source) {here : Spot} (hhere : fs.Below source here)
    (hdir : fs.isDirectoryAt here.location) : fs'.sortedNames here.location =
      (fs.sortedNames here.location).filter fun name => !fs.leadsToSpecial here name := by
  refine sortedNames_eq_of_pairwise ((pairwise_sortedNames _).filter _) fun name => ?_
  rw [h.names here hhere hdir, List.mem_filter, FileSystem.sortedNames, List.mem_mergeSort]
  simp

theorem Spares.isDirectoryAt (h : fs.Spares fs' source) {s : Spot} (hs : fs.Below source s)
    (hplain : fs.isSpecialAt s.location = false) :
    fs'.isDirectoryAt s.location = fs.isDirectoryAt s.location := by
  rw [FileSystem.isDirectoryAt, FileSystem.isDirectoryAt, h.node s hs hplain]

/-- The walk from one of the names in a directory. -/
def tourOf (fs : FileSystem) (levels : Nat) (above : List Spot) (here : Spot) (name : Bytes) : Walk :=
  match fs.enter here name with
  | .error failure => .haltedAt (joinPath here.path name) failure
  | .ok spot =>
    if fs.isDirectoryAt spot.location then
      match fs.ledBackTo (name :: here.location) spot.location (here :: above) with
      | some ancestor =>
        { halt := some (.cycle (Utf8.display spot.path) (Utf8.display ancestor.path)) }
      | none => fs.tour levels (here :: above) spot
    else { spots := [spot] }

theorem tour_succ (levels : Nat) (above : List Spot) (here : Spot) :
    fs.tour (levels + 1) above here = Walk.andThen { spots := [here] } fun _ =>
      if isTooLong here.path then .haltedAt here.path .nameTooLong
      else Walk.inTurn (fs.tourOf levels above here) (fs.sortedNames here.location) := by
  rw [FileSystem.tour]
  rfl

/-- Nothing is left of the walk from a name that leads to a special file. -/
theorem tourOf_special {here : Spot} {name : Bytes} (h : fs.leadsToSpecial here name) (levels : Nat)
    (above : List Spot) : (fs.tourOf levels above here name).sparing fs.isPlain = {} := by
  unfold leadsToSpecial at h
  unfold tourOf
  cases henter : fs.enter here name with
  | error failure => rw [henter] at h; cases h
  | ok spot =>
    rw [henter] at h
    have hspecial : fs.isSpecialAt spot.location := h
    have hleaf : fs.isDirectoryAt spot.location = false := by
      by_contra hdir
      rw [isSpecialAt_of_isDirectoryAt (by simpa using hdir)] at hspecial
      cases hspecial
    simp [hleaf, Walk.sparing, isPlain, hspecial]

/-- The walk from a name that leads elsewhere, if it is as said in a directory that
    it leads to. -/
theorem Spares.tourOf (h : fs.Spares fs' source) {levels : Nat} {above : List Spot} {here : Spot}
    (hhere : fs.Below source here) (hdir : fs.isDirectoryAt here.location) {name : Bytes}
    (hname : name ∈ fs.names here.location) (hplain : fs.leadsToSpecial here name = false)
    (hsub : ∀ spot, fs.Below source spot → fs.isDirectoryAt spot.location →
      fs'.tour levels (here :: above) spot =
        (fs.tour levels (here :: above) spot).sparing fs.isPlain) :
    fs'.tourOf levels above here name = (fs.tourOf levels above here name).sparing fs.isPlain := by
  have hname' : name ∈ fs'.names here.location :=
    (h.names here hhere hdir name).2 ⟨hname, hplain⟩
  have hback : ∀ loc, fs'.ledBackTo (name :: here.location) loc (here :: above) =
      fs.ledBackTo (name :: here.location) loc (here :: above) := by
    intro loc
    rw [ledBackTo, ledBackTo, h.isLinkAt here hhere hdir name hname']
  unfold FileSystem.tourOf
  rw [h.enter here hhere hdir name hname']
  cases henter : fs.enter here name with
  | error failure => rfl
  | ok spot =>
    have hbelow := hhere.child hname henter
    have hkept : fs.isSpecialAt spot.location = false := by
      simpa [leadsToSpecial, henter] using hplain
    dsimp only
    rw [h.isDirectoryAt hbelow hkept, hback]
    split
    · next hspot =>
      split
      · rfl
      · exact hsub spot hbelow hspot
    · simp [Walk.sparing, isPlain, hkept]

/-- **A tour without special files** is a tour from which they were left out. -/
theorem Spares.tour (h : fs.Spares fs' source) (levels : Nat) (above : List Spot) {here : Spot}
    (hhere : fs.Below source here) (hdir : fs.isDirectoryAt here.location) :
    fs'.tour levels above here = (fs.tour levels above here).sparing fs.isPlain := by
  induction levels generalizing above here with
  | zero => simp [FileSystem.tour, Walk.sparing, isPlain, isSpecialAt_of_isDirectoryAt hdir]
  | succ levels ih =>
    have hone : ({ spots := [here] } : Walk).sparing fs.isPlain = { spots := [here] } := by
      simp [Walk.sparing, isPlain, isSpecialAt_of_isDirectoryAt hdir]
    rw [tour_succ, tour_succ, Walk.andThen_sparing, hone]
    congr 1
    funext _
    split
    · rfl
    · rw [h.sortedNames hhere hdir]
      refine Walk.inTurn_sparing (fun name hname hstays => ?_) fun name _ hgoes => ?_
      · exact h.tourOf hhere hdir (List.mem_mergeSort.1 hname) (by simpa using hstays)
          fun spot hspot => ih (here :: above) hspot
      · exact tourOf_special (by simpa using hgoes) levels above

/-- A tour stays below a source. -/
theorem Below.tour {here s : Spot} (hhere : fs.Below source here) {levels : Nat}
    {above : List Spot} (hs : s ∈ (fs.tour levels above here).spots) : fs.Below source s := by
  induction levels generalizing above here with
  | zero =>
    rw [FileSystem.tour, List.mem_singleton] at hs
    exact hs ▸ hhere
  | succ levels ih =>
    rw [tour_succ] at hs
    rcases Walk.mem_spots_andThen hs with hs | hs
    · exact List.mem_singleton.1 hs ▸ hhere
    split at hs
    · cases hs
    obtain ⟨name, hname, hs⟩ := Walk.mem_spots_inTurn hs
    unfold FileSystem.tourOf at hs
    split at hs
    · cases hs
    next spot henter =>
    have hspot := hhere.child (List.mem_mergeSort.1 hname) henter
    split at hs
    · split at hs
      · cases hs
      · exact ih hspot hs
    · exact List.mem_singleton.1 hs ▸ hspot

theorem below_of_walk {w : Walk} (hwalk : fs.walk source = .ok w) {s : Spot} (hs : s ∈ w.spots) :
    fs.Below source s := by
  obtain ⟨⟨location, _, _, links⟩, hsource, rfl, rfl, rfl⟩ := exists_tour_of_walk hwalk
  exact Below.tour ⟨location, links, hsource, .refl⟩ hs

theorem Spares.isDirectory (h : fs.Spares fs' source) (hdir : fs.isDirectory source) :
    fs'.isDirectory source := by
  obtain ⟨r, hr, hat⟩ := isDirectory_iff.1 hdir
  have hbelow : fs.Below source { location := r.1, path := source, links := r.2 } :=
    ⟨r.1, r.2, hr, .refl⟩
  refine isDirectory_iff.2 ⟨r, h.resolves.trans hr, ?_⟩
  exact (h.isDirectoryAt hbelow (isSpecialAt_of_isDirectoryAt hat)).trans hat

/-- **The walk of a tree without special files.** -/
theorem Spares.walk (h : fs.Spares fs' source) {w : Walk} (hdir : fs.isDirectory source)
    (hwalk : fs.walk source = .ok w) : fs'.walk source = .ok (w.sparing fs.isPlain) := by
  obtain ⟨r, hr, hdir⟩ := isDirectory_iff.1 hdir
  rw [FileSystem.walk, hr] at hwalk
  cases hwalk
  have hbelow : fs.Below source { location := r.1, path := source, links := r.2 } :=
    ⟨r.1, r.2, hr, .refl⟩
  rw [FileSystem.walk, h.resolves, hr]
  exact congrArg Except.ok (h.tour levelLimit [] hbelow hdir)

end FileSystem

end Tarball
