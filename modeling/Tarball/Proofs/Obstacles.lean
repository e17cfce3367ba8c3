/-
  What ends the walk of a tree.

  Below a source there are items under each way that goes on by names in directories,
  links standing for what their whole path leads to.  Some of them are in the way of a
  walk: a link that leads nowhere or back to a directory above it, a directory that
  is too far down, and one whose path is too long to be listed.  A file whose path is
  too long cannot be opened.  A walk comes to all items before the first of these,
  and ends there.

  * `FileSystem.itemAt?` is what is found at the end of a way, looked up by whole
    paths;
  * `FileSystem.obstacle?` is what an item is in the way with, and
    `FileSystem.FirstObstacle` says of a way that there is nothing before it;
  * `FileSystem.Stands` says of a place that a walk has come to it by its way;
  * `FileSystem.Finds` says of a fault that it is that of the first obstacle behind a
    way, and `FileSystem.walk_finds` that the fault of a walk is.
-/
import Mathlib.Data.List.Find
import Tarball.Proofs.Imported

namespace Tarball
namespace FileSystem

/-! ## Items at the end of a way -/

section
variable (fs : FileSystem) (source : Bytes)

/-- The path of an item below a source, by the names on the way to it, innermost
    first. -/
def pathTo (source : Bytes) : List Bytes → Bytes
  | [] => source
  | name :: below => joinPath (pathTo source below) name

/-- Whether there is a directory at a location with a name in it. -/
def lists (dir : Location) (name : Bytes) : Bool :=
  fs.isDirectoryAt dir && decide (name ∈ fs.names dir)

/-- What is found at the end of a way from a source.  A link stands for what its
    whole path leads to. -/
def itemAt? : List Bytes → Option Location
  | [] => (fs.resolve source).toOption
  | name :: below =>
    (itemAt? below).bind fun dir =>
      if fs.lists dir name then
        if fs.isLinkAt (name :: dir) then (fs.resolve (pathTo source (name :: below))).toOption
        else some (name :: dir)
      else none

/-- Whether a way ends with the name of a link. -/
def endsInLink : List Bytes → Bool
  | [] => false
  | name :: below =>
    (fs.itemAt? source below).any fun dir => fs.lists dir name && fs.isLinkAt (name :: dir)

/-! ## Obstacles -/

/-- A link that cannot be followed, or that leads back to a directory on the way to
    it, the innermost one if there are several. -/
def badLink? (below : List Bytes) : Option Cause :=
  if fs.endsInLink source below then
    match fs.resolve (pathTo source below) with
    | .ok loc =>
      (below.tail.tails.find? fun upper => fs.itemAt? source upper = some loc).map fun upper =>
        .cycle (Utf8.display (pathTo source below)) (Utf8.display (pathTo source upper))
    | .error (.system failure) => some (.item (Utf8.display (pathTo source below)) failure)
    | .error _ => none
  else none

/-- A directory that is too far down. -/
def deepDirectory? (below : List Bytes) : Option Cause :=
  if levelLimit ≤ below.length ∧ (fs.itemAt? source below).any fs.isDirectoryAt then
    some (.tooDeep (Utf8.display (pathTo source below)))
  else none

/-- A directory that cannot be listed or a file that cannot be opened, since its path
    is too long. -/
def outOfReach? (below : List Bytes) : Option Cause :=
  if isTooLong (pathTo source below) then
    match (fs.itemAt? source below).bind fs.node? with
    | some (.directory _) => some (.item (Utf8.display (pathTo source below)) .nameTooLong)
    | some (.file _ _) => some (.system .nameTooLong)
    | _ => none
  else none

/-- What an item is in the way with.  A bad link comes first, and the depth before the
    length of a path. -/
def obstacle? (below : List Bytes) : Option Cause :=
  ((fs.badLink? source below).or (fs.deepDirectory? source below)).or (fs.outOfReach? source below)

/-- An obstacle with none before it, a directory being before all that is in it, and
    the lesser name before the greater one. -/
structure FirstObstacle (below : List Bytes) (cause : Cause) : Prop where
  there : fs.obstacle? source below = some cause
  first : ∀ other, (fs.obstacle? source other).isSome → below.reverse ≤ other.reverse

end

/-- A file system whose names are those that items can have: each is text, and neither
    too long nor with a NUL in it. -/
def Legible (fs : FileSystem) : Prop :=
  ∀ item ∈ fs.items, ∀ name ∈ item.1,
    ProperName name ∧ name.length ≤ maxName ∧ 0 ∉ name ∧ (Utf8.decode? name).isSome

instance (fs : FileSystem) : Decidable fs.Legible :=
  inferInstanceAs (Decidable (∀ item ∈ fs.items, ∀ name ∈ item.1, _ ∧ _ ∧ _ ∧ _))

variable {fs : FileSystem} {source : Bytes}

theorem Legible.named (h : fs.Legible) : fs.Named :=
  fun item hitem name hname => (h item hitem name hname).1

/-! ## Paths of items -/

theorem joinPath_ne_nil {path : Bytes} (h : path ≠ []) (name : Bytes) : joinPath path name ≠ [] := by
  unfold joinPath
  split <;> simp [h]

theorem head?_joinPath {path : Bytes} (h : path ≠ []) (name : Bytes) :
    (joinPath path name).head? = path.head? := by
  obtain ⟨c, path, rfl⟩ := List.exists_cons_of_ne_nil h
  unfold joinPath
  split <;> rfl

theorem pathNames_of_notMem {name : Bytes} (h : slashByte ∉ name) : pathNames name = [name] := by
  have hplain : ∀ part ∈ [name], slashByte ∉ part := List.forall_mem_singleton.2 h
  have hcut := List.splitOn_intercalate slashByte hplain (List.cons_ne_nil name [])
  rwa [show [slashByte].intercalate [name] = name by simp] at hcut

/-- A path with one more name has that name at its end, in the place of the empty one
    behind a slash. -/
theorem pathNames_joinPath {path name : Bytes} (hpath : path ≠ []) (hname : slashByte ∉ name) :
    ∃ before, pathNames (joinPath path name) = before ++ [name] ∧
      (pathNames path = before ∨ pathNames path = before ++ [[]]) := by
  unfold joinPath
  split
  · next h =>
    obtain ⟨q, rfl⟩ := List.getLast?_eq_some_iff.1 (h.resolve_left hpath)
    refine ⟨pathNames q, ?_, .inr ?_⟩
    · rw [List.append_assoc, List.singleton_append, pathNames, List.splitOn_append_cons_self]
      exact congrArg _ (pathNames_of_notMem hname)
    · rw [pathNames, List.splitOn_append_cons_self]
      rfl
  · refine ⟨pathNames path, ?_, .inl rfl⟩
    rw [pathNames, List.splitOn_append_cons_self]
    exact congrArg _ (pathNames_of_notMem hname)

/-- A path with one more name leads from where the path leads to by that name. -/
theorem follow_joinPath {links left : Nat} {here loc : Location} {path name : Bytes} (hpath : path ≠ [])
    (hname : slashByte ∉ name) (h : fs.follow links here (pathNames path) = .ok (loc, left)) :
    fs.follow links here (pathNames (joinPath path name)) = fs.follow left loc [name] := by
  obtain ⟨before, hjoin, hbefore⟩ := pathNames_joinPath hpath hname
  rw [hjoin, follow_append]
  rcases hbefore with hbefore | hbefore
  · rw [← hbefore, h]
    rfl
  · rw [hbefore, follow_append] at h
    cases hway : fs.follow links here before with
    | error failure => rw [hway] at h; cases h
    | ok r =>
      rw [hway] at h
      have hstay : fs.follow r.2 r.1 [[]] = .ok (loc, left) := h
      cases hstride : fs.stride r.1 [] with
      | error failure => rw [follow_stop hstride] at hstay; cases hstay
      | ok next =>
        obtain ⟨m, hdir⟩ := directory_of_stride hstride
        rw [follow_place (stride_stay hdir (.inl rfl)), follow_nil] at hstay
        cases hstay
        rfl

theorem zero_notMem_joinPath {path name : Bytes} (hpath : 0 ∉ path) (hname : 0 ∉ name) :
    0 ∉ joinPath path name := by
  have hslash : (0 : UInt8) ≠ slashByte := by decide
  unfold joinPath
  split <;> simp [hpath, hname, hslash]

theorem resolveLinks_joinPath {path name : Bytes} {loc : Location} {links : Nat}
    (h : fs.resolveLinks path = .ok (loc, links)) (hname : slashByte ∉ name) (hnul : 0 ∉ name)
    (hshort : isTooLong (joinPath path name) = false) :
    fs.resolveLinks (joinPath path name) = (fs.follow links loc [name]).mapError .system := by
  obtain ⟨hpathNul, -, hpath, hfollow⟩ := resolveLinks_ok_iff.1 h
  have hstart : start fs.workingDirectory (joinPath path name) = start fs.workingDirectory path := by
    rw [start, start, head?_joinPath hpath]
  rw [resolveLinks, if_neg (zero_notMem_joinPath hpathNul hnul), hshort, if_neg Bool.false_ne_true,
    if_neg (joinPath_ne_nil hpath name), hstart, follow_joinPath hpath hname hfollow]

/-! ## What a name leads to -/

theorem lists_iff {dir : Location} {name : Bytes} :
    fs.lists dir name ↔ fs.isDirectoryAt dir ∧ name ∈ fs.names dir := by
  simp [lists]

/-- What is listed is there, under a name that it can have. -/
theorem Legible.of_lists (h : fs.Legible) {dir : Location} {name : Bytes} (hlists : fs.lists dir name) :
    (∃ m, fs.node? dir = some (.directory m)) ∧ (∃ node, fs.node? (name :: dir) = some node) ∧
      ProperName name ∧ name.length ≤ maxName ∧ 0 ∉ name ∧ (Utf8.decode? name).isSome := by
  obtain ⟨hdir, hname⟩ := lists_iff.1 hlists
  obtain ⟨node, hitem⟩ := mem_names.1 hname
  refine ⟨?_, ?_, h _ hitem name List.mem_cons_self⟩
  · unfold isDirectoryAt at hdir
    obtain ⟨here, hhere, hkind⟩ := (Option.any_eq_true _ _).1 hdir
    cases here with
    | directory m => exact ⟨m, hhere⟩
    | _ => cases hkind
  · cases hnone : fs.items.lookup (name :: dir) with
    | some other => exact ⟨other, by rw [node?, hnone]⟩
    | none =>
      have hother := List.lookup_eq_none_iff.1 hnone _ hitem
      simp at hother

/-- A name of an item that is no link leads to the item. -/
theorem follow_name {links : Nat} {dir : Location} {name : Bytes} (h : fs.Legible)
    (hlists : fs.lists dir name) (hlink : fs.isLinkAt (name :: dir) = false) :
    fs.follow links dir [name] = .ok (name :: dir, links) := by
  obtain ⟨⟨m, hdir⟩, ⟨node, hnode⟩, ⟨hstay, hup, -⟩, hlong, -⟩ := h.of_lists hlists
  rw [follow_cons, stride_eq hdir hstay hup (Nat.not_lt.2 hlong), hnode]
  cases node with
  | link target => simp [isLinkAt, hnode, Node.isLink] at hlink
  | _ => exact follow_nil _ _ _

/-- A place that a walk has come to by its way: what is found there, and what its path
    leads to as long as that is not too long. -/
structure Stands (fs : FileSystem) (source : Bytes) (s : Spot) : Prop where
  here : fs.itemAt? source s.below = some s.location
  path : s.path = pathTo source s.below
  noNul : 0 ∉ s.path
  links : isTooLong s.path = false → fs.resolveLinks s.path = .ok (s.location, s.links)

theorem isTooLong_of_joinPath {path name : Bytes} (h : isTooLong (joinPath path name) = false) :
    isTooLong path = false := by
  have hlength : path.length ≤ (joinPath path name).length := by
    unfold joinPath
    split <;> simp
  unfold isTooLong at h ⊢
  simp only [decide_eq_false_iff_not, Nat.not_le] at h ⊢
  omega

theorem itemAt?_nil {r : Location × Nat} (h : fs.resolveLinks source = .ok r) :
    fs.itemAt? source [] = some r.1 := by
  rw [itemAt?, resolve_of_resolveLinks h]
  rfl

section
variable {s : Spot} {name : Bytes}

/-- The source itself. -/
theorem Stands.top (h : fs.resolveLinks source = .ok (s.location, s.links)) (hpath : s.path = source)
    (hbelow : s.below = []) : fs.Stands source s where
  here := by rw [hbelow]; exact itemAt?_nil h
  path := by rw [hbelow]; exact hpath
  noNul := by rw [hpath]; exact (resolveLinks_ok_iff.1 h).1
  links _ := by rw [hpath]; exact h

/-- Below a directory, what is no directory is not the source itself. -/
theorem Stands.below_ne_nil (h : fs.Stands source s) (hdir : fs.isDirectory source)
    (hleaf : fs.isDirectoryAt s.location = false) : s.below ≠ [] := by
  intro hnone
  obtain ⟨r, hr, hat⟩ := isDirectory_iff.1 hdir
  have hhere := h.here
  rw [hnone, itemAt?_nil hr] at hhere
  rw [Option.some.inj hhere, hleaf] at hat
  cases hat

theorem Stands.itemAt?_cons (h : fs.Stands source s) (hlists : fs.lists s.location name) :
    fs.itemAt? source (name :: s.below) =
      if fs.isLinkAt (name :: s.location) then (fs.resolve (joinPath s.path name)).toOption
      else some (name :: s.location) := by
  rw [itemAt?, h.here, Option.bind_some, if_pos hlists, pathTo, ← h.path]

theorem Stands.endsInLink_cons (h : fs.Stands source s) (hlists : fs.lists s.location name) :
    fs.endsInLink source (name :: s.below) = fs.isLinkAt (name :: s.location) := by
  rw [endsInLink, h.here, Option.any_some, hlists, Bool.true_and]

/-- A walk comes to an item that is no link. -/
theorem Stands.enter_item (h : fs.Stands source s) (hfs : fs.Legible)
    (hlists : fs.lists s.location name) (hlink : fs.isLinkAt (name :: s.location) = false) :
    ∃ c, fs.enter s name = .ok c ∧ c.below = name :: s.below ∧ c.location = name :: s.location ∧
      fs.Stands source c := by
  obtain ⟨-, -, ⟨-, -, hslash⟩, -, hnul, -⟩ := hfs.of_lists hlists
  have hfollow : ∀ links, fs.follow links s.location [name] = .ok (name :: s.location, links) :=
    fun links => follow_name hfs hlists hlink
  refine ⟨s.child name (name :: s.location) s.links,
    enter_ok_iff.2 ⟨by rw [hlink]; rfl, _, hfollow _, rfl⟩, rfl, rfl, ?_⟩
  refine ⟨?_, ?_, zero_notMem_joinPath h.noNul hnul, fun hshort => ?_⟩
  · exact (h.itemAt?_cons hlists).trans (by rw [hlink]; rfl)
  · exact congrArg (joinPath · name) h.path
  · have htop := h.links (isTooLong_of_joinPath hshort)
    exact (resolveLinks_joinPath htop hslash hnul hshort).trans (by rw [hfollow]; rfl)

/-- A walk comes to what a link leads to, or fails as the link does. -/
theorem Stands.enter_link (h : fs.Stands source s) (hfs : fs.Legible)
    (hlists : fs.lists s.location name) (hlink : fs.isLinkAt (name :: s.location)) :
    (∃ failure, fs.resolve (joinPath s.path name) = .error (.system failure) ∧
        fs.enter s name = .error failure) ∨
      ∃ c, fs.enter s name = .ok c ∧ c.below = name :: s.below ∧
        fs.resolve (joinPath s.path name) = .ok c.location ∧ fs.Stands source c := by
  obtain ⟨-, -, ⟨-, -, hslash⟩, -, hnul, -⟩ := hfs.of_lists hlists
  cases hlong : isTooLong (joinPath s.path name) with
  | true =>
    refine .inl ⟨.nameTooLong, ?_, by rw [enter, hlink, hlong]; rfl⟩
    rw [resolve, resolveLinks, if_neg (zero_notMem_joinPath h.noNul hnul), if_pos hlong]
    rfl
  | false =>
    have htop := h.links (isTooLong_of_joinPath hlong)
    have hjoin := resolveLinks_joinPath htop hslash hnul hlong
    cases hfollow : fs.follow s.links s.location [name] with
    | error failure =>
      refine .inl ⟨failure, ?_, ?_⟩
      · rw [resolve, hjoin, hfollow]
        rfl
      · rw [enter, hlong, Bool.and_false, if_neg Bool.false_ne_true, hfollow]
        rfl
    | ok r =>
      rw [hfollow] at hjoin
      have hresolve : fs.resolve (joinPath s.path name) = .ok r.1 := resolve_of_resolveLinks hjoin
      refine .inr ⟨s.child name r.1 r.2, enter_ok_iff.2 ⟨by rw [hlong, Bool.and_false], r, hfollow, rfl⟩,
        rfl, hresolve, ?_, ?_, zero_notMem_joinPath h.noNul hnul, fun _ => hjoin⟩
      · exact (h.itemAt?_cons hlists).trans (by rw [if_pos hlink, hresolve]; rfl)
      · exact congrArg (joinPath · name) h.path

/-- A walk has come to all places below a source by their ways. -/
theorem Below.stands (h : fs.Below source s) (hfs : fs.Legible) : fs.Stands source s := by
  obtain ⟨location, links, hsource, hs⟩ := h
  induction hs with
  | refl => exact .top hsource rfl rfl
  | tail _ hlead ih =>
    obtain ⟨name, hname, henter⟩ := hlead
    obtain ⟨m, hdir⟩ := directory_of_enter henter
    have hlists : fs.lists _ name := lists_iff.2 ⟨isDirectoryAt_eq hdir, hname⟩
    cases hlink : fs.isLinkAt (name :: _) with
    | false =>
      obtain ⟨c, hc, -, -, hstands⟩ := ih.enter_item hfs hlists hlink
      exact Except.ok.inj (hc.symm.trans henter) ▸ hstands
    | true =>
      rcases ih.enter_link hfs hlists hlink with ⟨failure, -, hfails⟩ | ⟨c, hc, -, -, hstands⟩
      · cases hfails.symm.trans henter
      · exact Except.ok.inj (hc.symm.trans henter) ▸ hstands

end

/-! ## Faults of a walk -/

end FileSystem

namespace Walk

variable {spotFault : Spot → Option Cause}

/-- What a walk comes to in the end: the fault of the first place that has one, or why
    the walk halts. -/
def fault (spotFault : Spot → Option Cause) (w : Walk) : Option Cause :=
  (w.spots.findSome? spotFault).or w.halt

theorem fault_congr {otherFault : Spot → Option Cause} {w : Walk}
    (h : ∀ s ∈ w.spots, spotFault s = otherFault s) : w.fault spotFault = w.fault otherFault := by
  rw [fault, fault, ← List.head?_filterMap, ← List.head?_filterMap, List.filterMap_congr h]

theorem fault_andThen (w : Walk) (next : Unit → Walk) :
    (w.andThen next).fault spotFault = (w.fault spotFault).or ((next ()).fault spotFault) := by
  unfold Walk.andThen fault
  cases hhalt : w.halt with
  | some cause =>
    dsimp only
    rw [hhalt, Option.or_assoc, Option.some_or]
  | none =>
    dsimp only
    rw [List.findSome?_append, Option.or_none, Option.or_assoc]

theorem fault_inTurn {α : Type} (go : α → Walk) (l : List α) :
    (inTurn go l).fault spotFault = l.findSome? fun a => (go a).fault spotFault := by
  induction l with
  | nil => rfl
  | cons a l ih =>
    rw [inTurn, fault_andThen, ih, List.findSome?_cons]
    cases (go a).fault spotFault <;> rfl

end Walk

namespace FileSystem

variable {fs : FileSystem} {source : Bytes}

/-! ## The first obstacle -/

/-- Where there is no directory with the name on the way there is nothing. -/
theorem exists_lists_cons {name : Bytes} {below : List Bytes}
    (h : fs.itemAt? source (name :: below) ≠ none ∨ fs.endsInLink source (name :: below)) :
    ∃ dir, fs.itemAt? source below = some dir ∧ fs.lists dir name := by
  cases hdir : fs.itemAt? source below with
  | none => simp [itemAt?, endsInLink, hdir] at h
  | some dir =>
    refine ⟨dir, rfl, ?_⟩
    by_contra hlists
    simp [itemAt?, endsInLink, hdir, hlists] at h

/-- The same for any name on the way to an obstacle. -/
theorem exists_lists_of_obstacle? {rest below : List Bytes} {name : Bytes}
    (h : fs.obstacle? source (rest ++ name :: below) ≠ none) :
    ∃ dir, fs.itemAt? source below = some dir ∧ fs.lists dir name := by
  have hthere : ∀ rest : List Bytes, fs.itemAt? source (rest ++ name :: below) ≠ none ∨
      fs.endsInLink source (rest ++ name :: below) → ∃ dir, fs.itemAt? source below = some dir ∧
        fs.lists dir name := by
    intro rest
    induction rest with
    | nil => exact exists_lists_cons
    | cons last rest ih =>
      intro hlast
      obtain ⟨dir, hdir, -⟩ := exists_lists_cons hlast
      exact ih (.inl fun hnone => Option.some_ne_none dir (hdir.symm.trans hnone))
  refine hthere rest ?_
  by_contra hnone
  obtain ⟨hitem, hlink⟩ := not_or.1 hnone
  rw [ne_eq, not_not] at hitem
  simp [obstacle?, badLink?, deepDirectory?, outOfReach?, hitem, hlink] at h

/-- What is found at the end of a way has names on it that items can have. -/
theorem Legible.of_itemAt? (hfs : fs.Legible) {below : List Bytes}
    (h : fs.itemAt? source below ≠ none) :
    ∀ name ∈ below, ProperName name ∧ (Utf8.decode? name).isSome := by
  induction below with
  | nil => simp
  | cons name below ih =>
    obtain ⟨dir, hdir, hlists⟩ := exists_lists_cons (.inl h)
    obtain ⟨-, -, hproper, -, -, htext⟩ := hfs.of_lists hlists
    exact List.forall_mem_cons.2 ⟨⟨hproper, htext⟩, ih (by rw [hdir]; exact Option.some_ne_none dir)⟩

/-- A way that goes on from another one is the same or goes on by a name. -/
theorem eq_or_exists_of_suffix {upper below : List Bytes} (h : upper <:+ below) :
    below = upper ∨ ∃ rest name, below = rest ++ name :: upper := by
  obtain ⟨more, rfl⟩ := h
  rcases List.eq_nil_or_concat more with rfl | ⟨rest, name, rfl⟩
  · exact .inl rfl
  · exact .inr ⟨rest, name, by simp⟩

/-- Whether a fault is that of the first obstacle behind a way, if there is any. -/
def Finds (fs : FileSystem) (source : Bytes) (upper : List Bytes) : Option Cause → Prop
  | none => ∀ below, upper <:+ below → fs.obstacle? source below = none
  | some cause => ∃ below, upper <:+ below ∧ fs.obstacle? source below = some cause ∧
      ∀ other, upper <:+ other → (fs.obstacle? source other).isSome → below.reverse ≤ other.reverse

/-- What is in the way itself is so before all that is behind it. -/
theorem Finds.self {upper : List Bytes} {cause : Cause} (h : fs.obstacle? source upper = some cause) :
    fs.Finds source upper (some cause) := by
  refine ⟨upper, List.suffix_rfl, h, fun other hother _ => ?_⟩
  exact (List.reverse_prefix.2 hother).le

/-- What is behind a directory is behind one of its names. -/
theorem Finds.directory {upper : List Bytes} {names : List Bytes} {go : Bytes → Option Cause}
    (hself : fs.obstacle? source upper = none) (hsorted : names.Pairwise (· < ·))
    (hnames : ∀ rest name, fs.obstacle? source (rest ++ name :: upper) ≠ none → name ∈ names)
    (hgo : ∀ name ∈ names, fs.Finds source (name :: upper) (go name)) :
    fs.Finds source upper (names.findSome? go) := by
  have hbehind : ∀ rest name, name :: upper <:+ rest ++ name :: upper :=
    fun rest name => List.suffix_append _ _
  cases hfind : names.findSome? go with
  | none =>
    intro below hbelow
    rcases eq_or_exists_of_suffix hbelow with rfl | ⟨rest, name, rfl⟩
    · exact hself
    by_contra hobstacle
    have hname := hnames rest name hobstacle
    have hfinds := hgo name hname
    rw [List.findSome?_eq_none_iff.1 hfind name hname] at hfinds
    exact hobstacle (hfinds _ (hbehind rest name))
  | some cause =>
    obtain ⟨before, first, after, rfl, hfirst, hbefore⟩ := List.findSome?_eq_some_iff.1 hfind
    have hfinds := hgo first (by simp)
    rw [hfirst] at hfinds
    obtain ⟨below, hbelow, hobstacle, hmin⟩ := hfinds
    refine ⟨below, (List.suffix_cons first upper).trans hbelow, hobstacle, fun other hother hsome => ?_⟩
    have hne : fs.obstacle? source other ≠ none := Option.isSome_iff_ne_none.1 hsome
    rcases eq_or_exists_of_suffix hother with rfl | ⟨rest, name, rfl⟩
    · exact absurd hself hne
    rcases List.mem_append.1 (hnames rest name hne) with hname | hname
    · -- the names before the first one with a fault have nothing behind them
      have hnone := hgo name (List.mem_append_left _ hname)
      rw [hbefore name hname] at hnone
      exact absurd (hnone _ (hbehind rest name)) hne
    rcases List.mem_cons.1 hname with rfl | hname
    · exact hmin _ (hbehind rest name) hsome
    · have hlt : first < name := List.rel_of_pairwise_cons (List.pairwise_append.1 hsorted).2.1 hname
      have hstart : upper.reverse ++ [first] <+: below.reverse := by
        simpa using List.reverse_prefix.2 hbelow
      have hstart' : upper.reverse ++ [name] <+: (rest ++ name :: upper).reverse := by simp
      exact List.le_of_lt (Walk.way_lt_way hlt hstart hstart')

/-! ## Walks to the first obstacle -/

/-- A file whose path is too long to be opened. -/
def longFile? (fs : FileSystem) (s : Spot) : Option Cause :=
  match fs.node? s.location with
  | some (.file _ _) => if isTooLong s.path then some (.system .nameTooLong) else none
  | _ => none

theorem longFile?_of_isDirectoryAt {s : Spot} (h : fs.isDirectoryAt s.location) :
    fs.longFile? s = none := by
  unfold longFile?
  split
  · next hnode => cases (isDirectoryAt_eq hnode).symm.trans h
  · rfl

/-- The directories on the way to a place, the innermost first: a walk has come to
    each of them by its way. -/
structure Stack (fs : FileSystem) (source : Bytes) (dirs : List Spot) (below : List Bytes) : Prop where
  ways : dirs.map Spot.below = below.tails
  stands : ∀ s ∈ dirs, fs.Stands source s
  directories : ∀ s ∈ dirs, fs.isDirectoryAt s.location

section
variable {here : Spot} {above : List Spot} {name : Bytes}

theorem Stack.top (h : fs.Stack source (here :: above) here.below) : fs.Stands source here :=
  h.stands here List.mem_cons_self

theorem Stack.push (h : fs.Stack source (here :: above) here.below) {c : Spot}
    (hbelow : c.below = name :: here.below) (hc : fs.Stands source c)
    (hdir : fs.isDirectoryAt c.location) : fs.Stack source (c :: here :: above) c.below where
  ways := by rw [List.map_cons, h.ways, hbelow, List.tails]
  stands := List.forall_mem_cons.2 ⟨hc, h.stands⟩
  directories := List.forall_mem_cons.2 ⟨hdir, h.directories⟩

/-- The innermost directory at a location, looked for by ways. -/
theorem Stack.find?_tails (h : fs.Stack source (here :: above) here.below) (loc : Location) :
    here.below.tails.find? (fun upper => fs.itemAt? source upper = some loc) =
      ((here :: above).find? (·.location = loc)).map Spot.below := by
  rw [← h.ways, List.find?_map]
  congr 1
  refine List.find?_congr fun s hs => ?_
  simp [(h.stands s hs).here]

/-- None of the directories is where there is no directory. -/
theorem Stack.find?_eq_none {dirs : List Spot} {below : List Bytes} (h : fs.Stack source dirs below)
    {loc : Location} (hleaf : fs.isDirectoryAt loc = false) :
    dirs.find? (·.location = loc) = none := by
  refine List.find?_eq_none.2 fun s hs hat => ?_
  rw [← of_decide_eq_true hat, h.directories s hs] at hleaf
  cases hleaf

/-- A link that can be followed is a bad one just if it leads back to one of the
    directories. -/
theorem Stack.badLink?_eq (h : fs.Stack source (here :: above) here.below)
    (hlists : fs.lists here.location name) (hlink : fs.isLinkAt (name :: here.location)) {c : Spot}
    (hbelow : c.below = name :: here.below) (hc : fs.Stands source c)
    (hresolve : fs.resolve (joinPath here.path name) = .ok c.location) :
    fs.badLink? source c.below = ((here :: above).find? (·.location = c.location)).map fun upper =>
      .cycle (Utf8.display c.path) (Utf8.display upper.path) := by
  have hpath : joinPath here.path name = pathTo source (name :: here.below) :=
    congrArg (joinPath · name) h.top.path
  rw [hc.path, hbelow, badLink?, h.top.endsInLink_cons hlists, if_pos hlink, ← hpath, hresolve]
  dsimp only
  rw [List.tail_cons, h.find?_tails, Option.map_map]
  cases hfound : (here :: above).find? (·.location = c.location) with
  | none => rfl
  | some upper =>
    have hupper := (h.stands upper (List.mem_of_find?_eq_some hfound)).path
    rw [Option.map_some, Option.map_some, Function.comp_apply, hupper]

/-- What is no directory and no bad link is in the way just if it is a file whose path
    is too long. -/
theorem finds_leaf {c : Spot} (hc : fs.Stands source c) (hleaf : fs.isDirectoryAt c.location = false)
    (hlink : fs.badLink? source c.below = none) :
    fs.Finds source c.below (fs.longFile? c) := by
  have hself : fs.obstacle? source c.below = fs.longFile? c := by
    have hshallow : fs.deepDirectory? source c.below = none := by
      simp [deepDirectory?, hc.here, hleaf]
    rw [obstacle?, hlink, hshallow, outOfReach?, hc.here, ← hc.path, Option.bind_some, longFile?]
    unfold isDirectoryAt at hleaf
    split
    · cases hnode : fs.node? c.location with
      | none => rfl
      | some node =>
        rw [hnode] at hleaf
        cases node with
        | directory m => cases hleaf
        | _ => rfl
    · split <;> rfl
  cases hfault : fs.longFile? c with
  | some cause => exact .self (hself.trans hfault)
  | none =>
    intro below hbelow
    rcases eq_or_exists_of_suffix hbelow with rfl | ⟨rest, name, rfl⟩
    · exact hself.trans hfault
    · by_contra hobstacle
      obtain ⟨dir, hdir, hlists⟩ := exists_lists_of_obstacle? hobstacle
      obtain rfl : c.location = dir := Option.some.inj (hc.here.symm.trans hdir)
      simp [lists, hleaf] at hlists

/-- Where a name leads to the walk of a directory it is that walk that finds the first
    obstacle, and otherwise the walk from the name does. -/
theorem tourOf_finds {levels : Nat} (hfs : fs.Legible) (hstack : fs.Stack source (here :: above) here.below)
    (hlists : fs.lists here.location name)
    (hsub : ∀ c : Spot, c.below = name :: here.below → fs.Stack source (c :: here :: above) c.below →
      fs.badLink? source c.below = none →
      fs.Finds source c.below ((fs.tour levels (here :: above) c).fault fs.longFile?)) :
    fs.Finds source (name :: here.below) ((fs.tourOf levels above here name).fault fs.longFile?) := by
  have hhere := hstack.top
  have hends := hhere.endsInLink_cons hlists
  unfold tourOf ledBackTo
  cases hlink : fs.isLinkAt (name :: here.location) with
  | false =>
    obtain ⟨c, henter, hbelow, hloc, hc⟩ := hhere.enter_item hfs hlists hlink
    have hgood : fs.badLink? source c.below = none := by
      rw [hbelow, badLink?, hends, hlink, if_neg Bool.false_ne_true]
    rw [henter, ← hbelow]
    dsimp only
    split
    · next hdir => exact hsub c hbelow (hstack.push hbelow hc hdir) hgood
    · next hdir =>
      have hleaf : fs.isDirectoryAt c.location = false := by simpa using hdir
      rw [Walk.fault, List.findSome?_singleton, Option.or_none]
      exact finds_leaf hc hleaf hgood
  | true =>
    rcases hhere.enter_link hfs hlists hlink with
      ⟨failure, hresolve, henter⟩ | ⟨c, henter, hbelow, hresolve, hc⟩
    · rw [henter]
      refine .self ?_
      have hpath : joinPath here.path name = pathTo source (name :: here.below) :=
        congrArg (joinPath · name) hhere.path
      rw [hpath] at hresolve ⊢
      rw [obstacle?, badLink?, hends, hlink, if_pos rfl, hresolve]
      rfl
    · have hback := hstack.badLink?_eq hlists hlink hbelow hc hresolve
      rw [henter, ← hbelow]
      dsimp only
      rw [if_pos rfl]
      split
      · next hdir =>
        cases hfound : (here :: above).find? (·.location = c.location) with
        | none => exact hsub c hbelow (hstack.push hbelow hc hdir) (by rw [hback, hfound]; rfl)
        | some upper =>
          refine .self ?_
          rw [obstacle?, hback, hfound]
          rfl
      · next hdir =>
        have hleaf : fs.isDirectoryAt c.location = false := by simpa using hdir
        rw [Walk.fault, List.findSome?_singleton, Option.or_none]
        exact finds_leaf hc hleaf (by rw [hback, hstack.find?_eq_none hleaf]; rfl)

/-- **A tour finds the first obstacle** behind the way to its directory. -/
theorem tour_finds {levels : Nat} (hfs : fs.Legible) (hstack : fs.Stack source (here :: above) here.below)
    (hlevels : here.below.length + levels = levelLimit) (hgood : fs.badLink? source here.below = none) :
    fs.Finds source here.below ((fs.tour levels above here).fault fs.longFile?) := by
  have hhere := hstack.top
  have hdir := hstack.directories here List.mem_cons_self
  have hone : fs.longFile? here = none := longFile?_of_isDirectoryAt hdir
  induction levels generalizing above here with
  | zero =>
    have hfault : (fs.tour 0 above here).fault fs.longFile? = some (.tooDeep (Utf8.display here.path)) := by
      simp [Walk.fault, tour, hone]
    rw [hfault]
    refine .self ?_
    rw [obstacle?, hgood, deepDirectory?, if_pos ⟨by omega, by rw [hhere.here]; exact hdir⟩, hhere.path]
    rfl
  | succ levels ih =>
    have hshallow : fs.deepDirectory? source here.below = none := if_neg fun h => by omega
    have hfault : (fs.tour (levels + 1) above here).fault fs.longFile? =
        if isTooLong here.path then some (.item (Utf8.display here.path) .nameTooLong)
        else (fs.sortedNames here.location).findSome? fun name =>
          (fs.tourOf levels above here name).fault fs.longFile? := by
      have hfirst : ({ spots := [here] } : Walk).fault fs.longFile? = none := by
        rw [Walk.fault, List.findSome?_singleton, hone]
        rfl
      rw [tour_succ, Walk.fault_andThen, hfirst, Option.none_or]
      split
      · rfl
      · exact Walk.fault_inTurn _ _
    rw [hfault]
    split
    · next hlong =>
      refine .self ?_
      obtain ⟨node, hnode, hkind⟩ := (Option.any_eq_true _ _).1 hdir
      cases node with
      | directory m =>
        rw [obstacle?, hgood, hshallow, outOfReach?, ← hhere.path, if_pos hlong, hhere.here,
          Option.bind_some, hnode]
        rfl
      | _ => cases hkind
    · next hshort =>
      have hself : fs.obstacle? source here.below = none := by
        rw [obstacle?, hgood, hshallow, outOfReach?, ← hhere.path, if_neg hshort]
        rfl
      refine .directory hself (pairwise_sortedNames _) (fun rest name hobstacle => ?_) fun name hname => ?_
      · obtain ⟨dir, hat, hlists⟩ := exists_lists_of_obstacle? hobstacle
        obtain rfl : here.location = dir := Option.some.inj (hhere.here.symm.trans hat)
        exact List.mem_mergeSort.2 (lists_iff.1 hlists).2
      · have hlists : fs.lists here.location name := lists_iff.2 ⟨hdir, List.mem_mergeSort.1 hname⟩
        refine tourOf_finds hfs hstack hlists fun c hbelow hpush hc => ?_
        have hlevels : c.below.length + levels = levelLimit := by
          rw [hbelow, List.length_cons]
          omega
        have hdirC := hpush.directories c List.mem_cons_self
        exact ih hpush hlevels hc hpush.top hdirC (longFile?_of_isDirectoryAt hdirC)

/-- **A walk finds the first obstacle** below its source, if there is any. -/
theorem walk_finds {walk : Walk} (hfs : fs.Legible) (hdir : fs.isDirectory source)
    (hwalk : fs.walk source = .ok walk) : fs.Finds source [] (walk.fault fs.longFile?) := by
  obtain ⟨here, hsource, hpath, hbelow, rfl⟩ := exists_tour_of_walk hwalk
  have hat : fs.isDirectoryAt here.location :=
    (Builder.isDirectoryAt_of_resolve (resolve_of_resolveLinks hsource)).trans hdir
  have hstands : fs.Stands source here := .top hsource hpath hbelow
  have hstack : fs.Stack source [here] here.below :=
    ⟨by simp [hbelow], List.forall_mem_singleton.2 hstands, List.forall_mem_singleton.2 hat⟩
  have hlevels : here.below.length + levelLimit = levelLimit := by
    rw [hbelow, List.length_nil, Nat.zero_add]
  have hgood : fs.badLink? source here.below = none := by rw [hbelow]; rfl
  rw [← hbelow]
  exact tour_finds hfs hstack hlevels hgood

theorem Finds.eq_none_iff {fault : Option Cause} (h : fs.Finds source [] fault) :
    fault = none ↔ ∀ below, fs.obstacle? source below = none := by
  cases fault with
  | none => exact iff_of_true rfl fun below => h below (List.nil_suffix)
  | some cause =>
    obtain ⟨below, -, hobstacle, -⟩ := h
    refine iff_of_false (Option.some_ne_none cause) fun hall => ?_
    exact Option.some_ne_none cause (hobstacle.symm.trans (hall below))

theorem Finds.eq_some_iff {fault : Option Cause} (h : fs.Finds source [] fault) (cause : Cause) :
    fault = some cause ↔ ∃ below, fs.FirstObstacle source below cause := by
  cases fault with
  | none =>
    refine iff_of_false (Option.some_ne_none cause).symm ?_
    rintro ⟨below, hthere, -⟩
    exact Option.some_ne_none cause (hthere.symm.trans (h below List.nil_suffix))
  | some found =>
    obtain ⟨below, -, hobstacle, hmin⟩ := h
    constructor
    · rintro ⟨⟩
      exact ⟨below, hobstacle, fun other => hmin other List.nil_suffix⟩
    · rintro ⟨other, hthere, hfirst⟩
      -- both are first
      have hle := hmin other List.nil_suffix (Option.isSome_iff_exists.2 ⟨cause, hthere⟩)
      have hge := hfirst below (Option.isSome_iff_exists.2 ⟨found, hobstacle⟩)
      obtain rfl := List.reverse_injective (List.le_antisymm hle hge)
      exact hobstacle.symm.trans hthere

end

end FileSystem
end Tarball
