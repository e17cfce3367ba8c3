/-
  What steps ask for.

  Every step comes down to requests, each for a place: a file that is imported
  to one with its content, a tree to one for each item that is a file or a
  directory.  A step that succeeds adds what its requests ask for, in their
  order, as long as it reads nothing that the archive is being written to.

  * `Asked` is a request for a place, and `Step.requests` all that a step asks
    for;
  * `Builder.adding` are the members after requests;
  * `Step.run_adds` says so of a step, `Step.Runs.adds` of steps one after the
    other.
-/
import Tarball.Proofs.Additions

namespace Tarball

/-- A request for a place in an archive. -/
structure Asked where
  request : Request
  place : Placement

/-- What importing a file asks for. -/
def fileRequest (fs : FileSystem) (root : Option String) (name : String) (source : Bytes)
    (mode : Option UInt32) : List Asked :=
  match fs.openPath source with
  | .ok content => [⟨Builder.storedFile name content mode, .entry root name⟩]
  | .error _ => []

/-- What importing an item of a tree asks for. -/
def itemRequest (fs : FileSystem) (root : Option String) (dest : String) (mode : Option UInt32)
    (spot : Spot) : List Asked :=
  match itemName dest spot.below.reverse, fs.node? spot.location with
  | .ok name, some (.directory _) => [⟨.directory name, .treeEntry root name⟩]
  | .ok name, some (.file _ bytes) =>
    let content := .stream { chunks := [bytes] } (UInt64.ofNat bytes.length)
    [⟨Builder.storedFile name content mode, .treeEntry root name⟩]
  | _, _ => []

/-- What opening an archive asks for: its root directory, if there is to be one. -/
def rootRequest (root : Option String) : List Asked :=
  if root.isSome then [⟨.directory "", .entry root ""⟩] else []

/-- What a step asks for, one request after the other. -/
def Step.requests (fs : FileSystem) (root : Option String) : Step → List Asked
  | .add r => [⟨r, .entry root r.name⟩]
  | .importFile name source mode => fileRequest fs root name source mode
  | .importTree dest source mode =>
    if fs.isDirectory source then
      match fs.walk source with
      | .ok walk => walk.spots.flatMap (itemRequest fs root dest mode)
      | .error _ => []
    else fileRequest fs root dest source mode
  | .close | .finish => []

/-- Whether a source has nothing in a place: neither it nor an item of its tree is
    there. -/
structure FileSystem.Apart (fs : FileSystem) (place : Option Location) (source : Bytes) : Prop where
  top : ∀ loc, fs.resolve source = .ok loc → place ≠ some loc
  items : ∀ walk, fs.walk source = .ok walk → ∀ spot ∈ walk.spots, place ≠ some spot.location

theorem FileSystem.apart_none (fs : FileSystem) (source : Bytes) : fs.Apart none source :=
  ⟨fun _ _ => nofun, fun _ _ _ _ => nofun⟩

namespace Builder

/-- The members after requests, one after the other. -/
def adding (b : Builder) (written : List Member) (asked : List Asked) : List Member :=
  asked.foldl (fun ms a => ms ++ b.added ms a.request a.place) written

theorem adding_append (b : Builder) (ms : List Member) (asked more : List Asked) :
    b.adding ms (asked ++ more) = b.adding (b.adding ms asked) more := by
  rw [adding, List.foldl_append]
  rfl

theorem Like.adding {b b' : Builder} (h : b.Like b') (ms : List Member) (asked : List Asked) :
    b.adding ms asked = b'.adding ms asked := by
  induction asked generalizing ms with
  | nil => rfl
  | cons a asked ih =>
    show b.adding (ms ++ b.added ms a.request a.place) asked = _
    rw [h.added, ih]
    rfl

/-- From one builder to another, by all that is asked for and nothing else. -/
structure Gains (asked : List Asked) (b b' : Builder) : Prop where
  members : b'.members = b.adding b.members asked
  like : b'.Like b

theorem Gains.refl (b : Builder) : Gains [] b b := ⟨rfl, .refl b⟩

theorem Gains.trans {asked more : List Asked} {b b' b'' : Builder} (h : Gains asked b b')
    (h' : Gains more b' b'') : Gains (asked ++ more) b b'' := by
  refine ⟨?_, h'.like.trans h.like⟩
  rw [h'.members, h.members, h.like.adding, adding_append]

/-- From one builder to another, by all that is asked for and without a failure
    before. -/
structure Adds (asked : List Asked) (b b' : Builder) : Prop extends Gains asked b b' where
  tallied : b'.Tallied

theorem Adds.refl {b : Builder} (hb : b.Tallied) : Adds [] b b := ⟨.refl b, hb⟩

theorem Adds.trans {asked more : List Asked} {b b' b'' : Builder} (h : Adds asked b b')
    (h' : Adds more b' b'') : Adds (asked ++ more) b b'' :=
  ⟨h.toGains.trans h'.toGains, h'.tallied⟩

section
variable {fs : FileSystem} {b b' : Builder}

theorem addAt_adds {r : Request} {p : Placement} (hp : p.Plain) (hb : b.Tallied)
    (h : addAt r p b = .ok () b') : Adds [⟨r, p⟩] b b' := by
  have hdoes : Does (fun _ => True) (addAt r p) b := addAt_does (fun _ => trivial) r b
  have hmoves : Moves _ b b' := hdoes.ok h
  have hadded := addAt_added hp hb.orderly (fun _ hkeep => hb.claimed hkeep p.name) h
  exact ⟨⟨hadded, hmoves.like⟩, hmoves.tallied hb⟩

theorem add_adds {r : Request} (hb : b.Tallied) (h : add r b = .ok () b') :
    Adds [⟨r, .entry b.root r.name⟩] b b' :=
  addAt_adds (Placement.plain_entry _ _) hb h

theorem addInTree_adds {r : Request} (hb : b.Tallied) (h : addInTree r b = .ok () b') :
    Adds [⟨r, .treeEntry b.root r.name⟩] b b' :=
  addAt_adds (Placement.plain_treeEntry _ _) hb h

theorem start_adds {o : Options} {sink : Sink} (h : start o sink = .ok () b) :
    Adds (rootRequest (fresh o sink).root) (fresh o sink) b := by
  have htallied := tallied_fresh o sink
  rw [start, addRoot_eq] at h
  unfold rootRequest
  split at h
  · next hroot => rw [if_pos hroot]; exact add_adds htallied h
  · next hroot => rw [if_neg hroot]; cases h; exact .refl htallied

theorem ofExcept_bind_ok {α β : Type} {x : Except Cause α} {f : α → Building β} {c : β}
    (h : ((MonadExcept.ofExcept x : Building α) >>= f) b = .ok c b') :
    ∃ a, x = .ok a ∧ f a b = .ok c b' := by
  cases x with
  | ok a => exact ⟨a, rfl, h⟩
  | error cause => cases h

theorem requireOpen_bind_ok {β : Type} {f : Unit → Building β} {c : β}
    (h : (requireOpen >>= f) b = .ok c b') : b.isOpen ∧ f () b = .ok c b' := by
  obtain ⟨_, b₁, hopen, h⟩ := bind_eq_ok.1 h
  rw [requireOpen_eq] at hopen
  split at hopen
  · next ho => cases hopen; exact ⟨ho, h⟩
  · cases hopen

theorem openNow_bind_ok {β : Type} {loc : Location} {f : Content → Building β} {c : β}
    (h : (openNow fs loc >>= f) b = .ok c b') :
    ∃ content, fs.openDuring b.sink loc = .ok content ∧ f content b = .ok c b' := by
  have heq : (openNow fs loc >>= f) b =
      ((MonadExcept.ofExcept (fs.openDuring b.sink loc) : Building Content) >>= f) b := rfl
  rw [heq] at h
  exact ofExcept_bind_ok h

/-- What is opened while an archive is being written is what is there, away from
    the archive. -/
theorem openDuring_of_ne {s : Sink} {loc : Location} (h : s.place ≠ some loc) :
    fs.openDuring s loc = fs.openAt loc := by
  rw [FileSystem.openDuring, if_neg h]

theorem openDuring_elsewhere {s : Sink} {loc here : Location} (hplace : s.place = some loc)
    (hapart : here ≠ loc) : fs.openDuring s here = fs.openAt here := by
  refine openDuring_of_ne ?_
  rw [hplace]
  intro he
  exact hapart (Option.some.inj he).symm

theorem importFile_ok {name : String} {source : Bytes} {mode : Option UInt32}
    (h : importFile fs name source mode b = .ok () b') :
    ∃ loc content, fs.resolve source = .ok loc ∧ fs.openDuring b.sink loc = .ok content ∧
      add (storedFile name content mode) b = .ok () b' := by
  obtain ⟨loc, hresolve, h⟩ := ofExcept_bind_ok h
  obtain ⟨content, hopen, h⟩ := openNow_bind_ok h
  exact ⟨loc, content, hresolve, hopen, h⟩

theorem importFile_adds {name : String} {source : Bytes} {mode : Option UInt32} (hb : b.Tallied)
    (hplace : b.sink.place = none) (h : importFile fs name source mode b = .ok () b') :
    Adds (fileRequest fs b.root name source mode) b b' := by
  obtain ⟨loc, content, hresolve, hopen, hadd⟩ := importFile_ok h
  rw [openDuring_of_ne (by simp [hplace])] at hopen
  have hpath : fs.openPath source = .ok content := by
    rw [FileSystem.openPath, hresolve]
    exact hopen
  rw [fileRequest, hpath]
  exact add_adds hb hadd

theorem tell_adds {notice : Notice} (hb : b.Tallied) (h : tell notice b = .ok () b') :
    Adds [] b b' := by
  cases h
  exact ⟨⟨rfl, rfl, rfl, rfl, rfl, rfl⟩, ⟨hb.orderly.listed, hb.orderly.follow⟩, hb.claimed⟩

/-- An item that could be added is a directory, a file with some content, or one that
    is only told about. -/
theorem importItem_ok {dest : String} {mode : Option UInt32} {spot : Spot}
    (h : importItem fs dest mode spot b = .ok () b') :
    ∃ name, itemName dest spot.below.reverse = .ok name ∧
      ((∃ m, fs.node? spot.location = some (.directory m) ∧
          addInTree (.directory name) b = .ok () b') ∨
        (∃ m bytes content, fs.node? spot.location = some (.file m bytes) ∧
          fs.openDuring b.sink spot.location = .ok content ∧
          addInTree (storedFile name content mode) b = .ok () b') ∨
        ((∀ root, itemRequest fs root dest mode spot = []) ∧
          tell (.special (Utf8.display spot.path)) b = .ok () b')) := by
  obtain ⟨name, hname, h⟩ := ofExcept_bind_ok h
  refine ⟨name, hname, ?_⟩
  cases hnode : fs.node? spot.location with
  | none =>
    rw [hnode] at h
    exact .inr (.inr ⟨fun root => by rw [itemRequest, hname, hnode], h⟩)
  | some node =>
    rw [hnode] at h
    cases node with
    | directory m => exact .inl ⟨m, rfl, h⟩
    | file m bytes =>
      dsimp only at h
      unfold openSpot at h
      split at h
      · cases h
      · obtain ⟨content, hopen, h⟩ := openNow_bind_ok h
        exact .inr (.inl ⟨m, bytes, content, rfl, hopen, h⟩)
    | link | socket | nullDevice | fullDevice =>
      exact .inr (.inr ⟨fun root => by rw [itemRequest, hname, hnode], h⟩)

theorem importItem_adds {dest : String} {mode : Option UInt32} {spot : Spot} (hb : b.Tallied)
    (hplace : b.sink.place = none) (h : importItem fs dest mode spot b = .ok () b') :
    Adds (itemRequest fs b.root dest mode spot) b b' := by
  obtain ⟨name, hname, ⟨m, hnode, hadd⟩ | ⟨m, bytes, content, hnode, hopen, hadd⟩ | ⟨hnone, htell⟩⟩ :=
    importItem_ok h
  · rw [itemRequest, hname, hnode]
    exact addInTree_adds hb hadd
  · rw [openDuring_of_ne (by simp [hplace]), FileSystem.openAt, hnode] at hopen
    cases hopen
    rw [itemRequest, hname, hnode]
    exact addInTree_adds hb hadd
  · rw [hnone]
    exact tell_adds hb htell

/-- Steps one for each item of a list: what is said of each with what it asks for,
    and can be put together, is said of all of them with all that they ask for. -/
theorem forM_gathers {I : Builder → Prop} {R : List Asked → Builder → Builder → Prop}
    (hrefl : ∀ {b}, I b → R [] b b)
    (htrans : ∀ {asked more b b' b''}, R asked b b' → R more b' b'' → R (asked ++ more) b b'')
    (hkeep : ∀ {asked b b'}, I b → R asked b b' → I b')
    {ι : Type} {f : ι → Building Unit} {asked : ι → List Asked} {l : List ι}
    (hf : ∀ i ∈ l, ∀ b b', I b → f i b = .ok () b' → R (asked i) b b') (hb : I b)
    (h : l.forM f b = .ok () b') : R (l.flatMap asked) b b' := by
  induction l generalizing b with
  | nil => cases h; exact hrefl hb
  | cons i l ih =>
    obtain ⟨_, b₁, hi, hl⟩ := bind_eq_ok.1 h
    have hfirst : R (asked i) b b₁ := hf i List.mem_cons_self b b₁ hb hi
    have hrest : R (l.flatMap asked) b₁ b' :=
      ih (fun j hj => hf j (List.mem_cons_of_mem _ hj)) (hkeep hb hfirst) hl
    rw [List.flatMap_cons]
    exact htrans hfirst hrest

/-- A walk whose items could all be added has not halted. -/
theorem importWalk_ok {dest : String} {mode : Option UInt32} {walk : Walk}
    (h : importWalk fs dest mode walk b = .ok () b') :
    walk.halt = none ∧ walk.spots.forM (importItem fs dest mode) b = .ok () b' := by
  obtain ⟨_, b₁, hitems, hhalt⟩ := bind_eq_ok.1 h
  cases hend : walk.halt with
  | none =>
    rw [hend] at hhalt
    cases hhalt
    exact ⟨rfl, hitems⟩
  | some cause => rw [hend] at hhalt; cases hhalt

theorem importWalk_adds {dest : String} {mode : Option UInt32} {walk : Walk} (hb : b.Tallied)
    (hplace : b.sink.place = none) (h : importWalk fs dest mode walk b = .ok () b') :
    Adds (walk.spots.flatMap (itemRequest fs b.root dest mode)) b b' := by
  have hkeep : ∀ {asked b₁ b₂}, b₁.Tallied ∧ b₁.Like b → Adds asked b₁ b₂ →
      b₂.Tallied ∧ b₂.Like b := fun hb₁ h => ⟨h.tallied, h.like.trans hb₁.2⟩
  refine forM_gathers (R := Adds) (fun hb => .refl hb.1) Adds.trans hkeep ?_ ⟨hb, .refl b⟩ (importWalk_ok h).2
  intro spot _ b₁ b₂ ⟨hb₁, hlike⟩ hitem
  rw [← hlike.root]
  exact importItem_adds hb₁ (hlike.place.trans hplace) hitem

theorem status_ok {source : Bytes} {node : Node} (h : fs.status source = .ok node) :
    fs.isDirectory source = node.isDirectory := by
  rw [FileSystem.isDirectory, h]

/-- A directory tree is added item by item. -/
theorem importTree_eq_of_walk (dest : String) (mode : Option UInt32) {source : Bytes} {walk : Walk}
    (hdir : fs.isDirectory source) (hwalk : fs.walk source = .ok walk) :
    importTree fs dest source mode = (do requireOpen; importWalk fs dest mode walk) := by
  unfold FileSystem.isDirectory at hdir
  cases hstatus : fs.status source with
  | error cause => rw [hstatus] at hdir; cases hdir
  | ok node =>
    rw [hstatus] at hdir
    rw [importTree, hstatus, hwalk]
    show (do requireOpen; if node.isDirectory then _ else _) = _
    rw [if_pos hdir]
    rfl

theorem importTree_of_walk (dest : String) (mode : Option UInt32) {source : Bytes} {walk : Walk}
    (ho : b.isOpen) (hdir : fs.isDirectory source) (hwalk : fs.walk source = .ok walk) :
    importTree fs dest source mode b = importWalk fs dest mode walk b := by
  rw [importTree_eq_of_walk dest mode hdir hwalk, bind_of_ok (requireOpen_of_open ho)]

/-- A source that could be added is a directory, with its tree, or a single file. -/
theorem importTree_ok {dest : String} {source : Bytes} {mode : Option UInt32}
    (h : importTree fs dest source mode b = .ok () b') :
    (fs.isDirectory source = true ∧ ∃ walk, fs.walk source = .ok walk ∧
        importWalk fs dest mode walk b = .ok () b') ∨
      (fs.isDirectory source = false ∧ importFile fs dest source mode b = .ok () b') := by
  obtain ⟨-, h⟩ := requireOpen_bind_ok h
  obtain ⟨node, hstatus, h⟩ := ofExcept_bind_ok h
  rw [status_ok hstatus]
  split at h
  · next hdir => exact .inl ⟨hdir, ofExcept_bind_ok h⟩
  · next hdir => exact .inr ⟨Bool.eq_false_iff.2 hdir, h⟩

theorem importTree_adds {dest : String} {source : Bytes} {mode : Option UInt32} (hb : b.Tallied)
    (hplace : b.sink.place = none) (h : importTree fs dest source mode b = .ok () b') :
    Adds ((Step.importTree dest source mode).requests fs b.root) b b' := by
  rw [Step.requests]
  rcases importTree_ok h with ⟨hdir, walk, hwalk, hitems⟩ | ⟨hdir, hfile⟩
  · rw [if_pos hdir, hwalk]
    exact importWalk_adds hb hplace hitems
  · rw [if_neg (Bool.eq_false_iff.1 hdir)]
    exact importFile_adds hb hplace hfile

theorem close_adds (hb : b.Tallied) (h : close b = .ok () b') : Adds [] b b' := by
  have hdoes : Does (fun _ => True) close b := close_does b
  have hlike : b'.Like b := Moves.like (hdoes.ok h)
  rw [close_eq] at h
  split at h
  · unfold writing at h
    split at h
    · cases h; exact ⟨⟨rfl, hlike⟩, ⟨hb.orderly.listed, hb.orderly.follow⟩, hb.claimed⟩
    · cases h
  · cases h; exact .refl hb

theorem finish_adds (hb : b.Tallied) (h : finish b = .ok () b') : Adds [] b b' := by
  obtain ⟨-, hclose⟩ := requireOpen_bind_ok h
  exact close_adds hb hclose

end

end Builder

/-- **A step that succeeds adds what it asks for**, where nothing can be read of
    what is written. -/
theorem Step.run_adds {fs : FileSystem} {s : Step} {b b' : Builder} (hb : b.Tallied)
    (hplace : b.sink.place = none) (h : s.run fs b = .ok () b') :
    Builder.Adds (s.requests fs b.root) b b' := by
  cases s with
  | add r => exact Builder.add_adds hb h
  | importFile name source mode => exact Builder.importFile_adds hb hplace h
  | importTree dest source mode => exact Builder.importTree_adds hb hplace h
  | close => exact Builder.close_adds hb h
  | finish => exact Builder.finish_adds hb h

/-- Steps that succeed, one after the other. -/
inductive Step.Runs (fs : FileSystem) : Builder → List Step → Builder → Prop
  | nil (b : Builder) : Runs fs b [] b
  | cons {s : Step} {steps : List Step} {b b₁ b' : Builder} (first : s.run fs b = .ok () b₁)
      (rest : Runs fs b₁ steps b') : Runs fs b (s :: steps) b'

/-- **Steps that succeed add what they ask for**, in their order. -/
theorem Step.Runs.adds {fs : FileSystem} {steps : List Step} {b b' : Builder}
    (h : Runs fs b steps b') (hb : b.Tallied) (hplace : b.sink.place = none) :
    Builder.Adds (steps.flatMap (Step.requests fs b.root)) b b' := by
  induction h with
  | nil => exact .refl hb
  | cons first _ ih =>
    have hfirst := run_adds hb hplace first
    have hrest := ih hfirst.tallied (hfirst.like.place.trans hplace)
    rw [hfirst.like.root] at hrest
    exact hfirst.trans hrest

end Tarball
