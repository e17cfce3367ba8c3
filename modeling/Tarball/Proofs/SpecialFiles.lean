/-
  Special files in an import.

  An import tells about each special file and goes on.  It makes the same archive as that
  of the tree without them, then, unless it comes to one whose name is not text, since
  names are looked at first.

  * `Builder.comesTo` are the items that an import comes to, and `Builder.skipped` the
    special files that it told about (`Builder.skipped_forM`);
  * `Builder.forM_sparing`: where their names are text they can be left out;
  * `Builder.importTree_spares_iff`: when both imports come to the same.
-/
import Tarball.Proofs.Abreast
import Tarball.Proofs.Spared

namespace Tarball

/-! ## Names that are text -/

/-- Whether the names on the way to a place are text. -/
def Spot.isText (s : Spot) : Bool :=
  (s.way.mapM Utf8.decode?).isSome

theorem itemName_of_isText (dest : String) {s : Spot} (h : s.isText) :
    ∃ name, itemName dest s.below.reverse = .ok name := by
  obtain ⟨segments, hsegments⟩ := Option.isSome_iff_exists.1 h
  exact ⟨_, by rw [itemName, ← Spot.way, hsegments]⟩

theorem itemName_of_not_isText (dest : String) {s : Spot} (h : s.isText = false) :
    itemName dest s.below.reverse = .error (.nameNotText (shownPath s.way)) := by
  have hnone : s.way.mapM Utf8.decode? = none := by simpa [Spot.isText] using h
  rw [itemName, ← Spot.way, hnone]

/-! ## Where there is the same -/

/-- Sinks that are the same stay so. -/
theorem Sink.companions_same : Sink.Companions Eq fun _ _ => False where
  write bytes := by
    refine ⟨?_, fun _ _ h => h⟩
    rintro s _ rfl
    cases write bytes s with
    | ok _ s' => exact .ok rfl
    | error cause s' => exact .error rfl
  place h := congrArg Sink.place h
  contents h := congrArg Sink.contents h

namespace FileSystem

/-- What is opened is the same where there is the same to open. -/
theorem openDuring_congr {fs fs' : FileSystem} {loc : Location} (h : fs'.node? loc = fs.node? loc)
    (sink : Sink) : fs'.openDuring sink loc = fs.openDuring sink loc := by
  rw [openDuring_eq, openDuring_eq, openAt, openAt, including, including]
  cases sink.place with
  | none => simp only [h]
  | some place =>
    by_cases hat : loc = place
    · subst hat
      simp only [node?_put, if_true, modeAt, h]
    · simp only [node?_put, if_neg hat, h]

end FileSystem

/-! ## What is told about special files -/

/-- The path of a special file that a notice tells about. -/
def Notice.special? : Notice → Option String
  | special path => some path
  | duplicate _ | closingFailed _ => none

namespace Builder

/-- The special files that were told about, in that order. -/
def skipped (b : Builder) : List String :=
  b.notices.filterMap Notice.special?

/-- What else was told, the latest first. -/
def toldElse (log : List Notice) : List Notice :=
  log.filter fun notice => notice.special?.isNone

theorem toldElse_duplicate (name : String) (log : List Notice) :
    toldElse (.duplicate name :: log) = .duplicate name :: toldElse log := rfl

/-- Builders that are the same, down to the bytes in their sinks, but for the special
    files that were told about. -/
abbrev SameButSkipped : Builder → Builder → Prop :=
  Beside Eq fun log log' => toldElse log = toldElse log'

/-! ## What an import comes to -/

/-- The items that an action done for one after the other comes to: as long as it
    succeeds, and the one that it fails for. -/
def comesTo {ε σ ι : Type} (act : ι → EStateM ε σ Unit) : List ι → σ → List ι
  | [], _ => []
  | i :: rest, s => i ::
    match act i s with
    | .ok _ s' => comesTo act rest s'
    | .error _ _ => []

section
variable {ε σ ι : Type} {act : ι → EStateM ε σ Unit} {i : ι} {s s' : σ}

theorem forM_of_ok (h : act i s = .ok () s') (rest : List ι) :
    (i :: rest).forM act s = rest.forM act s' :=
  bind_of_ok h

theorem forM_of_error {e : ε} (h : act i s = .error e s') (rest : List ι) :
    (i :: rest).forM act s = .error e s' :=
  bind_of_error h

theorem comesTo_of_ok (h : act i s = .ok () s') (rest : List ι) :
    comesTo act (i :: rest) s = i :: comesTo act rest s' := by
  rw [comesTo, h]

theorem comesTo_of_error {e : ε} (h : act i s = .error e s') (rest : List ι) :
    comesTo act (i :: rest) s = [i] := by
  rw [comesTo, h]

theorem comesTo_isPrefix (l : List ι) (s : σ) : comesTo act l s <+: l := by
  induction l generalizing s with
  | nil => exact List.prefix_rfl
  | cons i rest ih =>
    rw [comesTo, List.prefix_cons_inj]
    split
    · exact ih _
    · exact List.nil_prefix

/-- What fails in any state makes the actions fail when they come to it. -/
theorem forM_of_mem_comesTo {e : ε} (hfails : ∀ s, act i s = .error e s) {l : List ι}
    (hi : i ∈ comesTo act l s) : ∃ s', l.forM act s = .error e s' := by
  induction l generalizing s with
  | nil => cases hi
  | cons j rest ih =>
    cases hrun : act j s with
    | ok _ s' =>
      rw [comesTo_of_ok hrun] at hi
      rcases List.mem_cons.1 hi with rfl | hi
      · exact ⟨s, forM_of_error (hfails s) rest⟩
      · rw [forM_of_ok hrun]
        exact ih hi
    | error e' s' =>
      rw [comesTo_of_error hrun, List.mem_singleton] at hi
      subst hi
      exact ⟨s, forM_of_error (hfails s) rest⟩

end

/-- The special files among the items that an import of a walk comes to. -/
def specialsOf (fs : FileSystem) (dest : String) (mode : Option UInt32) (walk : Walk) (b : Builder) :
    List Spot :=
  (comesTo (importItem fs dest mode) walk.spots b).filter (fs.isSpecialAt ·.location)

/-- The special files among the items that an import of a tree comes to. -/
def specialsMet (fs : FileSystem) (dest : String) (source : Bytes) (mode : Option UInt32)
    (b : Builder) : List Spot :=
  match fs.walk source with
  | .ok walk => specialsOf fs dest mode walk b
  | .error _ => []

/-! ## Items -/

section
variable {fs fs' : FileSystem} (dest : String) (mode : Option UInt32) {spot : Spot} {b b' : Builder}

theorem importItem_of_isText (hspecial : fs.isSpecialAt spot.location) (htext : spot.isText)
    (b : Builder) : importItem fs dest mode spot b =
      .ok () { b with noticeLog := .special (Utf8.display spot.path) :: b.noticeLog } := by
  obtain ⟨name, hname⟩ := itemName_of_isText dest htext
  unfold FileSystem.isSpecialAt at hspecial
  rw [importItem, hname]
  cases hnode : fs.node? spot.location with
  | none => rfl
  | some node =>
    rw [hnode] at hspecial
    cases node with
    | file | directory => cases hspecial
    | _ => rfl

/-- Nothing is done for an item whose name is not text. -/
theorem importItem_of_not_isText (htext : spot.isText = false) (b : Builder) :
    importItem fs dest mode spot b = .error (.nameNotText (shownPath spot.way)) b := by
  rw [importItem, itemName_of_not_isText dest htext]
  rfl

variable {N : List Notice → List Notice → Prop}

/-- **Directories and files** are added alike where there is the same. -/
theorem importItem_abreast
    (hN : ∀ name l l', N l l' → N (.duplicate name :: l) (.duplicate name :: l'))
    (hplain : fs.isSpecialAt spot.location = false)
    (hnode : fs'.node? spot.location = fs.node? spot.location) :
    Abreast (Beside Eq N) (Behind fun _ _ => False) (importItem fs dest mode spot)
      (importItem fs' dest mode spot) := by
  have hopen : Abreast (Beside Eq N) (Behind fun _ _ => False) (openSpot fs spot)
      (openSpot fs' spot) := by
    refine openSpot_abreast ?_
    rintro s _ rfl
    exact (FileSystem.openDuring_congr hnode s).symm
  refine (Abreast.ofExcept _).bind fun name => ?_
  rw [hnode]
  unfold FileSystem.isSpecialAt at hplain
  cases hat : fs.node? spot.location with
  | none => rw [hat] at hplain; cases hplain
  | some node =>
    rw [hat] at hplain
    cases node with
    | directory m => exact addInTree_abreast Sink.companions_same hN _
    | file m content =>
      exact hopen.bind fun content => addInTree_abreast Sink.companions_same hN _
    | _ => cases hplain

/-- With nothing left behind, two actions come to the same end in related states. -/
theorem same_of_inStep {R : Builder → Builder → Prop} {r r' : EStateM.Result Cause Builder Unit}
    (h : InStep R (Behind fun _ _ => False) r r') :
    (Outcome.ofResult r).failure = (Outcome.ofResult r').failure ∧
      R (Outcome.ofResult r).builder (Outcome.ofResult r').builder := by
  cases h with
  | ok state => exact ⟨rfl, state⟩
  | error state => exact ⟨rfl, state⟩
  | behind state => exact state.elim

/-- Of a directory or a file nothing is told but that its name was there before. -/
theorem skipped_importItem_plain (hplain : fs.isSpecialAt spot.location = false) (b : Builder) :
    (stateOf (importItem fs dest mode spot b)).skipped = b.skipped := by
  have habreast : Abreast (Beside Eq fun log _ => log.filterMap Notice.special? =
      b.noticeLog.filterMap Notice.special?) (Behind fun _ _ => False)
      (importItem fs dest mode spot) (importItem fs dest mode spot) :=
    importItem_abreast dest mode (fun _ _ _ h => h) hplain rfl
  obtain ⟨-, _, _, -, htold, -⟩ :=
    same_of_inStep (habreast.inStep b b ⟨b.sink, b.noticeLog, rfl, rfl, rfl⟩)
  rw [Outcome.builder_ofResult] at htold
  simp only [skipped, notices, List.filterMap_reverse, htold]

/-- What an import of an item tells about special files: the item, if it is one
    with a name that is text. -/
theorem skipped_importItem (spot : Spot) (b : Builder) :
    (stateOf (importItem fs dest mode spot b)).skipped = b.skipped ++
      (([spot].filter (fs.isSpecialAt ·.location)).filter (·.isText)).map (Utf8.display ·.path) := by
  cases hspecial : fs.isSpecialAt spot.location with
  | true =>
    cases htext : spot.isText with
    | true =>
      rw [importItem_of_isText dest mode hspecial htext]
      simp [stateOf, skipped, notices, hspecial, htext, Notice.special?]
    | false =>
      rw [importItem_of_not_isText dest mode htext]
      simp [stateOf, hspecial, htext]
  | false =>
    rw [skipped_importItem_plain dest mode hspecial]
    simp [hspecial]

/-! ## Walks and trees -/

theorem stateOf_importWalk (walk : Walk) (b : Builder) :
    stateOf (importWalk fs dest mode walk b) =
      stateOf (walk.spots.forM (importItem fs dest mode) b) := by
  unfold importWalk
  cases hrun : walk.spots.forM (importItem fs dest mode) b with
  | error cause b' => rw [bind_of_error hrun]
  | ok _ b' =>
    rw [bind_of_ok hrun]
    cases walk.halt <;> rfl

/-- **All that an import tells about special files** are those it comes to, if their
    names are text. -/
theorem skipped_importWalk (walk : Walk) (b : Builder) :
    (stateOf (importWalk fs dest mode walk b)).skipped = b.skipped ++
      ((specialsOf fs dest mode walk b).filter (·.isText)).map (Utf8.display ·.path) := by
  rw [stateOf_importWalk, specialsOf]
  induction walk.spots generalizing b with
  | nil => simp [comesTo, stateOf, pure, EStateM.pure]
  | cons spot rest ih =>
    have hitem : (stateOf (importItem fs dest mode spot b)).skipped = _ :=
      skipped_importItem dest mode spot b
    cases hrun : importItem fs dest mode spot b with
    | ok _ b' =>
      rw [hrun] at hitem
      have hnow : b'.skipped = _ := hitem
      rw [forM_of_ok hrun, comesTo_of_ok hrun, ih, hnow, List.append_assoc, ← List.map_append,
        ← List.filter_append, ← List.filter_append, List.singleton_append]
    | error cause b' =>
      rw [hrun] at hitem
      rw [forM_of_error hrun, comesTo_of_error hrun, ← hitem]

/-- Where there are no special files none is told about. -/
theorem skipped_importWalk_plain {walk : Walk}
    (hplain : ∀ s ∈ walk.spots, fs.isSpecialAt s.location = false) (b : Builder) :
    (stateOf (importWalk fs dest mode walk b)).skipped = b.skipped := by
  have hnone : specialsOf fs dest mode walk b = [] := by
    refine List.filter_eq_nil_iff.2 fun s hs => ?_
    simp [hplain s ((comesTo_isPrefix _ _).subset hs)]
  rw [skipped_importWalk, hnone, List.filter_nil, List.map_nil, List.append_nil]

/-- **Where all special files have names that are text**, leaving them out comes to
    the same but for what is told about them. -/
theorem forM_sparing {spots : List Spot}
    (hnode : ∀ s ∈ spots, fs.isSpecialAt s.location = false →
      fs'.node? s.location = fs.node? s.location)
    (htext : ∀ s ∈ comesTo (importItem fs dest mode) spots b, fs.isSpecialAt s.location → s.isText)
    (h : SameButSkipped b b') :
    InStep SameButSkipped (Behind fun _ _ => False) (spots.forM (importItem fs dest mode) b)
      ((spots.filter fs.isPlain).forM (importItem fs' dest mode) b') := by
  induction spots generalizing b b' with
  | nil => exact .ok h
  | cons spot rest ih =>
    have hrest := fun s hs => hnode s (List.mem_cons_of_mem _ hs)
    cases hspecial : fs.isSpecialAt spot.location with
    | true =>
      -- it is told about on one side, and is not there on the other
      have hhere : spot.isText := htext spot (by rw [comesTo]; exact List.mem_cons_self) hspecial
      have hrun := importItem_of_isText dest mode hspecial hhere b
      rw [comesTo_of_ok hrun] at htext
      rw [forM_of_ok hrun, List.filter_cons_of_neg (by simp [FileSystem.isPlain, hspecial])]
      refine ih hrest (fun s hs => htext s (List.mem_cons_of_mem _ hs)) ?_
      obtain ⟨sink, noticeLog, hsinks, htold, rfl⟩ := h
      exact ⟨sink, noticeLog, hsinks, htold, rfl⟩
    | false =>
      have habreast : Abreast SameButSkipped (Behind fun _ _ => False)
          (importItem fs dest mode spot) (importItem fs' dest mode spot) :=
        importItem_abreast dest mode
          (fun name log log' htold => by rw [toldElse_duplicate, toldElse_duplicate, htold])
          hspecial (hnode spot List.mem_cons_self hspecial)
      have hitem := habreast.inStep b b' h
      rw [List.filter_cons_of_pos (by simp [FileSystem.isPlain, hspecial])]
      cases hrun : importItem fs dest mode spot b with
      | ok _ b₁ =>
        rw [hrun] at hitem
        obtain ⟨b₁', hrun', hstates⟩ := hitem.of_ok
        rw [comesTo_of_ok hrun] at htext
        rw [forM_of_ok hrun, forM_of_ok hrun']
        exact ih hrest (fun s hs => htext s (List.mem_cons_of_mem _ hs)) hstates
      | error cause b₁ =>
        rw [hrun] at hitem
        obtain ⟨b₁', hrun', hstates⟩ := hitem.of_error.resolve_right id
        rw [forM_of_error hrun, forM_of_error hrun']
        exact .error hstates

theorem importWalk_sparing {walk : Walk}
    (hnode : ∀ s ∈ walk.spots, fs.isSpecialAt s.location = false →
      fs'.node? s.location = fs.node? s.location)
    (htext : ∀ s ∈ specialsOf fs dest mode walk b, s.isText) (h : SameButSkipped b b') :
    InStep SameButSkipped (Behind fun _ _ => False) (importWalk fs dest mode walk b)
      (importWalk fs' dest mode (walk.sparing fs.isPlain) b') := by
  have hspots := forM_sparing dest mode hnode
    (fun s hs hspecial => htext s (List.mem_filter.2 ⟨hs, hspecial⟩)) h
  have hhalt : (walk.sparing fs.isPlain).halt = walk.halt := rfl
  rw [importWalk, importWalk, hhalt]
  refine hspots.bind fun _ => ?_
  cases walk.halt with
  | none => exact .of_pure ()
  | some cause => exact .of_throw cause

/-- **Special files have no influence on an import**, apart from what is told about
    each of them, just if all of those it comes to have names that are text: it comes
    to the same end as an import of the tree without them, with the same in the
    archive.  It fails for one whose name is not text. -/
theorem importTree_spares_iff {source : Bytes} (h : fs.Spares fs' source)
    (hdir : fs.isDirectory source) (ho : b.isOpen) :
    let made := Outcome.ofResult (importTree fs dest source mode b)
    let spared := Outcome.ofResult (importTree fs' dest source mode b)
    let met := specialsMet fs dest source mode b
    ((made.failure = spared.failure ∧ SameButSkipped made.builder spared.builder ∧
        made.builder.skipped = spared.builder.skipped ++ met.map (Utf8.display ·.path)) ↔
      ∀ s ∈ met, s.isText) ∧
      ∀ s ∈ met, s.isText = false → made.failure = some (.nameNotText (shownPath s.way)) := by
  intro made spared met
  obtain ⟨walk, hwalk⟩ := FileSystem.exists_walk hdir
  have hnode : ∀ s ∈ walk.spots, fs.isSpecialAt s.location = false →
      fs'.node? s.location = fs.node? s.location := fun s hs =>
    h.node s (FileSystem.below_of_walk hwalk hs)
  have hmade : made = Outcome.ofResult (importWalk fs dest mode walk b) :=
    congrArg Outcome.ofResult (importTree_of_walk dest mode ho hdir hwalk)
  have hspared : spared = Outcome.ofResult (importWalk fs' dest mode (walk.sparing fs.isPlain) b) :=
    congrArg Outcome.ofResult
      (importTree_of_walk dest mode ho (h.isDirectory hdir) (h.walk hdir hwalk))
  have hmet : met = specialsOf fs dest mode walk b := by simp only [met, specialsMet, hwalk]
  have htold : made.builder.skipped =
      b.skipped ++ (met.filter (·.isText)).map (Utf8.display ·.path) := by
    rw [hmade, Outcome.builder_ofResult, skipped_importWalk, hmet]
  have hsilent : spared.builder.skipped = b.skipped := by
    rw [hspared, Outcome.builder_ofResult]
    refine skipped_importWalk_plain dest mode (fun s hs => ?_) b
    obtain ⟨hs, hplain⟩ := List.mem_filter.1 hs
    have hplain : fs.isSpecialAt s.location = false := by simpa [FileSystem.isPlain] using hplain
    rw [FileSystem.isSpecialAt, hnode s hs hplain]
    exact hplain
  rw [htold, hsilent]
  refine ⟨⟨?_, ?_⟩, ?_⟩
  · -- as many are told about as there are with names that are text
    rintro ⟨-, -, hskipped⟩
    have hlength := congrArg List.length (List.append_cancel_left hskipped)
    rw [List.length_map, List.length_map] at hlength
    exact List.length_filter_eq_length_iff.1 hlength
  · intro htext
    have hsame : SameButSkipped b b := ⟨b.sink, b.noticeLog, rfl, rfl, rfl⟩
    obtain ⟨hfailure, hbuilders⟩ :=
      same_of_inStep (importWalk_sparing dest mode hnode (hmet ▸ htext) hsame)
    rw [List.filter_eq_self.2 htext, hmade, hspared]
    exact ⟨hfailure, hbuilders, rfl⟩
  · intro s hs htext
    rw [hmet] at hs
    obtain ⟨b', hrun⟩ := forM_of_mem_comesTo (importItem_of_not_isText dest mode htext)
      (List.mem_filter.1 hs).1
    have hwhole : importWalk fs dest mode walk b = .error (.nameNotText (shownPath s.way)) b' :=
      bind_of_error hrun
    rw [hmade, hwhole]
    rfl

end

/-- A directory with a socket and a link to it. -/
def linkedSocket : FileSystem where
  items := [([bytesOf "t"], .directory 0o755),
    ([bytesOf "l", bytesOf "t"], .link (bytesOf "s")),
    ([bytesOf "s", bytesOf "t"], .socket 0o644)]
  distinct := by decide

/-- The directory, as a walk comes to it. -/
def socketDirectory : Spot := { location := [bytesOf "t"], path := bytesOf "t", links := 40 }

/-- The socket, as a walk comes to it by one of its names. -/
def socketSpot (name : Bytes) (links : Nat) : Spot :=
  socketDirectory.child name [bytesOf "s", bytesOf "t"] links

theorem names_socketDirectory :
    linkedSocket.names socketDirectory.location = [bytesOf "l", bytesOf "s"] := by decide

theorem enter_socketDirectory :
    linkedSocket.enter socketDirectory (bytesOf "l") = .ok (socketSpot (bytesOf "l") 39) ∧
      linkedSocket.enter socketDirectory (bytesOf "s") = .ok (socketSpot (bytesOf "s") 40) :=
  ⟨by decide, by decide⟩

theorem below_linkedSocket {s : Spot} (h : linkedSocket.Below (bytesOf "t") s) :
    s = socketDirectory ∨ s.location = [bytesOf "s", bytesOf "t"] := by
  obtain ⟨location, links, hsource, hs⟩ := h
  have htop : linkedSocket.resolveLinks (bytesOf "t") = .ok ([bytesOf "t"], 40) := by decide
  rw [htop] at hsource
  cases hsource
  induction hs with
  | refl => exact .inl rfl
  | tail _ hleads ih =>
    obtain ⟨name, hname, henter⟩ := hleads
    rcases ih with rfl | hleaf
    · rw [names_socketDirectory] at hname
      simp only [List.mem_cons, List.not_mem_nil, or_false] at hname
      rcases hname with rfl | rfl
      · rw [enter_socketDirectory.1] at henter
        cases henter
        exact .inr rfl
      · rw [enter_socketDirectory.2] at henter
        cases henter
        exact .inr rfl
    · have hnames : linkedSocket.names [bytesOf "s", bytesOf "t"] = [] := by decide
      rw [hleaf, hnames] at hname
      cases hname

theorem spares_linkedSocket : linkedSocket.Spares
    (linkedSocket.without linkedSocket.isSpecialAt) (bytesOf "t") := by
  refine FileSystem.spares_without (by decide) (fun _ _ h => h) ?_ ?_
  · intro s hs hdir name hname
    rcases below_linkedSocket hs with rfl | hleaf
    · rw [names_socketDirectory] at hname
      simp only [List.mem_cons, List.not_mem_nil, or_false] at hname
      rcases hname with rfl | rfl
      · rw [FileSystem.leadsToSpecial, enter_socketDirectory.1]
        decide
      · rw [FileSystem.leadsToSpecial, enter_socketDirectory.2]
        decide
    · rw [hleaf] at hdir
      exact absurd hdir (by decide)
  · intro s _ name hlink hstays
    rw [FileSystem.isSpecialAt_of_isLinkAt hlink] at hstays
    cases hstays

/-- The name of the socket is text. -/
theorem importTree_spares_iff_linkedSocket :
    let fs := linkedSocket
    let made := Outcome.ofResult (importTree fs "x" (bytesOf "t") none (opened {} {}))
    let spared := Outcome.ofResult
      (importTree (fs.without fs.isSpecialAt) "x" (bytesOf "t") none (opened {} {}))
    made.failure = spared.failure ∧ SameButSkipped made.builder spared.builder ∧
      made.builder.skipped = spared.builder.skipped ++ ["t/l", "t/s"] := by
  intro fs made spared
  have hsource : fs.resolveLinks (bytesOf "t") = .ok ([bytesOf "t"], 40) := by decide
  have hleaf : fs.isDirectoryAt [bytesOf "s", bytesOf "t"] = false := by decide
  have hwalk : fs.walk (bytesOf "t") = .ok { spots := [socketDirectory,
      socketSpot (bytesOf "l") 39, socketSpot (bytesOf "s") 40] } :=
    FileSystem.walk_of_leaves hsource (by decide) names_socketDirectory (by decide)
      (.cons ⟨enter_socketDirectory.1, hleaf⟩ (.cons ⟨enter_socketDirectory.2, hleaf⟩ .nil))
  have hmet : specialsMet fs "x" (bytesOf "t") none (opened {} {}) =
      [socketSpot (bytesOf "l") 39, socketSpot (bytesOf "s") 40] := by
    rw [specialsMet, hwalk]
    decide +kernel
  have hshown : [socketSpot (bytesOf "l") 39, socketSpot (bytesOf "s") 40].map
      (Utf8.display ·.path) = ["t/l", "t/s"] := by decide +kernel
  have hopen : (opened {} {}).isOpen := by decide
  have hiff := (importTree_spares_iff "x" none spares_linkedSocket (by decide) hopen).1
  rw [hmet, hshown] at hiff
  exact hiff.2 (by decide +kernel)

/-- A directory with a socket whose name is not text. -/
def unnamedSocket : FileSystem where
  items := [([bytesOf "t"], .directory 0o755), ([[0xFF], bytesOf "t"], .socket 0o644)]
  distinct := by decide

/-- It cannot be imported, but without the socket it can. -/
theorem unnamedSocket_refused :
    let fs := unnamedSocket
    let made := Outcome.ofResult (importTree fs "x" (bytesOf "t") none (opened {} {}))
    let spared := Outcome.ofResult
      (importTree (fs.without fs.isSpecialAt) "x" (bytesOf "t") none (opened {} {}))
    (fs.without fs.isSpecialAt).items = [([bytesOf "t"], .directory 0o755)] ∧
      spared.failure = none ∧ made.failure = some (.nameNotText "\uFFFD") := by
  intro fs made spared
  have hopen : (opened {} {}).isOpen := by decide
  have hwalk : fs.walk (bytesOf "t") = .ok { spots := [socketDirectory,
      socketDirectory.child [0xFF] [[0xFF], bytesOf "t"] 40] } := by decide +kernel
  have hspared : (fs.without fs.isSpecialAt).walk (bytesOf "t") =
      .ok { spots := [socketDirectory] } := by decide +kernel
  refine ⟨by decide, ?_, ?_⟩
  · simp only [spared]
    rw [importTree_of_walk _ _ hopen (by decide) hspared]
    decide
  · simp only [made]
    rw [importTree_of_walk _ _ hopen (by decide) hwalk]
    decide +kernel

end Builder

end Tarball
