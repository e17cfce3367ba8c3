/-
  The same input gives the same archive.

  Two builds with the same settings, destinations and links, whose sources show
  the same, each in a file system of its own, both succeed or both fail, and if
  they succeed their archives hold the same bytes.

  * `Build.SameInput` relates two arguments;
  * `Build.addSource_lockstep` and `Build.addAll_lockstep`: what is added is the
    same in both;
  * `Build.run_reproducible`: so is the archive.

  What is in the way of one of them may be the length of a path alone
  (`Build.longWay_fails_alone`).
-/
import Tarball.Proofs.Alike
import Tarball.Proofs.Inputs
import Tarball.Proofs.Lockstep
import Tarball.Proofs.TreeImport

namespace Tarball

/-- Items that are the same but for their permission bits give the same when they
    are opened. -/
theorem Node.open_of_bare {node node' : Node} (h : node.bare = node'.bare) :
    node.open = node'.open := by
  cases node <;> cases node' <;> cases h <;> rfl

/-- Only files and what cannot be opened may differ in their permission bits. -/
theorem Node.mode_of_bare {node node' : Node} (h : node.bare = node'.bare)
    (leaf : node.isDirectory = false) :
    node.isFile ∨ (∃ cause, node.open = .error cause) ∨ node.mode = node'.mode := by
  cases node with
  | file => exact .inl rfl
  | directory => cases leaf
  | link | socket => exact .inr (.inl ⟨_, rfl⟩)
  | nullDevice | fullDevice =>
    cases node' with
    | nullDevice | fullDevice => exact .inr (.inr rfl)
    | file | directory | link | socket => cases h

namespace FileSystem
variable {fs fs' : FileSystem} {loc loc' : Location} {s s' : Spot}

theorem Alike.openAt (h : Alike fs fs' loc loc' s s') :
    fs.openAt s.location = fs'.openAt s'.location := by
  obtain ⟨node, node', meets, meets', same⟩ := h.exists_meets
  rw [FileSystem.openAt, FileSystem.openAt, meets.node, meets'.node]
  exact Node.open_of_bare same

end FileSystem

/-! ## Importing -/

namespace Builder
variable {fs fs' : FileSystem} {loc loc' : Location} {s s' : Spot}

open FileSystem (Alike SameSpot SameWalk)

theorem openNow_lockstep (h : Alike fs fs' loc loc' s s') :
    Lockstep (Twin loc loc') Eq (openNow fs s.location) (openNow fs' s'.location) := by
  intro b b' htwin
  have hsame := ofExcept_lockstep (fs.openAt s.location) b b' htwin
  obtain ⟨_, _, meets, meets', -⟩ := h.exists_meets
  rw [openNow_eq, openNow_eq, openDuring_elsewhere htwin.place meets.apart,
    openDuring_elsewhere htwin.place' meets'.apart, ← h.openAt]
  exact hsame

theorem openSpot_lockstep (h : Alike fs fs' loc loc' s s') :
    Lockstep (Twin loc loc') Eq (openSpot fs s) (openSpot fs' s') := by
  obtain ⟨_, _, meets, meets', -⟩ := h.exists_meets
  rw [openSpot, openSpot, meets.short, meets'.short]
  exact openNow_lockstep h

/-- **An item of a tree is added in the same way in both.** -/
theorem importItem_lockstep (dest : String) (mode : Option UInt32)
    (h : SameSpot fs fs' loc loc' s s') :
    Lockstep (Twin loc loc') Eq (importItem fs dest mode s) (importItem fs' dest mode s') := by
  unfold importItem
  rw [h.below]
  refine (ofExcept_lockstep _).bind ?_
  rintro name _ rfl
  have hopen := openSpot_lockstep h.alike
  obtain ⟨node, node', meets, meets', same⟩ := h.alike.exists_meets
  rw [meets.node, meets'.node]
  cases node with
  | directory =>
    cases node' with
    | directory => exact addInTree_lockstep _
    | file | link | socket | nullDevice | fullDevice => cases same
  | file =>
    cases node' with
    | file =>
      refine hopen.bind ?_
      rintro content _ rfl
      exact addInTree_lockstep _
    | directory | link | socket | nullDevice | fullDevice => cases same
  | link | socket | nullDevice | fullDevice =>
    cases node' with
    | file | directory => cases same
    | link | socket | nullDevice | fullDevice => exact tell_lockstep _ _

theorem importWalk_lockstep (dest : String) (mode : Option UInt32) {w w' : Walk}
    (h : SameWalk fs fs' loc loc' w w') :
    Lockstep (Twin loc loc') Eq (importWalk fs dest mode w) (importWalk fs' dest mode w') := by
  refine (Lockstep.forM h.spots fun _ _ hspot => importItem_lockstep dest mode hspot).bind ?_
  intro _ _ _
  cases hw : w.halt with
  | none =>
    rw [h.halt.1 hw]
    exact fun b b' htwin => .ok rfl htwin
  | some cause =>
    cases hw' : w'.halt with
    | none => rw [h.halt.2 hw'] at hw; cases hw
    | some cause' => exact fun b b' htwin => .error

end Builder

/-! ## Sources -/

namespace FileSystem

/-- The place that a path leads to, as a walk starts there. -/
def spotAt (path : Bytes) (r : Location × Nat) : Spot :=
  { location := r.1, path := path, links := r.2 }

/-- Two paths that lead to places that are alike. -/
def SameSource (fs fs' : FileSystem) (loc loc' : Location) (source source' : Bytes) : Prop :=
  ∃ r r', fs.resolveLinks source = .ok r ∧ fs'.resolveLinks source' = .ok r' ∧
    Alike fs fs' loc loc' (spotAt source r) (spotAt source' r')

variable {fs fs' : FileSystem} {loc loc' : Location} {source source' : Bytes}

theorem SameSource.put (hloc : fs.CanHold loc) (hloc' : fs'.CanHold loc') {mode mode' : UInt32}
    {content content' : Bytes} (h : SameSource fs fs' loc loc' source source') :
    SameSource (fs.put loc (.file mode content)) (fs'.put loc' (.file mode' content')) loc loc'
      source source' := by
  obtain ⟨r, r', hr, hr', halike⟩ := h
  exact ⟨r, r', resolveLinks_put hloc hr, resolveLinks_put hloc' hr', halike.put hloc hloc'⟩

theorem SameSource.symm (h : SameSource fs fs' loc loc' source source') :
    SameSource fs' fs loc' loc source' source := by
  obtain ⟨r, r', hr, hr', halike⟩ := h
  exact ⟨r', r, hr', hr, halike.symm⟩

theorem SameSource.exists_status (h : SameSource fs fs' loc loc' source source') :
    ∃ node node', fs.status source = .ok node ∧ fs'.status source' = .ok node' ∧
      node.bare = node'.bare := by
  obtain ⟨r, r', hr, hr', halike⟩ := h
  obtain ⟨node, node', meets, meets', same⟩ := halike.exists_meets
  exact ⟨node, node', status_ok_iff.2 ⟨r, hr, meets.node⟩, status_ok_iff.2 ⟨r', hr', meets'.node⟩,
    same⟩

theorem SameSource.isDirectory (h : SameSource fs fs' loc loc' source source') :
    fs.isDirectory source = fs'.isDirectory source' := by
  obtain ⟨node, node', hstatus, hstatus', same⟩ := h.exists_status
  rw [FileSystem.isDirectory, FileSystem.isDirectory, hstatus, hstatus']
  exact Node.isDirectory_eq same

theorem SameSource.openPath (h : SameSource fs fs' loc loc' source source') :
    fs.openPath source = fs'.openPath source' := by
  obtain ⟨r, r', hr, hr', halike⟩ := h
  rw [FileSystem.openPath, FileSystem.openPath, resolve_of_resolveLinks hr,
    resolve_of_resolveLinks hr']
  exact halike.openAt

/-- What is no directory cannot be opened, or may be executed in both or in
    neither if files may. -/
theorem SameSource.closed_or_bits (h : SameSource fs fs' loc loc' source source')
    (hdir : fs.isDirectory source = false)
    (hexec : fs.isFile source → fs.mayExecute source = fs'.mayExecute source') :
    (∃ cause, fs.openPath source = .error cause) ∨
      fs.mayExecute source = fs'.mayExecute source' := by
  obtain ⟨node, node', hstatus, hstatus', same⟩ := h.exists_status
  rw [FileSystem.isDirectory, hstatus] at hdir
  rcases node.mode_of_bare same hdir with hfile | ⟨cause, hopen⟩ | hmode
  · rw [FileSystem.isFile, hstatus] at hexec
    exact .inr (hexec hfile)
  · obtain ⟨r, hr, hnode⟩ := status_ok_iff.1 hstatus
    left
    refine ⟨cause, ?_⟩
    rw [FileSystem.openPath, resolve_of_resolveLinks hr]
    show fs.openAt r.1 = .error cause
    rw [FileSystem.openAt, hnode]
    exact hopen
  · right
    rw [FileSystem.mayExecute, FileSystem.mayExecute, hstatus, hstatus']
    dsimp only
    rw [hmode]

/-- Creating a file elsewhere leaves a source as it was. -/
theorem SameSource.status_put (hloc : fs.CanHold loc) {mode : UInt32} {content : Bytes}
    (h : SameSource fs fs' loc loc' source source') :
    (fs.put loc (.file mode content)).status source = fs.status source := by
  obtain ⟨r, r', hr, -, halike⟩ := h
  obtain ⟨node, -, meets, -, -⟩ := halike.exists_meets
  rw [status_ok_iff.2 ⟨r, hr, meets.node⟩]
  exact status_ok_iff.2 ⟨r, resolveLinks_put hloc hr, (meets.put _).node⟩

end FileSystem

namespace Builder
variable {fs fs' : FileSystem} {loc loc' : Location} {source source' : Bytes}

open FileSystem (SameSource spotAt)

theorem importFile_lockstep (name : String) (mode : Option UInt32)
    (h : SameSource fs fs' loc loc' source source') :
    Lockstep (Twin loc loc') Eq (importFile fs name source mode)
      (importFile fs' name source' mode) := by
  obtain ⟨r, r', hr, hr', halike⟩ := h
  unfold importFile
  rw [FileSystem.resolve_of_resolveLinks hr, FileSystem.resolve_of_resolveLinks hr']
  refine (openNow_lockstep halike).bind ?_
  rintro content _ rfl
  exact add_lockstep _

/-- What cannot be opened is not imported. -/
theorem importFile_ne_ok {name : String} {mode : Option UInt32} {cause : Cause} {b b' : Builder}
    (h : SameSource fs fs' loc loc' source source') (hplace : b.sink.place = some loc)
    (hopen : fs.openPath source = .error cause) : importFile fs name source mode b ≠ .ok () b' := by
  intro hok
  obtain ⟨here, content, hresolve, hnow, -⟩ := importFile_ok hok
  obtain ⟨r, r', hr, -, halike⟩ := h
  obtain ⟨_, _, meets, -, -⟩ := halike.exists_meets
  rw [FileSystem.resolve_of_resolveLinks hr] at hresolve
  cases hresolve
  rw [FileSystem.openPath, FileSystem.resolve_of_resolveLinks hr] at hopen
  have hsame : fs.openDuring b.sink r.1 = fs.openAt r.1 := openDuring_elsewhere hplace meets.apart
  cases hnow.symm.trans (hsame.trans hopen)

/-- **A tree is added in the same way in both.** -/
theorem importTree_lockstep (dest : String) (mode : Option UInt32)
    (hdir : fs.isDirectory source) (h : SameSource fs fs' loc loc' source source') :
    Lockstep (Twin loc loc') Eq (importTree fs dest source mode)
      (importTree fs' dest source' mode) := by
  obtain ⟨r, r', hr, hr', halike⟩ := h
  obtain ⟨node, node', meets, meets', same⟩ := halike.exists_meets
  have hstatus := FileSystem.status_ok_iff.2 ⟨r, hr, meets.node⟩
  have hstatus' := FileSystem.status_ok_iff.2 ⟨r', hr', meets'.node⟩
  have htop : node.isDirectory := by rwa [FileSystem.isDirectory, hstatus] at hdir
  have htop' : node'.isDirectory := (Node.isDirectory_eq same).symm.trans htop
  have hat : fs.isDirectoryAt (spotAt source r).location := by
    rw [FileSystem.isDirectoryAt, meets.node]
    exact htop
  have honward : fs.Onward [] (spotAt source r) := fun _ ha => absurd ha List.not_mem_nil
  have honward' : fs'.Onward [] (spotAt source' r') := fun _ ha => absurd ha List.not_mem_nil
  have hwalk := halike.tour rfl hat FileSystem.levelLimit honward honward'
  refine requireOpen_lockstep.bind fun _ _ _ => ?_
  rw [hstatus, hstatus']
  show Lockstep (Twin loc loc') Eq (if node.isDirectory then _ else _)
    (if node'.isDirectory then _ else _)
  rw [if_pos htop, if_pos htop', FileSystem.walk, FileSystem.walk, hr, hr']
  exact importWalk_lockstep dest mode hwalk

end Builder

/-! ## Builds -/

namespace Assembling
variable {loc loc' : Location}

theorem ofBuilding_lockstep {act act' : Building Unit}
    (h : Lockstep (Builder.Twin loc loc') Eq act act') :
    Lockstep (Builder.Twin loc loc') Eq (ofBuilding act) (ofBuilding act') :=
  h.of_ok_iff (fun _ _ => ofBuilding_ok_iff) fun _ _ => ofBuilding_ok_iff

theorem within_lockstep {act act' : Assembling Unit} (context context' : Context)
    (h : Lockstep (Builder.Twin loc loc') Eq act act') :
    Lockstep (Builder.Twin loc loc') Eq (within context act) (within context' act') :=
  h.of_ok_iff (fun _ _ => within_ok_iff) fun _ _ => within_ok_iff

theorem within_of_error {act : Building Unit} {cause : Cause} {b b' : Builder} (context : Context)
    (h : act b = .error cause b') : within context (ofBuilding act) b = .error ⟨[context], cause⟩ b' := by
  simp only [within, ofBuilding, h]
  rfl

end Assembling

namespace Build
variable {fs fs' : FileSystem} {loc loc' : Location}

open FileSystem (SameSource spotAt)

/-- A source that cannot be opened is not added, whatever its permission bits. -/
theorem addSource_error (mode : Option UInt32) (dest : String) {source source' : Bytes}
    {cause : Cause} {b : Builder} (h : SameSource fs fs' loc loc' source source')
    (hplace : b.sink.place = some loc) (hdir : ¬ fs.isDirectory source)
    (hopen : fs.openPath source = .error cause) :
    ∃ e b', addSource fs mode source dest b = .error e b' := by
  cases hadd : addSource fs mode source dest b with
  | error e b' => exact ⟨e, b', rfl⟩
  | ok _ b' =>
    rcases addSource_ok hadd with ⟨hdir', -⟩ | ⟨-, m, hfile⟩
    · exact absurd hdir' hdir
    · exact absurd hfile (Builder.importFile_ne_ok h hplace hopen)

theorem modeFor_congr {source source' : Bytes}
    (h : fs.mayExecute source = fs'.mayExecute source') (mode : Option UInt32) :
    modeFor fs source mode = modeFor fs' source' mode := by
  cases mode with
  | some m => rfl
  | none => rw [modeFor, modeFor, h]

/-- **A source is added in the same way in both**, if as a file it may be executed
    in both or in neither. -/
theorem addSource_lockstep (mode : Option UInt32) (dest : String) {source source' : Bytes}
    (h : SameSource fs fs' loc loc' source source')
    (hexec : fs.isFile source → fs.mayExecute source = fs'.mayExecute source') :
    Lockstep (Builder.Twin loc loc') Eq (addSource fs mode source dest)
      (addSource fs' mode source' dest) := by
  by_cases hdir : fs.isDirectory source
  · have hdir' : fs'.isDirectory source' := h.isDirectory.symm.trans hdir
    rw [addSource, addSource, if_pos hdir, if_pos hdir']
    exact Assembling.ofBuilding_lockstep (Builder.importTree_lockstep dest mode hdir h)
  · have hdir' : ¬ fs'.isDirectory source' := by rwa [← h.isDirectory]
    -- what cannot be opened is missed in both; for anything else the bits agree
    rcases h.closed_or_bits (by simpa using hdir) hexec with ⟨cause, hopen⟩ | hbits
    · intro b b' htwin
      have hopen' := h.openPath.symm.trans hopen
      obtain ⟨e, c, hadd⟩ := addSource_error mode dest h htwin.place hdir hopen
      obtain ⟨e', c', hadd'⟩ := addSource_error mode dest h.symm htwin.place' hdir' hopen'
      rw [hadd, hadd']
      exact .error
    · rw [addSource, addSource, if_neg hdir, if_neg hdir', modeFor_congr hbits]
      refine (ofExcept_lockstep _).bind ?_
      rintro m _ rfl
      exact Assembling.ofBuilding_lockstep (Builder.importFile_lockstep dest (some m) h)

/-! ## Inputs -/

/-- The path of the source that an argument names. -/
def sourceOf (arg : String) : Bytes :=
  bytesOf (mapping arg separator).1

/-- Two arguments with the same destination, whose sources show the same and as
    files may be executed in both or in neither. -/
structure SameInput (fs fs' : FileSystem) (loc loc' : Location) (arg arg' : String) : Prop where
  destination : (mapping arg separator).2 = (mapping arg' separator).2
  source : fs.SameSource fs' loc loc' (sourceOf arg) (sourceOf arg')
  bits : fs.isFile (sourceOf arg) →
    fs.mayExecute (sourceOf arg) = fs'.mayExecute (sourceOf arg')

theorem SameInput.put (hloc : fs.CanHold loc) (hloc' : fs'.CanHold loc') {mode mode' : UInt32}
    {content content' : Bytes} {arg arg' : String} (h : SameInput fs fs' loc loc' arg arg') :
    SameInput (fs.put loc (.file mode content)) (fs'.put loc' (.file mode' content')) loc loc'
      arg arg' := by
  refine ⟨h.destination, h.source.put hloc hloc', ?_⟩
  have hbits := h.bits
  rw [FileSystem.isFile, FileSystem.mayExecute, FileSystem.mayExecute] at hbits ⊢
  rw [h.source.status_put hloc, h.source.symm.status_put hloc']
  exact hbits

/-- A directory that is asked for is added as a walk goes through it. -/
theorem addFile_of_walk {mode : Option UInt32} {arg : String} {walk : Walk}
    (hdir : fs.isDirectory (sourceOf arg)) (hwalk : fs.walk (sourceOf arg) = .ok walk) :
    addFile fs mode arg = Assembling.within (.adding (mapping arg separator).1)
      (Assembling.ofBuilding (do
        Builder.requireOpen
        Builder.importWalk fs (plainDestination (mapping arg separator).2) mode walk)) := by
  unfold sourceOf at hdir hwalk
  unfold addFile
  dsimp only
  rw [addSource, if_pos hdir, Builder.importTree_eq_of_walk _ mode hdir hwalk]

theorem addFile_lockstep (mode : Option UInt32) {arg arg' : String}
    (h : SameInput fs fs' loc loc' arg arg') :
    Lockstep (Builder.Twin loc loc') Eq (addFile fs mode arg) (addFile fs' mode arg') := by
  unfold addFile
  dsimp only
  rw [← h.destination]
  exact Assembling.within_lockstep _ _ (addSource_lockstep mode _ h.source h.bits)

theorem addLink_lockstep (arg : String) :
    Lockstep (Builder.Twin loc loc') Eq (addLink arg) (addLink arg) :=
  Assembling.within_lockstep _ _ (Assembling.ofBuilding_lockstep (Builder.add_lockstep _))

/-- **All that is asked for is added in the same way in both.** -/
theorem addAll_lockstep (mode : Option UInt32) {b b' : Build}
    (hfiles : List.Forall₂ (SameInput fs fs' loc loc') b.files b'.files)
    (hlinks : b.links = b'.links) :
    Lockstep (Builder.Twin loc loc') Eq (b.addAll fs mode) (b'.addAll fs' mode) := by
  refine (Lockstep.forM hfiles fun _ _ => addFile_lockstep mode).bind fun _ _ _ => ?_
  rw [hlinks]
  refine Lockstep.forM (List.forall₂_same.2 fun _ _ => rfl) ?_
  rintro arg _ rfl
  exact addLink_lockstep arg

/-! ## Builds -/

/-- The making of an archive, from its root directory to its end. -/
def making (b : Build) (fs : FileSystem) (mode : Option UInt32) : Assembling Unit := do
  Assembling.ofBuilding Builder.addRoot
  b.addAll fs mode
  Assembling.ofBuilding Builder.finish

/-- **The making of an archive is the same in both.** -/
theorem making_lockstep (mode : Option UInt32) {b b' : Build}
    (hfiles : List.Forall₂ (SameInput fs fs' loc loc') b.files b'.files)
    (hlinks : b.links = b'.links) :
    Lockstep (Builder.Twin loc loc') Eq (b.making fs mode) (b'.making fs' mode) := by
  refine (Assembling.ofBuilding_lockstep Builder.addRoot_lockstep).bind fun _ _ _ => ?_
  refine (addAll_lockstep mode hfiles hlinks).bind fun _ _ _ => ?_
  exact Assembling.ofBuilding_lockstep Builder.finish_lockstep

theorem making_of_fill {b : Build} {settings : Settings}
    (h : (b.fill fs (.file loc) settings).failure = none) :
    ∃ closed, b.making fs settings.mode (.fresh settings.options { place := some loc }) =
      .ok () closed := by
  obtain ⟨begun, last, hstart, hinputs, hfill⟩ := fill_ok h
  rw [hfill] at h
  obtain ⟨_, closed, -, hfinish, -⟩ := complete_ok h
  refine ⟨closed, bind_eq_ok.2 ⟨(), begun, Assembling.ofBuilding_ok_iff.2 hstart, ?_⟩⟩
  exact bind_eq_ok.2 ⟨(), last, hinputs, Assembling.ofBuilding_ok_iff.2 hfinish⟩

theorem fill_of_making {b : Build} {settings : Settings} {closed : Builder}
    (h : b.making fs settings.mode (.fresh settings.options { place := some loc }) =
      .ok () closed) :
    b.fill fs (.file loc) settings = ended fs (.file loc) none closed := by
  obtain ⟨_, begun, hroot, hrest⟩ := bind_eq_ok.1 h
  obtain ⟨_, last, hinputs, hclosing⟩ := bind_eq_ok.1 hrest
  have hstart : Builder.start settings.options (Output.file loc).sink = .ok () begun :=
    Assembling.ofBuilding_ok_iff.1 hroot
  have hfinish : Builder.finish last = .ok () closed := Assembling.ofBuilding_ok_iff.1 hclosing
  simp only [fill, hstart, hinputs, complete, hfinish]
  rfl

/-- What a build that succeeds leaves where its archive is. -/
theorem node?_of_making {b : Build} {settings : Settings} {closed : Builder}
    (hplace : closed.sink.place = some loc)
    (h : b.making fs settings.mode (.fresh settings.options { place := some loc }) =
      .ok () closed) :
    (b.fill fs (.file loc) settings).fileSystem.node? loc =
      some (.file (fs.modeAt loc) closed.sink.contents) := by
  rw [fill_of_making h]
  exact FileSystem.node?_including hplace

/-- Two archives that have been created come to the same end. -/
theorem fill_reproducible {b b' : Build} (settings : Settings)
    (hfiles : List.Forall₂ (SameInput fs fs' loc loc') b.files b'.files)
    (hlinks : b.links = b'.links) :
    ((b.fill fs (.file loc) settings).failure = none ↔
        (b'.fill fs' (.file loc') settings).failure = none) ∧
      ((b.fill fs (.file loc) settings).failure = none → ∃ content m m',
        (b.fill fs (.file loc) settings).fileSystem.node? loc = some (.file m content) ∧
          (b'.fill fs' (.file loc') settings).fileSystem.node? loc' = some (.file m' content)) := by
  have hmaking := making_lockstep settings.mode hfiles hlinks _ _
    (Builder.twin_fresh settings.options)
  cases hm : b.making fs settings.mode (.fresh settings.options { place := some loc }) with
  | ok _ closed =>
    rw [hm] at hmaking
    obtain ⟨_, closed', hm', -, htwin⟩ := hmaking.of_ok
    have hnode := node?_of_making htwin.place hm
    have hnode' := node?_of_making htwin.place' hm'
    rw [← htwin.contents] at hnode'
    refine ⟨?_, fun _ => ⟨_, _, _, hnode, hnode'⟩⟩
    rw [fill_of_making hm, fill_of_making hm']
    exact Iff.rfl
  | error e last =>
    rw [hm] at hmaking
    obtain ⟨e', last', hm'⟩ := hmaking.of_error
    have hfails : (b.fill fs (.file loc) settings).failure ≠ none := by
      intro h
      obtain ⟨closed, hmade⟩ := making_of_fill h
      cases hm.symm.trans hmade
    have hfails' : (b'.fill fs' (.file loc') settings).failure ≠ none := by
      intro h
      obtain ⟨closed, hmade⟩ := making_of_fill h
      cases hm'.symm.trans hmade
    exact ⟨iff_of_false hfails hfails', fun h => absurd h hfails⟩

/-- **The same input gives the same archive.**  With the same settings, inputs
    that show the same and the same links, two builds both succeed or both fail,
    and if they succeed their archives hold the same bytes, whatever was there
    before. -/
theorem run_reproducible {b b' : Build} {created created' : FileSystem}
    (hset : b.settings fs = b'.settings fs')
    (hcreate : fs.create (bytesOf b.output) = .ok (created, .file loc))
    (hcreate' : fs'.create (bytesOf b'.output) = .ok (created', .file loc'))
    (hfiles : List.Forall₂ (SameInput fs fs' loc loc') b.files b'.files)
    (hlinks : b.links = b'.links) :
    ((b.run fs).failure = none ↔ (b'.run fs').failure = none) ∧
      ((b.run fs).failure = none → ∃ content m m',
        (b.run fs).fileSystem.node? loc = some (.file m content) ∧
          (b'.run fs').fileSystem.node? loc' = some (.file m' content)) := by
  obtain ⟨hcan, m, rfl⟩ := FileSystem.create_file hcreate
  obtain ⟨hcan', m', rfl⟩ := FileSystem.create_file hcreate'
  have hinputs : List.Forall₂
      (SameInput (fs.put loc (.file m [])) (fs'.put loc' (.file m' [])) loc loc') b.files b'.files :=
    hfiles.imp fun _ _ h => h.put hcan hcan'
  cases hs : b.settings fs with
  | error e =>
    have hs' := hset.symm.trans hs
    have hfails : (b.run fs).failure ≠ none := by simp [run, hs]
    have hfails' : (b'.run fs').failure ≠ none := by simp [run, hs']
    exact ⟨iff_of_false hfails hfails', fun h => absurd h hfails⟩
  | ok settings =>
    have hs' := hset.symm.trans hs
    have hrun : b.run fs = b.fill (fs.put loc (.file m [])) (.file loc) settings :=
      run_of_create hs hcreate
    have hrun' : b'.run fs' = b'.fill (fs'.put loc' (.file m' [])) (.file loc') settings :=
      run_of_create hs' hcreate'
    rw [hrun, hrun']
    exact fill_reproducible settings hinputs hlinks

/-! ## Two files in a directory -/

/-- A directory with two files. -/
def twoFiles : FileSystem where
  items := [([bytesOf "src"], .directory 0o755),
    ([bytesOf "a", bytesOf "src"], .file 0o644 (bytesOf "1")),
    ([bytesOf "b", bytesOf "src"], .file 0o600 (bytesOf "2"))]
  distinct := by decide

/-- The same elsewhere, the other way round and one of them behind a link. -/
def twoFilesElsewhere : FileSystem where
  items := [([bytesOf "new.tar"], .file 0o600 (bytesOf "old")),
    ([bytesOf "tree"], .directory 0o700),
    ([bytesOf "b", bytesOf "tree"], .file 0o644 (bytesOf "2")),
    ([bytesOf "a", bytesOf "tree"], .link (bytesOf "/kept")),
    ([bytesOf "kept"], .file 0o755 (bytesOf "1"))]
  distinct := by decide

def packed : Build := { output := "out.tar", files := ["src=d"] }

def packedElsewhere : Build := { output := "new.tar", files := ["tree=d"] }

theorem sameSource_twoFiles : twoFiles.SameSource twoFilesElsewhere [bytesOf "out.tar"]
    [bytesOf "new.tar"] (bytesOf "src") (bytesOf "tree") := by
  refine ⟨([bytesOf "src"], 40), ([bytesOf "tree"], 40), by decide, by decide, ?_⟩
  have hnames : twoFiles.names [bytesOf "src"] = [bytesOf "a", bytesOf "b"] := by decide
  have hnames' : twoFilesElsewhere.names [bytesOf "tree"] = [bytesOf "b", bytesOf "a"] := by
    decide
  have htop : twoFiles.Meets [bytesOf "out.tar"] (spotAt (bytesOf "src") ([bytesOf "src"], 40))
      (.directory 0o755) := ⟨by decide, by decide, by decide, by decide⟩
  have htop' : twoFilesElsewhere.Meets [bytesOf "new.tar"]
      (spotAt (bytesOf "tree") ([bytesOf "tree"], 40)) (.directory 0o700) :=
    ⟨by decide, by decide, by decide, by decide⟩
  let child (dir name : String) (loc : Location) (links : Nat) : Spot :=
    (spotAt (bytesOf dir) ([bytesOf dir], 40)).child (bytesOf name) loc links
  refine .of_children htop htop' ?_ ?_
  · intro name
    simp only [spotAt, hnames, hnames', List.mem_pair, or_comm]
  · intro name hname
    simp only [spotAt, hnames, List.mem_pair] at hname
    rcases hname with rfl | rfl
    · have hsame : (Node.file 0o644 (bytesOf "1")).bare = (Node.file 0o755 (bytesOf "1")).bare := rfl
      refine ⟨child "src" "a" [bytesOf "a", bytesOf "src"] 40, child "tree" "a" [bytesOf "kept"] 39,
        by decide, by decide,
        .item ⟨?_, ?_, ?_, ?_⟩ ⟨?_, ?_, ?_, ?_⟩ hsame rfl⟩ <;> decide
    · have hsame : (Node.file 0o600 (bytesOf "2")).bare = (Node.file 0o644 (bytesOf "2")).bare := rfl
      refine ⟨child "src" "b" [bytesOf "b", bytesOf "src"] 40,
        child "tree" "b" [bytesOf "b", bytesOf "tree"] 40, by decide, by decide,
        .item ⟨?_, ?_, ?_, ?_⟩ ⟨?_, ?_, ?_, ?_⟩ hsame rfl⟩ <;> decide

/-- What a walk through the two files meets. -/
def twoFilesWalk : Walk :=
  let top := spotAt (bytesOf "src") ([bytesOf "src"], 40)
  { spots := [top, top.child (bytesOf "a") [bytesOf "a", bytesOf "src"] 40,
      top.child (bytesOf "b") [bytesOf "b", bytesOf "src"] 40] }

/-- The file system once the archive is opened. -/
def twoFilesOpened : FileSystem :=
  twoFiles.put [bytesOf "out.tar"] (.file FileSystem.newFileMode [])

theorem walk_twoFilesOpened : twoFilesOpened.walk (bytesOf "src") = .ok twoFilesWalk := by
  have hsource : twoFilesOpened.resolveLinks (bytesOf "src") = .ok ([bytesOf "src"], 40) := by
    decide
  have hnames : twoFilesOpened.names [bytesOf "src"] = [bytesOf "a", bytesOf "b"] := by
    decide
  exact FileSystem.walk_of_leaves hsource (by decide) hnames (by decide)
    (.cons (by decide) (.cons (by decide) .nil))

theorem create_packed : twoFiles.create (bytesOf packed.output) =
    .ok (twoFilesOpened, .file [bytesOf "out.tar"]) := by decide +kernel

/-- The build of the two files succeeds. -/
theorem failure_packed : (packed.run twoFiles).failure = none := by
  have hsettings : packed.settings twoFiles = .ok usualSettings :=
    settings_usual rfl rfl (by decide)
  rw [run_of_create hsettings create_packed]
  have hsource : sourceOf "src=d" = bytesOf "src" := by decide
  have hdir : twoFilesOpened.isDirectory (sourceOf "src=d") := by decide
  have hwalk : twoFilesOpened.walk (sourceOf "src=d") = .ok twoFilesWalk :=
    hsource ▸ walk_twoFilesOpened
  have hargument : mapping "src=d" separator = ("src", "d") := by decide
  have hdest : plainDestination "d" = "d" := by decide
  have hadd : packed.addAll twoFilesOpened usualSettings.mode =
      (do addFile twoFilesOpened none "src=d"; pure ()) >>= pure := rfl
  simp only [fill, hadd, addFile_of_walk hdir hwalk, hargument, hdest]
  decide +kernel

theorem run_reproducible_twoFiles : ∃ content m m',
    (packed.run twoFiles).fileSystem.node? [bytesOf "out.tar"] = some (.file m content) ∧
      (packedElsewhere.run twoFilesElsewhere).fileSystem.node? [bytesOf "new.tar"] =
        some (.file m' content) := by
  have hset : packed.settings twoFiles = packedElsewhere.settings twoFilesElsewhere :=
    (settings_eq rfl (by decide)).trans (settings_eq rfl (by decide)).symm
  have hcreate' : twoFilesElsewhere.create (bytesOf packedElsewhere.output) =
      .ok (twoFilesElsewhere.put [bytesOf "new.tar"] (.file 0o600 []),
        .file [bytesOf "new.tar"]) := by decide +kernel
  have hdir : twoFiles.isFile (sourceOf "src=d") = false := by decide
  have hfiles : List.Forall₂ (SameInput twoFiles twoFilesElsewhere [bytesOf "out.tar"]
      [bytesOf "new.tar"]) packed.files packedElsewhere.files := by
    refine .cons ⟨by decide, sameSource_twoFiles, fun hfile => ?_⟩ .nil
    rw [hdir] at hfile
    cases hfile
  exact (run_reproducible hset create_packed hcreate' hfiles rfl).2 failure_packed

/-! ## A long way -/

/-- A text after any number of `./`. -/
def dottedText (n : Nat) (text : String) : String :=
  String.ofList ((List.replicate n ['.', '/']).flatten ++ text.toList)

theorem bytesOf_dottedText (n : Nat) (text : String) :
    bytesOf (dottedText n text) = FileSystem.dotted n (bytesOf text) := by
  rw [bytesOf, dottedText, String.toList_ofList, List.flatMap_append, FileSystem.dotted]
  refine congrArg (· ++ _) ?_
  induction n with
  | zero => rfl
  | succ n ih =>
    rw [List.replicate_succ, List.flatten_cons, List.flatMap_append, ih]
    rfl

/-- The dots go to the first part of an argument. -/
theorem mapping_dottedText (n : Nat) (text : String) : mapping (dottedText n text) separator =
    (dottedText n (mapping text separator).1, (mapping text separator).2) := by
  have hscan (rest : List Char) : Mapping.scan separator false
      ((List.replicate n ['.', '/']).flatten ++ rest) =
        ((List.replicate n ['.', '/']).flatten ++ (Mapping.scan separator false rest).1,
          (Mapping.scan separator false rest).2) := by
    induction n with
    | zero => rfl
    | succ n ih =>
      have hdots : '.' ≠ separator ∧ '/' ≠ separator := by decide
      simp [List.replicate_succ, Mapping.scan, hdots, ih]
  simp only [mapping, dottedText, String.toList_ofList, hscan]

open Builder (oneFile oneTree oneSpot oneSpotBelow oneWalk longWay)

/-- A directory with one file, as `p`, by whatever way to it is given. -/
def packedBy (arg : String) : Build := { output := "out.tar", files := [arg] }

/-- The long way to the directory. -/
def longArgument : String := dottedText 2045 "t=p"

theorem mapping_longArgument : mapping longArgument separator = (dottedText 2045 "t", "p") := by
  have hshort : mapping "t=p" separator = ("t", "p") := by decide
  rw [longArgument, mapping_dottedText, hshort]

theorem sourceOf_longArgument : sourceOf longArgument = longWay := by
  rw [sourceOf, mapping_longArgument]
  exact bytesOf_dottedText 2045 "t"

/-- The file system with the directory once the archive has been created. -/
def besideArchive : FileSystem := oneFile.put [bytesOf "out.tar"] (.file FileSystem.newFileMode [])

theorem create_oneFile (arg : String) : oneFile.create (bytesOf (packedBy arg).output) =
    .ok (besideArchive, .file [bytesOf "out.tar"]) := by
  show oneFile.create (bytesOf "out.tar") = _
  decide +kernel

theorem settings_packedBy (arg : String) : (packedBy arg).settings oneFile = .ok usualSettings :=
  settings_usual rfl rfl (by decide)

/-- By any way the directory and the file in it are met. -/
theorem addFile_packedBy {arg : String} (hdest : (mapping arg separator).2 = "p")
    (hway : oneFile.resolveLinks (sourceOf arg) = .ok ([bytesOf "t"], 40)) :
    addFile besideArchive none arg =
      Assembling.within (.adding (mapping arg separator).1) (Assembling.ofBuilding (do
        Builder.requireOpen
        Builder.importWalk besideArchive "p" none (oneWalk (sourceOf arg)))) := by
  have hcan : oneFile.CanHold [bytesOf "out.tar"] := (FileSystem.create_file (create_oneFile arg)).1
  have hshort : FileSystem.isTooLong (sourceOf arg) = false :=
    (FileSystem.resolveLinks_ok_iff.1 hway).2.1
  have hway' : besideArchive.resolveLinks (sourceOf arg) = .ok ([bytesOf "t"], 40) :=
    FileSystem.resolveLinks_put hcan hway
  have hnames : besideArchive.names [bytesOf "t"] = [bytesOf "abcd"] := by decide
  have henter : besideArchive.enter (oneSpot (sourceOf arg)) (bytesOf "abcd") =
      .ok (oneSpotBelow (sourceOf arg)) :=
    FileSystem.enter_put hcan (List.cons_ne_nil _ _) Builder.enter_oneSpot
  have hleaf : besideArchive.isDirectoryAt [bytesOf "abcd", bytesOf "t"] = false := by
    decide
  have hdir : besideArchive.isDirectory (sourceOf arg) :=
    FileSystem.isDirectory_iff.2 ⟨_, hway', by decide⟩
  have hplain : plainDestination "p" = "p" := by decide
  have hwalk : besideArchive.walk (sourceOf arg) = .ok (oneWalk (sourceOf arg)) :=
    FileSystem.walk_of_leaves hway' hshort hnames (List.pairwise_singleton _ _)
      (.cons ⟨henter, hleaf⟩ .nil)
  rw [addFile_of_walk hdir hwalk, hdest, hplain]

theorem addAll_packedBy (arg : String) : (packedBy arg).addAll besideArchive usualSettings.mode =
    (do addFile besideArchive none arg; pure ()) >>= pure := rfl

theorem failure_shortWay : ((packedBy "t=p").run oneFile).failure = none := by
  have hargument : mapping "t=p" separator = ("t", "p") := by decide
  have hway : oneFile.resolveLinks (sourceOf "t=p") = .ok ([bytesOf "t"], 40) := by decide
  rw [run_of_create (settings_packedBy _) (create_oneFile _)]
  simp only [fill, addAll_packedBy, addFile_packedBy (congrArg Prod.snd hargument) hway, hargument]
  decide +kernel

/-- The builder with which the archive is begun. -/
def usualStart : Builder :=
  .fresh usualSettings.options (Output.file [bytesOf "out.tar"]).sink

/-- What is in the way of the import is in the way of the build. -/
theorem failure_packedBy {arg : String} {cause : Cause} (hdest : (mapping arg separator).2 = "p")
    (hway : oneFile.resolveLinks (sourceOf arg) = .ok ([bytesOf "t"], 40))
    (hfault : (Outcome.ofResult
      (Builder.importWalk besideArchive "p" none (oneWalk (sourceOf arg)) usualStart)).failure =
        some cause) :
    ((packedBy arg).run oneFile).failure = some ⟨[.adding (mapping arg separator).1], cause⟩ := by
  have hstart : Builder.start usualSettings.options (Output.file [bytesOf "out.tar"]).sink =
    .ok () usualStart := rfl
  obtain ⟨last, himport⟩ := Outcome.exists_of_failure hfault
  have hopen : Builder.requireOpen usualStart = .ok () usualStart := rfl
  have hact : (do
      Builder.requireOpen
      Builder.importWalk besideArchive "p" none (oneWalk (sourceOf arg)) : Building Unit)
        usualStart = .error cause last := by
    rw [bind_of_ok hopen, himport]
  have hfile := Assembling.within_of_error (.adding (mapping arg separator).1) hact
  rw [← addFile_packedBy hdest hway] at hfile
  rw [run_of_create (settings_packedBy _) (create_oneFile _)]
  simp only [fill, hstart, addAll_packedBy, bind_of_error (bind_of_error hfile)]
  rfl

theorem failure_longWay : ((packedBy longArgument).run oneFile).failure =
    some ⟨[.adding (dottedText 2045 "t")], .system .nameTooLong⟩ := by
  have hdest : (mapping longArgument separator).2 = "p" := by rw [mapping_longArgument]
  have hway : oneFile.resolveLinks (sourceOf longArgument) = .ok ([bytesOf "t"], 40) := by
    rw [sourceOf_longArgument]
    exact Builder.resolveLinks_longWay
  rw [failure_packedBy hdest hway, mapping_longArgument]
  rw [sourceOf_longArgument]
  decide +kernel

/-- The same directory, asked for twice under the same name: by the long way the
    path to its file is too long, so only one of the two builds succeeds. -/
theorem longWay_fails_alone :
    (packedBy "t=p").settings oneFile = (packedBy longArgument).settings oneFile ∧
      (mapping "t=p" separator).2 = (mapping longArgument separator).2 ∧
      oneFile.LeadsTo (bytesOf "t") oneTree ∧
      oneFile.resolve (sourceOf "t=p") = .ok [bytesOf "t"] ∧
      oneFile.resolve (sourceOf longArgument) = .ok [bytesOf "t"] ∧
      oneFile.create (bytesOf "out.tar") = .ok (besideArchive, .file [bytesOf "out.tar"]) ∧
      ¬ [bytesOf "t"] <:+ [bytesOf "out.tar"] ∧
      ((packedBy "t=p").run oneFile).failure = none ∧
      ((packedBy longArgument).run oneFile).failure =
        some ⟨[.adding (dottedText 2045 "t")], .system .nameTooLong⟩ := by
  refine ⟨(settings_packedBy _).trans (settings_packedBy _).symm, ?_, Builder.leadsTo_oneTree,
    by decide, ?_, create_oneFile "", by decide, failure_shortWay, failure_longWay⟩
  · rw [mapping_longArgument]
    decide
  · rw [sourceOf_longArgument]
    exact FileSystem.resolve_of_resolveLinks Builder.resolveLinks_longWay

end Build

end Tarball
