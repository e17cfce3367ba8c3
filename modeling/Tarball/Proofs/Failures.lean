/-
  What is left where an input fails.

  The inputs of a build are worked off one after the other, up to the first one
  that has a fault.  The build fails with that fault, and what it leaves is a
  complete archive all the same: the members of the inputs before, and if the
  faulty one is a directory, those of its items before the one at fault.

  * `Build.Input` is one input; `Build.Input.fault` is why it cannot be added, if
    it cannot, and `Build.Input.asked` what it asks for up to then;
  * `Build.Input.comes`: what comes of an input, `Build.addAll_comes` of all;
  * `Build.failing_input`: what a build that fails leaves.
-/
import Tarball.Proofs.Reproducible
import Tarball.Proofs.Unhindered
import Tarball.Proofs.Walks

namespace Tarball

namespace Builder

/-- Nothing is in the way of a new archive whose owner fits a header. -/
theorem unhindered_fresh (o : Options) {sink : Sink} (hroom : sink.room = none)
    (howner : o.owner.fault = none) : (fresh o sink).Unhindered fun _ => False where
  orderly := orderly_fresh o sink
  claims _ := ⟨fun _ => (or_false _).symm.to_iff, fun _ => False.elim⟩
  room := hroom
  isOpen := rfl
  owner := howner

/-- A new archive is opened with its root directory, if there is to be one. -/
theorem start_reaches (o : Options) {sink : Sink} (hroom : sink.room = none)
    (howner : o.owner.fault = none) : ∃ begun, start o sink = .ok () begun ∧
      Reaches (fun _ => False) (rootRequest (fresh o sink).root) (fresh o sink) begun := by
  have hfresh := unhindered_fresh o hroom howner
  rw [start, addRoot_eq, rootRequest]
  split
  · obtain ⟨begun, hrun, hreach⟩ := addAt_comes_directory hfresh (Request.filled_directory "") rfl
      (Placement.plain_entry (fresh o sink).root "")
    exact ⟨begun, hrun, hreach⟩
  · exact ⟨_, rfl, .refl hfresh⟩

/-- An archive that nothing stands in the way of can be closed, and holds its
    members then. -/
theorem Unhindered.close {lost : String → Prop} {b : Builder} (hb : b.Unhindered lost)
    (hsound : b.Sound) : ∃ closed, Builder.close b = .ok () closed ∧ Builder.finish b = .ok () closed ∧
      closed.Sound ∧ closed.isOpen = false ∧ closed.members = b.members ∧
      closed.sink.place = b.sink.place := by
  obtain ⟨s, hwrite, -⟩ := Sink.write_of_room_eq_none hb.room endMarker
  have hclose := close_of_write hb.isOpen hwrite
  have hopen := Builder.requireOpen_of_open hb.isOpen
  have hmove : Move (fun _ => True) b { b with isOpen := false, sink := s } := .close hb.isOpen hwrite
  exact ⟨_, hclose, (bind_of_ok hopen).trans hclose, hmove.sound hsound, rfl, rfl,
    place_of_write hwrite⟩

end Builder

/-! ## Steps within greater ones -/

namespace Assembling
open Builder (Comes)

variable {lost : String → Prop} {asked : List Asked} {b : Builder}

theorem ofBuilding_comes {fault : Option Cause} {act : Building Unit} (h : Comes lost asked fault act b) :
    Comes lost asked (fault.map Error.ofCause) (ofBuilding act) b := by
  obtain ⟨b', hrun, hreach⟩ := h
  refine ⟨b', ?_, hreach⟩
  rw [ofBuilding, hrun]
  cases fault with
  | none => rfl
  | some cause => rfl

theorem within_comes {fault : Option Error} {act : Assembling Unit} (context : Context)
    (h : Comes lost asked fault act b) :
    Comes lost asked (fault.map (Error.within context)) (within context act) b := by
  obtain ⟨b', hrun, hreach⟩ := h
  refine ⟨b', ?_, hreach⟩
  rw [within, hrun]
  cases fault with
  | none => rfl
  | some e => rfl

end Assembling

namespace Build
open Builder (Comes Reaches Unhindered askedUnless askedUpTo askedUnless_none askedUnless_some
  askedUpTo_append askedUpTo_of_forall)

/-! ## Inputs -/

/-- An input: a source with its destination or a link with its target. -/
inductive Input where
  | file (arg : String)
  | link (arg : String)
  deriving DecidableEq, Repr

/-- The inputs of a build in their order, sources before links. -/
def inputs (b : Build) : List Input :=
  b.files.map .file ++ b.links.map .link

/-- The destination that an argument gives its source. -/
def destinationOf (arg : String) : String :=
  plainDestination (mapping arg separator).2

/-- The name that an argument gives a link. -/
def linkNameOf (arg : String) : String :=
  plainDestination (mapping arg separator).1

section
variable (fs : FileSystem) (root : Option String) (mode : Option UInt32)

/-- Why a source cannot be added: if it is a directory, the fault of its tree;
    otherwise its permission bits or the file itself cannot be read. -/
def sourceFault (source : Bytes) (dest : String) : Option Error :=
  if fs.isDirectory source then
    match fs.walk source with
    | .ok walk => (walkFault fs root dest walk).map Error.ofCause
    | .error cause => some cause
  else
    match modeFor fs source mode with
    | .ok _ => (fileFault fs root dest source).map Error.ofCause
    | .error e => some e

/-- What a source asks for, up to its fault if it has one. -/
def sourceAsked (source : Bytes) (dest : String) : List Asked :=
  if fs.isDirectory source then
    match fs.walk source with
    | .ok walk => walkAsked fs root dest mode walk
    | .error _ => []
  else
    match modeFor fs source mode with
    | .ok m => askedUnless (fileFault fs root dest source) (fileRequest fs root dest source (some m))
    | .error _ => []

/-- Why a link cannot be added: there is no name for it. -/
def linkFault (name : String) : Option Cause :=
  if (Placement.entry root name).isRoot then some (.nameless name .symlink) else none

/-- Why an input cannot be added, with what was being done. -/
def Input.fault : Input → Option Error
  | file arg => (sourceFault fs root mode (sourceOf arg) (destinationOf arg)).map
      (Error.within (.adding (mapping arg separator).1))
  | link arg => ((linkFault root (linkNameOf arg)).map Error.ofCause).map
      (Error.within (.linking (mapping arg separator).1))

/-- What an input asks for, up to its fault if it has one. -/
def Input.asked : Input → List Asked
  | file arg => sourceAsked fs root mode (sourceOf arg) (destinationOf arg)
  | link arg => askedUnless (linkFault root (linkNameOf arg))
      [⟨.symlink (linkNameOf arg) (mapping arg separator).2, .entry root (linkNameOf arg)⟩]

/-- The adding of an input. -/
def Input.add : Input → Assembling Unit
  | file arg => addFile fs mode arg
  | link arg => addLink arg

/-- Whether an input is read from nothing that lies in a place. -/
def Input.Apart (place : Option Location) : Input → Prop
  | file arg => fs.Apart place (sourceOf arg)
  | link _ => True

end

section
variable {fs : FileSystem} {mode : Option UInt32} {b : Builder}

/-- **A source** is added, or it has a fault. -/
theorem addSource_comes {source : Bytes} (dest : String) (hb : b.Unhindered fun _ => False)
    (happart : fs.Apart b.sink.place source) :
    Comes (fun _ => False) (sourceAsked fs b.root mode source dest)
      (sourceFault fs b.root mode source dest) (addSource fs mode source dest) b := by
  unfold sourceAsked sourceFault addSource
  by_cases hdir : fs.isDirectory source
  · rw [if_pos hdir, if_pos hdir, if_pos hdir]
    obtain ⟨walk, hwalk⟩ := FileSystem.exists_walk hdir
    rw [hwalk]
    exact Assembling.ofBuilding_comes
      (Builder.importTree_comes hb happart hdir hwalk fun _ _ _ _ _ => id)
  · rw [if_neg hdir, if_neg hdir, if_neg hdir]
    cases modeFor fs source mode with
    | error e => exact .of_error hb rfl
    | ok m =>
      exact Assembling.ofBuilding_comes
        (Builder.importFile_comes hb happart (by simpa using hdir) id)

/-- A link is added, unless there is no name for it. -/
theorem addSymlink_comes (name target : String) (hb : b.Unhindered fun _ => False) :
    Comes (fun _ => False)
      (askedUnless (linkFault b.root name) [⟨.symlink name target, .entry b.root name⟩])
      (linkFault b.root name) (Builder.add (.symlink name target)) b := by
  have hplain := Placement.plain_entry b.root name
  have hk : (Request.symlink name target).kind ≠ .directory := by simp [Request.symlink]
  obtain ⟨b', hrun, hreach⟩ :=
    Builder.addAt_comes_other hb (Request.filled_symlink name target) hk hplain id
  exact ⟨b', (Builder.add_eq _ b).trans hrun, hreach⟩

/-- **An input** is added, or it has a fault. -/
theorem Input.comes (x : Input) (hb : b.Unhindered fun _ => False)
    (happart : x.Apart fs b.sink.place) : Comes (fun _ => False) (x.asked fs b.root mode)
      (x.fault fs b.root mode) (x.add fs mode) b := by
  unfold Input.asked Input.fault Input.add
  cases x with
  | file arg =>
    have hsource : Comes (fun _ => False)
        (sourceAsked fs b.root mode (sourceOf arg) (destinationOf arg))
        (sourceFault fs b.root mode (sourceOf arg) (destinationOf arg))
        (addSource fs mode (sourceOf arg) (destinationOf arg)) b := addSource_comes _ hb happart
    exact Assembling.within_comes _ hsource
  | link arg =>
    exact Assembling.within_comes _ (Assembling.ofBuilding_comes (addSymlink_comes _ _ hb))

theorem addAll_eq (b : Build) : b.addAll fs mode = b.inputs.forM (Input.add fs mode) := by
  have hmap : ∀ (f : String → Input) (l : List String),
      (l.map f).forM (Input.add fs mode) = l.forM fun arg => (f arg).add fs mode := by
    intro f l
    induction l with
    | nil => rfl
    | cons arg l ih => exact congrArg (fun act => (f arg).add fs mode >>= fun _ => act) ih
  have happend : ∀ l r : List Input, (l ++ r).forM (Input.add fs mode) =
      (do l.forM (Input.add fs mode); r.forM (Input.add fs mode)) := by
    intro l r
    simp
  rw [inputs, happend, hmap, hmap]
  rfl

/-- **All inputs** are added up to the first one that has a fault. -/
theorem addAll_comes {build : Build} (hb : b.Unhindered fun _ => False)
    (happart : ∀ x ∈ build.inputs, x.Apart fs b.sink.place) :
    Comes (fun _ => False)
      (askedUpTo (Input.fault fs b.root mode) (Input.asked fs b.root mode) build.inputs)
      (build.inputs.findSome? (Input.fault fs b.root mode)) (build.addAll fs mode) b := by
  rw [addAll_eq]
  refine .forM hb fun x hx b' hb' hlike => ?_
  have hinput : Comes (fun _ => False) (x.asked fs b'.root mode) (x.fault fs b'.root mode)
      (x.add fs mode) b' := x.comes hb' (hlike.place ▸ happart x hx)
  rwa [hlike.root] at hinput

/-! ## Faults -/

section
variable (fs : FileSystem) (root : Option String) (mode : Option UInt32)

/-- How an input fails, what it has asked for by then and the failure it is told
    by. -/
inductive Input.Fails : Input → List Asked → Error → Prop
  /-- There is no name for a link. -/
  | link {arg : String} (nameless : (Placement.entry root (linkNameOf arg)).isRoot) :
      Fails (.link arg) []
        ⟨[.linking (mapping arg separator).1], .nameless (linkNameOf arg) .symlink⟩
  /-- The permission bits of what is no directory cannot be read. -/
  | unknown {arg : String} {e : Error} (leaf : fs.isDirectory (sourceOf arg) = false)
      (unread : modeFor fs (sourceOf arg) mode = .error e) :
      Fails (.file arg) [] (e.within (.adding (mapping arg separator).1))
  /-- It cannot be opened, or there is no name for it. -/
  | file {arg : String} {cause : Cause} (leaf : fs.isDirectory (sourceOf arg) = false)
      (fault : fileFault fs root (destinationOf arg) (sourceOf arg) = some cause) :
      Fails (.file arg) [] ⟨[.adding (mapping arg separator).1], cause⟩
  /-- There is a fault with an item of a directory, and with none before it. -/
  | item {arg : String} {cause : Cause} {walk : Walk} {before after : List Spot} {spot : Spot}
      (directory : fs.isDirectory (sourceOf arg)) (source : fs.walk (sourceOf arg) = .ok walk)
      (order : walk.spots.Pairwise fun s t => s.way < t.way)
      (split : walk.spots = before ++ spot :: after)
      (passed : ∀ s ∈ before, itemFault fs root (destinationOf arg) s = none)
      (fault : itemFault fs root (destinationOf arg) spot = some cause) :
      Fails (.file arg) (before.flatMap (itemRequest fs root (destinationOf arg) mode))
        ⟨[.adding (mapping arg separator).1], cause⟩
  /-- The walk through a directory halts, with no fault before; if that is for the
      depth, then at the last item it came to. -/
  | halt {arg : String} {cause : Cause} {walk : Walk} (directory : fs.isDirectory (sourceOf arg))
      (source : fs.walk (sourceOf arg) = .ok walk)
      (order : walk.spots.Pairwise fun s t => s.way < t.way)
      (passed : ∀ s ∈ walk.spots, itemFault fs root (destinationOf arg) s = none)
      (halt : walk.halt = some cause)
      (deepest : ∀ path, cause = .tooDeep path → ∃ before last, walk.spots = before ++ [last] ∧
        last.way.length = FileSystem.levelLimit ∧ path = Utf8.display last.path) :
      Fails (.file arg) (walk.spots.flatMap (itemRequest fs root (destinationOf arg) mode))
        ⟨[.adding (mapping arg separator).1], cause⟩

end

/-- A tree with a fault fails at an item or where the walk halts. -/
theorem fails_of_walkFault {root : Option String} {arg : String} {walk : Walk} {cause : Cause}
    (hdir : fs.isDirectory (sourceOf arg))
    (hwalk : fs.walk (sourceOf arg) = .ok walk)
    (h : walkFault fs root (destinationOf arg) walk = some cause) :
    Input.Fails fs root mode (.file arg)
      (walkAsked fs root (destinationOf arg) mode walk)
      ⟨[.adding (mapping arg separator).1], cause⟩ := by
  have hdescends := FileSystem.walk_descends hwalk
  unfold walkFault at h
  unfold walkAsked
  cases hitems : walk.spots.findSome?
      (itemFault fs root (destinationOf arg)) with
  | some cause' =>
    rw [hitems] at h
    cases h
    obtain ⟨before, spot, after, hsplit, hfault, hpassed⟩ := List.findSome?_eq_some_iff.1 hitems
    have hnothing : itemAsked fs root (destinationOf arg) mode spot = [] := by
      rw [itemAsked, hfault, askedUnless_some]
    rw [hsplit, askedUpTo_append hpassed hfault, List.flatMap_append, List.flatMap_singleton,
      hnothing, List.append_nil, flatMap_itemAsked hpassed]
    exact .item hdir hwalk hdescends.ordered hsplit hpassed hfault
  | none =>
    rw [hitems] at h
    have hpassed := List.findSome?_eq_none_iff.1 hitems
    rw [askedUpTo_of_forall hpassed, flatMap_itemAsked hpassed]
    refine .halt hdir hwalk hdescends.ordered hpassed h fun path hdeep => ?_
    obtain ⟨before, last, hspots, hlength, hpath⟩ := hdescends.deepest path (h.trans (hdeep ▸ rfl))
    exact ⟨before, last, hspots, by simpa using hlength, hpath⟩

/-- **An input with a fault** fails in one of these ways. -/
theorem Input.fails_of_fault {root : Option String} {x : Input} {e : Error}
    (h : x.fault fs root mode = some e) : x.Fails fs root mode (x.asked fs root mode) e := by
  cases x with
  | file arg =>
    obtain ⟨e, hfault, rfl⟩ := Option.map_eq_some_iff.1 h
    rw [Input.asked, sourceAsked]
    unfold sourceFault at hfault
    by_cases hdir : fs.isDirectory (sourceOf arg)
    · obtain ⟨walk, hwalk⟩ := FileSystem.exists_walk hdir
      rw [if_pos hdir, hwalk] at hfault ⊢
      obtain ⟨cause, hcause, rfl⟩ := Option.map_eq_some_iff.1 hfault
      exact fails_of_walkFault hdir hwalk hcause
    · rw [if_neg hdir] at hfault ⊢
      have hleaf : fs.isDirectory (sourceOf arg) = false := by simpa using hdir
      cases hmode : modeFor fs (sourceOf arg) mode with
      | error e' =>
        rw [hmode] at hfault
        cases hfault
        exact .unknown hleaf hmode
      | ok m =>
        rw [hmode] at hfault
        obtain ⟨cause, hcause, rfl⟩ := Option.map_eq_some_iff.1 hfault
        dsimp only
        rw [hcause, askedUnless_some]
        exact .file hleaf hcause
  | link arg =>
    obtain ⟨_, hfault, rfl⟩ := Option.map_eq_some_iff.1 h
    obtain ⟨cause, hcause, rfl⟩ := Option.map_eq_some_iff.1 hfault
    rw [Input.asked, hcause, askedUnless_some]
    unfold linkFault at hcause
    split at hcause
    · next hroot => cases hcause; exact .link hroot
    · cases hcause

/-! ## Builds that fail -/

/-- A build ends with its archive closed, whether its inputs could be added or not. -/
theorem fill_eq_ended {build : Build} {created : FileSystem} {loc : Location} {settings : Settings}
    {begun last closed : Builder} {fault : Option Error}
    (hstart : Builder.start settings.options (Output.file loc).sink = .ok () begun)
    (hadd : build.addAll created settings.mode begun = Builder.ending fault last)
    (hclose : Builder.close last = .ok () closed) (hfinish : Builder.finish last = .ok () closed) :
    build.fill created (.file loc) settings = ended created (.file loc) fault closed := by
  cases fault with
  | none =>
    have hcomplete : build.complete created (.file loc) last =
        ended created (.file loc) none closed := by
      simp only [complete, hfinish]
      rfl
    simp only [fill, hstart, hadd, Builder.ending, hcomplete]
  | some e => simp only [fill, hstart, hadd, Builder.ending, giveUp, hclose]

/-- A build whose archive nothing stands in the way of: what it has opened, and how
    far it comes with the inputs. -/
theorem exists_reached {b : Build} {settings : Settings} {created : FileSystem} {loc : Location}
    (hset : b.settings fs = .ok settings) (howner : settings.options.owner.fault = none)
    (hcreate : fs.create (bytesOf b.output) = .ok (created, .file loc))
    (happart : ∀ x ∈ b.inputs, x.Apart created (some loc)) :
    let fresh := Builder.fresh settings.options (Output.file loc).sink
    let fault := b.inputs.findSome? (Input.fault created fresh.root settings.mode)
    let asked := askedUpTo (Input.fault created fresh.root settings.mode)
      (Input.asked created fresh.root settings.mode) b.inputs
    ∃ (closed : Builder) (m : UInt32), (b.run fs).failure = fault ∧ closed.Sound ∧ closed.isOpen = false ∧
      closed.members = fresh.adding [] (rootRequest fresh.root ++ asked) ∧
      (b.run fs).fileSystem.node? loc = some (.file m closed.sink.contents) := by
  intro fresh fault asked
  have hrun : b.run fs = b.fill created (.file loc) settings := run_of_create hset hcreate
  have hroom : (Output.file loc).sink.room = none := rfl
  obtain ⟨begun, hstart, hbegun⟩ := Builder.start_reaches settings.options hroom howner
  have hplace : begun.sink.place = some loc := hbegun.like.place
  have hadding : Comes (fun _ => False) asked fault (b.addAll created settings.mode) begun := by
    have hall : Comes (fun _ => False)
        (askedUpTo (Input.fault created begun.root settings.mode)
          (Input.asked created begun.root settings.mode) b.inputs)
        (b.inputs.findSome? (Input.fault created begun.root settings.mode))
        (b.addAll created settings.mode) begun :=
      addAll_comes hbegun.unhindered fun x hx => hplace ▸ happart x hx
    rwa [hbegun.like.root] at hall
  obtain ⟨last, hadd, hlast⟩ := hadding
  have hreach := hbegun.trans hlast
  have hsound : last.Sound := hreach.moves.sound (Builder.sound_fresh _ hroom rfl)
  obtain ⟨closed, hclose, hfinish, hsound', hopen, hmembers, hplace'⟩ := hlast.unhindered.close hsound
  have hended : b.run fs = ended created (.file loc) fault closed :=
    hrun.trans (fill_eq_ended hstart hadd hclose hfinish)
  refine ⟨closed, created.modeAt loc, by rw [hended]; rfl, hsound', hopen, ?_, ?_⟩
  · rw [hmembers]
    exact hreach.members
  · rw [hended]
    exact FileSystem.node?_including (hplace'.trans (hlast.like.place.trans hplace))

/-- **A build fails with the first input that has a fault**, and leaves a complete
    archive: after the root directory the members of the inputs before, and what
    the one at fault has asked for by then. -/
theorem failing_input {b : Build} {settings : Settings} {created : FileSystem} {loc : Location}
    {e : Error} (hset : b.settings fs = .ok settings) (howner : settings.options.owner.fault = none)
    (hcreate : fs.create (bytesOf b.output) = .ok (created, .file loc))
    (happart : ∀ x ∈ b.inputs, x.Apart created (some loc)) (hfail : (b.run fs).failure = some e) :
    let fresh := Builder.fresh settings.options (Output.file loc).sink
    ∃ (done : List Input) (x : Input) (rest : List Input) (part : List Asked) (m : UInt32),
      b.inputs = done ++ x :: rest ∧
      (∀ y ∈ done, y.fault created fresh.root settings.mode = none) ∧
      x.Fails created fresh.root settings.mode part e ∧
      let members := fresh.adding [] (rootRequest fresh.root ++
        (done.flatMap (Input.asked created fresh.root settings.mode) ++ part))
      (b.run fs).fileSystem.node? loc =
          some (.file m (members.flatMap Member.encode ++ endMarker)) ∧
        (∀ member ∈ members, member.Whole) ∧
        ((∀ member ∈ members, member.entry.Readable) →
          Reader.read? (members.flatMap Member.encode ++ endMarker) =
            some (members.map Member.item, [])) := by
  intro fresh
  obtain ⟨closed, m, hfailure, hsound, hopen, hmembers, hnode⟩ :=
    exists_reached hset howner hcreate happart
  rw [hfail] at hfailure
  obtain ⟨done, x, rest, hsplit, hfault, hdone⟩ := List.findSome?_eq_some_iff.1 hfailure.symm
  rw [hsplit, askedUpTo_append hdone hfault, List.flatMap_append, List.flatMap_singleton] at hmembers
  have hcontents := hsound.contents
  rw [hopen, if_neg Bool.false_ne_true, hmembers] at hcontents
  refine ⟨done, x, rest, x.asked created fresh.root settings.mode, m, hsplit, hdone,
    Input.fails_of_fault hfault, hcontents ▸ hnode, hmembers ▸ hsound.whole, fun hreadable => ?_⟩
  exact Reader.read?_encode (hmembers ▸ hsound.whole) hreadable

end

/-! ## Two files, and one that is missing -/

/-- A directory with two files, a file that is missing and a link. -/
def packedMissing : Build := { output := "out.tar", files := ["src=d", "gone=g"], links := ["x=t"] }

theorem settings_packedMissing : packedMissing.settings twoFiles = .ok usualSettings :=
  settings_usual rfl rfl (by decide)

theorem create_packedMissing : twoFiles.create (bytesOf packedMissing.output) =
    .ok (twoFilesOpened, .file [bytesOf "out.tar"]) := by decide +kernel

theorem apart_packedMissing : ∀ x ∈ packedMissing.inputs,
    x.Apart twoFilesOpened (some [bytesOf "out.tar"]) := by
  have hinputs : packedMissing.inputs = [.file "src=d", .file "gone=g", .link "x=t"] := rfl
  intro x hx
  rw [hinputs] at hx
  simp only [List.mem_cons, List.not_mem_nil, or_false] at hx
  rcases hx with rfl | rfl | rfl
  · have hsource : sourceOf "src=d" = bytesOf "src" := by decide
    have hresolve : twoFilesOpened.resolve (bytesOf "src") = .ok [bytesOf "src"] := by decide
    rw [Input.Apart, hsource]
    refine ⟨fun loc hloc => ?_, fun walk hwalk => ?_⟩
    · rw [hresolve] at hloc
      cases hloc
      decide
    · rw [walk_twoFilesOpened] at hwalk
      cases hwalk
      decide
  · have hsource : sourceOf "gone=g" = bytesOf "gone" := by decide
    have hresolve : twoFilesOpened.resolve (bytesOf "gone") = .error (.system .missing) := by decide
    have hwalk : twoFilesOpened.walk (bytesOf "gone") = .error (.system .missing) := by decide
    rw [Input.Apart, hsource]
    refine ⟨fun loc hloc => ?_, fun walk h => ?_⟩
    · rw [hresolve] at hloc
      cases hloc
    · rw [hwalk] at h
      cases h
  · trivial

/-- There is no fault with the directory. -/
theorem fault_twoFiles : (Input.file "src=d").fault twoFilesOpened none none = none := by
  have hargument : mapping "src=d" separator = ("src", "d") := by decide
  have hdest : destinationOf "src=d" = "d" := by decide
  have hdir : twoFilesOpened.isDirectory (bytesOf "src") := by decide
  have hwalk : walkFault twoFilesOpened none "d" twoFilesWalk = none := by decide +kernel
  rw [Input.fault, sourceFault, sourceOf, hargument, hdest, if_pos hdir, walk_twoFilesOpened]
  dsimp only
  rw [hwalk]
  rfl

/-- The missing file has one. -/
theorem fault_missing : (Input.file "gone=g").fault twoFilesOpened none none =
    some ⟨[.adding "gone", .readingMetadata (quoted (bytesOf "gone"))], .system .missing⟩ := by
  have hargument : mapping "gone=g" separator = ("gone", "g") := by decide
  have hdest : destinationOf "gone=g" = "g" := by decide
  have hstatus : twoFilesOpened.status (bytesOf "gone") = .error (.system .missing) := by decide
  have hdir : ¬ twoFilesOpened.isDirectory (bytesOf "gone") := by simp [FileSystem.isDirectory, hstatus]
  rw [Input.fault, sourceFault, sourceOf, hargument, hdest, if_neg hdir, modeFor,
    FileSystem.mayExecute, hstatus]
  rfl

theorem failure_packedMissing : (packedMissing.run twoFiles).failure =
    some ⟨[.adding "gone", .readingMetadata (quoted (bytesOf "gone"))], .system .missing⟩ := by
  have howner : (Owner.fault {}) = none := by decide
  obtain ⟨_, _, hfailure, -⟩ :=
    exists_reached settings_packedMissing howner create_packedMissing apart_packedMissing
  rw [hfailure]
  show [Input.file "src=d", .file "gone=g", .link "x=t"].findSome?
    (Input.fault twoFilesOpened none none) = _
  rw [List.findSome?_cons, fault_twoFiles]
  dsimp only
  rw [List.findSome?_cons, fault_missing]

theorem failing_input_packedMissing : ∃ (e : Error) (done : List Input) (x : Input)
    (rest : List Input) (part : List Asked) (members : List Member) (m : UInt32),
    (packedMissing.run twoFiles).failure = some e ∧ packedMissing.inputs = done ++ x :: rest ∧
      x.Fails twoFilesOpened none none part e ∧
      (packedMissing.run twoFiles).fileSystem.node? [bytesOf "out.tar"] =
        some (.file m (members.flatMap Member.encode ++ endMarker)) ∧
      ∀ member ∈ members, member.Whole := by
  have howner : (Owner.fault {}) = none := by decide
  obtain ⟨done, x, rest, part, m, hsplit, -, hfails, hnode, hwhole, -⟩ :=
    failing_input settings_packedMissing howner create_packedMissing apart_packedMissing
      failure_packedMissing
  exact ⟨_, done, x, rest, part, _, m, failure_packedMissing, hsplit, hfails, hnode, hwhole⟩

end Build

end Tarball
