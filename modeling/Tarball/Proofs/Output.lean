/-
  What becomes of the output.

  The settings are found before anything is written: where they cannot be found or
  understood, the file system stays as it is.  Creating the output empties it, so
  that a build that succeeds leaves the archive there, and all the same whatever was
  there before.  Nothing else is changed.

  * `FileSystem.Creates` is what the creation of a file comes to
    (`FileSystem.create_creates`);
  * `Build.output_kept_or_replaced` says what becomes of the output.
-/
import Tarball.Proofs.Alike
import Tarball.Proofs.Inputs

namespace Tarball

namespace FileSystem

variable {fs : FileSystem} {loc : Location}

/-- Only what is put last is there. -/
theorem put_put (fs : FileSystem) (loc : Location) (node node' : Node) :
    (fs.put loc node).put loc node' = fs.put loc node' := by
  have hothers : (fs.put loc node).others loc = fs.others loc := by
    simp [others, put, List.filter_filter]
  unfold put at hothers ⊢
  simp only [hothers]

@[simp] theorem modeAt_put (fs : FileSystem) (loc : Location) (mode : UInt32) (content : Bytes) :
    (fs.put loc (.file mode content)).modeAt loc = mode := by
  simp [modeAt, node?_put]

/-! ## Creating a file -/

/-- A name that an item of a directory can have: it holds no slash, and it stands
    neither for the directory itself nor for the one around it. -/
def ProperName (name : Bytes) : Prop :=
  ¬ (name = [] ∨ name = dotName) ∧ name ≠ dotDotName ∧ slashByte ∉ name

instance (name : Bytes) : Decidable (ProperName name) :=
  inferInstanceAs (Decidable (_ ∧ _))

/-- A path that can be created ends in its own name. -/
theorem pathNames_of_creationTarget {path name : Bytes} (h : (creationTarget path).2 = some name) :
    pathNames path = (creationTarget path).1 ++ [name] ∧ ProperName name := by
  unfold creationTarget at h ⊢
  cases hlast : (pathNames path).reverse with
  | nil => rw [hlast] at h; cases h
  | cons last above =>
    rw [hlast] at h
    dsimp only at h ⊢
    split at h
    · cases h
    · next hne =>
      split at h
      · cases h
      · next hdots =>
        cases h
        rw [if_neg hne]
        have hmem : name ∈ pathNames path := List.mem_reverse.1 (by simp [hlast])
        refine ⟨by simpa using congrArg List.reverse hlast, ?_, ?_, notMem_of_mem_splitOn hmem⟩
        · simpa [hne] using fun hdot => hdots (.inl hdot)
        · exact fun hdot => hdots (.inr hdot)

/-- A path leads to what has its own name, in the directory before that. -/
theorem follow_creationTarget {links left : Nat} {here dir : Location} {path name : Bytes}
    (hname : (creationTarget path).2 = some name)
    (hway : fs.follow links (start here path) (creationTarget path).1 = .ok (dir, left)) :
    fs.follow links (start here path) (pathNames path) = fs.follow left dir [name] := by
  rw [(pathNames_of_creationTarget hname).1, follow_append, hway]
  rfl

/-- What the creation of a file comes to: the file is in a directory, is empty and
    keeps its permission bits, the path leads to it, and with any content there it
    would be created just so. -/
structure Creates (fs : FileSystem) (links : Nat) (here : Location) (path : Bytes)
    (created : FileSystem) (loc : Location) : Prop where
  canHold : fs.CanHold loc
  inside : ∃ dir name m, loc = name :: dir ∧ fs.node? dir = some (.directory m) ∧ ProperName name
  emptied : created = fs.put loc (.file (fs.modeAt loc) [])
  leads : ∀ content, ∃ left,
    (fs.put loc (.file (fs.modeAt loc) content)).follow links (start here path) (pathNames path) =
      .ok (loc, left)
  again : ∀ content, (fs.put loc (.file (fs.modeAt loc) content)).createFrom links here path =
    .ok (created, .file loc)

section
variable {links left : Nat} {here dir : Location} {path name : Bytes} {m : UInt32}

/-- A file is created in the directory that is reached. -/
theorem Creates.of_canHold (hname : (creationTarget path).2 = some name)
    (hway : fs.follow links (start here path) (creationTarget path).1 = .ok (dir, left))
    (hdir : fs.node? dir = some (.directory m)) (hlong : ¬ maxName < name.length)
    (hcan : fs.CanHold (name :: dir)) :
    fs.Creates links here path (fs.put (name :: dir) (.file (fs.modeAt (name :: dir)) []))
      (name :: dir) := by
  have hproper : ProperName name := (pathNames_of_creationTarget hname).2
  have hstay := hproper.1
  have hup := hproper.2.1
  have hway' : ∀ content, (fs.put (name :: dir) (.file (fs.modeAt (name :: dir)) content)).follow links
      (start here path) (creationTarget path).1 = .ok (dir, left) :=
    fun content => follow_put hcan hway
  have hdir' : ∀ content, (fs.put (name :: dir) (.file (fs.modeAt (name :: dir)) content)).node? dir =
      some (.directory m) :=
    fun content => (node?_put_of_ne (hcan.ne_of_directory hdir) _).trans hdir
  refine ⟨hcan, ⟨dir, name, m, rfl, hdir, hproper⟩, rfl, fun content => ⟨left, ?_⟩,
    fun content => ?_⟩
  · rw [follow_creationTarget hname (hway' content), follow_cons,
      stride_eq (hdir' content) hstay hup hlong, node?_put, if_pos rfl]
    exact follow_nil _ _ _
  · rw [createFrom]
    simp only [hway', hname, bind, Except.bind, hdir', hlong, if_false, node?_put, if_true,
      openForWriting, put_put]

/-- A link that is met is created where it leads. -/
theorem Creates.of_link {fewer : Nat} {target : Bytes} {created : FileSystem}
    (hname : (creationTarget path).2 = some name)
    (hway : fs.follow links (start here path) (creationTarget path).1 = .ok (dir, left))
    (hdir : fs.node? dir = some (.directory m)) (hlong : ¬ maxName < name.length)
    (hlink : fs.node? (name :: dir) = some (.link target)) (hfewer : min left links = fewer + 1)
    (h : fs.Creates fewer dir target created loc) : fs.Creates links here path created loc := by
  obtain ⟨-, hstay, hup, -⟩ := pathNames_of_creationTarget hname
  have hway' : ∀ content, (fs.put loc (.file (fs.modeAt loc) content)).follow links
      (start here path) (creationTarget path).1 = .ok (dir, left) :=
    fun content => follow_put h.canHold hway
  have hdir' : ∀ content, (fs.put loc (.file (fs.modeAt loc) content)).node? dir =
      some (.directory m) :=
    fun content => (node?_put_of_ne (h.canHold.ne_of_directory hdir) _).trans hdir
  have hlink' : ∀ content, (fs.put loc (.file (fs.modeAt loc) content)).node? (name :: dir) =
      some (.link target) :=
    fun content => (node?_put_of_ne (h.canHold.ne_of_link hlink) _).trans hlink
  refine ⟨h.canHold, h.inside, h.emptied, fun content => ?_, fun content => ?_⟩
  · obtain ⟨more, rfl⟩ : ∃ more, left = fewer + more + 1 := ⟨left - 1 - fewer, by omega⟩
    obtain ⟨rest, hrest⟩ := h.leads content
    rw [follow_creationTarget hname (hway' content), follow_cons,
      stride_eq (hdir' content) hstay hup hlong, hlink' content]
    simp only [List.append_nil]
    exact ⟨_, follow_more hrest more⟩
  · rw [createFrom]
    simp only [hway', hname, bind, Except.bind, hdir', hlong, if_false, hlink']
    split
    · next hzero => omega
    · next fewer' hsame =>
      obtain rfl : fewer' = fewer := by omega
      exact h.again content

end

theorem createFrom_creates {links : Nat} {here : Location} {path : Bytes} {created : FileSystem}
    (h : fs.createFrom links here path = .ok (created, .file loc)) :
    fs.Creates links here path created loc := by
  induction links using Nat.strongRecOn generalizing here path with
  | ind links ih =>
    rw [createFrom] at h
    dsimp only at h
    cases hway : fs.follow links (start here path) (creationTarget path).1 with
    | error failure => rw [hway] at h; cases h
    | ok reached =>
      obtain ⟨dir, left⟩ := reached
      rw [hway] at h
      simp only [bind, Except.bind] at h
      split at h
      · next m hdir =>
        split at h
        · cases h
        · next name hname =>
          split at h
          · cases h
          · next hlong =>
            split at h
            · next hnone =>
              cases h
              have hcan : fs.CanHold (name :: dir) := by
                intro node hnode
                rw [hnone] at hnode
                cases hnode
              have hmode : fs.modeAt (name :: dir) = newFileMode := by rw [modeAt, hnone]
              have hcreates := Creates.of_canHold hname hway hdir hlong hcan
              rwa [hmode] at hcreates
            · next target hlink =>
              split at h
              · cases h
              · next fewer hfewer =>
                exact .of_link hname hway hdir hlong hlink hfewer (ih _ (by omega) h)
            · next node hlink hnode =>
              cases node with
              | file mode bytes =>
                cases h
                have hcan : fs.CanHold (name :: dir) := by
                  intro node' hnode'
                  rw [hnode] at hnode'
                  cases hnode'
                  rfl
                have hmode : fs.modeAt (name :: dir) = mode := by rw [modeAt, hnode]
                have hcreates := Creates.of_canHold hname hway hdir hlong hcan
                rwa [hmode] at hcreates
              | directory | link | socket | nullDevice | fullDevice => cases h
      · cases h

theorem create_ok_iff {path : Bytes} {made : FileSystem × Output} :
    fs.create path = .ok made ↔ 0 ∉ path ∧ isTooLong path = false ∧ path ≠ [] ∧
      fs.createFrom maxLinks fs.workingDirectory path = .ok made := by
  unfold create
  by_cases hnul : 0 ∈ path
  · simp [hnul]
  by_cases hlong : isTooLong path
  · simp [hnul, hlong]
  by_cases hempty : path = []
  · simp [hempty, isTooLong, maxPath]
  rw [if_neg hnul, if_neg hlong, if_neg hempty]
  cases fs.createFrom maxLinks fs.workingDirectory path <;>
    simp [Except.mapError, hnul, hlong, hempty]

theorem create_creates {path : Bytes} {created : FileSystem}
    (h : fs.create path = .ok (created, .file loc)) :
    fs.Creates maxLinks fs.workingDirectory path created loc :=
  createFrom_creates (create_ok_iff.1 h).2.2.2

/-- **A file that is created would be created just so with any content.** -/
theorem create_again {path : Bytes} {created : FileSystem}
    (h : fs.create path = .ok (created, .file loc)) (content : Bytes) :
    (fs.put loc (.file (fs.modeAt loc) content)).create path = .ok (created, .file loc) := by
  obtain ⟨hnul, hlong, hempty, -⟩ := create_ok_iff.1 h
  exact create_ok_iff.2 ⟨hnul, hlong, hempty, (create_creates h).again content⟩

/-- A file that was created holds what its sink holds, and is otherwise as it was. -/
theorem including_of_create {path : Bytes} {created : FileSystem} {s : Sink}
    (h : fs.create path = .ok (created, .file loc)) (hplace : s.place = some loc) :
    created.including s = fs.put loc (.file (fs.modeAt loc) s.contents) := by
  rw [including, hplace, (create_creates h).emptied]
  simp only [modeAt_put, put_put]

/-- The path leads to the file, whatever it holds by then. -/
theorem resolve_of_create {path : Bytes} {created : FileSystem}
    (h : fs.create path = .ok (created, .file loc)) (content : Bytes) :
    (fs.put loc (.file (fs.modeAt loc) content)).resolve path = .ok loc := by
  obtain ⟨hnul, hlong, hempty, -⟩ := create_ok_iff.1 h
  obtain ⟨left, hleads⟩ := (create_creates h).leads content
  exact resolve_of_resolveLinks (resolveLinks_ok_iff.2 ⟨hnul, hlong, hempty, hleads⟩)

end FileSystem

/-! ## Builds -/

namespace Build

variable {b : Build} {fs : FileSystem}

theorem settings_of_load_error {e : Error} (h : FileSettings.load fs b.settingsFile = .error e) :
    b.settings fs = .error e := by
  rw [settings, h]
  rfl

theorem settings_of_load_ok {file : FileSettings}
    (h : FileSettings.load fs b.settingsFile = .ok file) :
    b.settings fs = (Settings.effective b.flags file).mapError Error.ofCause := by
  rw [settings, h]
  rfl

theorem run_of_settings_error {e : Error} (h : b.settings fs = .error e) :
    b.run fs = { failure := some e, fileSystem := fs } := by
  rw [run, h]

/-- **What was at the output has no part in a build**, unless the settings are
    written there. -/
theorem Made.run_put {settings : Settings} {created : FileSystem} {loc : Location}
    {begun last : Builder} (h : b.Made fs settings created loc begun last) (content : Bytes)
    (hset : b.settings (fs.put loc (.file (fs.modeAt loc) content)) = .ok settings) :
    b.run (fs.put loc (.file (fs.modeAt loc) content)) = b.run fs := by
  have hagain := FileSystem.create_again h.create content
  rw [run_of_create hset hagain, run_of_create h.setUp h.create]

/-- **Bad settings do no harm to the output, and good ones leave nothing of it.**
    Where the settings cannot be found or understood, that is what the build fails
    for, and the file system stays as it is.  A build that succeeds puts a file of the
    archive where the output's path leads, and changes nothing else; all is the same
    whatever was in the file before, as long as that does not change the settings. -/
theorem output_kept_or_replaced (b : Build) (fs : FileSystem) :
    (∀ e, FileSettings.load fs b.settingsFile = .error e →
      b.run fs = { failure := some e, fileSystem := fs }) ∧
    (∀ file cause, FileSettings.load fs b.settingsFile = .ok file →
      Settings.effective b.flags file = .error cause →
      b.run fs = { failure := some (Error.ofCause cause), fileSystem := fs }) ∧
    ((b.run fs).failure = none → ∃ settings created loc begun last,
      b.Made fs settings created loc begun last ∧
      (b.run fs).fileSystem.resolve (bytesOf b.output) = .ok loc ∧
      (b.run fs).fileSystem.node? loc =
        some (.file (fs.modeAt loc) (last.members.flatMap Member.encode ++ endMarker)) ∧
      (∀ other, other ≠ loc → (b.run fs).fileSystem.node? other = fs.node? other) ∧
      ∀ content, b.settings (fs.put loc (.file (fs.modeAt loc) content)) = .ok settings →
        b.run (fs.put loc (.file (fs.modeAt loc) content)) = b.run fs) := by
  refine ⟨fun e hload => run_of_settings_error (settings_of_load_error hload), ?_, fun h => ?_⟩
  · intro file cause hload hcause
    refine run_of_settings_error ?_
    rw [settings_of_load_ok hload, hcause]
    rfl
  · obtain ⟨settings, created, loc, begun, last, closed, hmade, hfinish, hafter⟩ := exists_made h
    obtain ⟨-, -, hplace⟩ := hmade.closed_sound hfinish
    have hput : (b.run fs).fileSystem = fs.put loc
        (.file (fs.modeAt loc) (last.members.flatMap Member.encode ++ endMarker)) := by
      rw [hafter, FileSystem.including_of_create hmade.create hplace,
        hmade.contents_closed hfinish]
    refine ⟨settings, created, loc, begun, last, hmade, ?_, ?_, fun other hother => ?_, ?_⟩
    · rw [hput]
      exact FileSystem.resolve_of_create hmade.create _
    · rw [hput, FileSystem.node?_put, if_pos rfl]
    · rw [hput, FileSystem.node?_put_of_ne hother]
    · exact hmade.run_put

/-! ## An archive that is there already -/

/-- A file where an archive is to be. -/
def oldArchive : FileSystem where
  items := [([bytesOf "out.tar"], .file 0o600 (bytesOf "old"))]

/-- A build with permission bits that are none. -/
def badMode : Build := { output := "out.tar", flags := { mode := some "9" } }

/-- A build without inputs. -/
def emptyBuild : Build := { output := "out.tar" }

theorem failure_emptyBuild : (emptyBuild.run oldArchive).failure = none := by
  have hcreate : oldArchive.create (bytesOf emptyBuild.output) =
      .ok (oldArchive.put [bytesOf "out.tar"] (.file 0o600 []), .file [bytesOf "out.tar"]) := by
    decide +kernel
  rw [run_of_create (settings_usual rfl rfl (by decide)) hcreate]
  decide

theorem output_kept_or_replaced_oldArchive :
    (badMode.run oldArchive).fileSystem.node? [bytesOf "out.tar"] =
        some (.file 0o600 (bytesOf "old")) ∧
      ∃ archive, (emptyBuild.run oldArchive).fileSystem.node? [bytesOf "out.tar"] =
          some (.file 0o600 archive) ∧
        emptyBuild.run (oldArchive.put [bytesOf "out.tar"] (.file 0o600 (bytesOf "older"))) =
          emptyBuild.run oldArchive := by
  have hfile : oldArchive.isFile (bytesOf FileSettings.usualName) = false := by decide
  constructor
  · have hload : FileSettings.load oldArchive badMode.settingsFile = .ok {} := by
      rw [show badMode.settingsFile = none from rfl, FileSettings.load, hfile]
      rfl
    have hcause : Settings.effective badMode.flags {} = .error (.setting (.modeNotOctal "9")) := by
      decide
    rw [(output_kept_or_replaced badMode oldArchive).2.1 _ _ hload hcause]
    decide
  · obtain ⟨settings, created, loc, begun, last, hmade, hresolve, hnode, -, hagain⟩ :=
      (output_kept_or_replaced emptyBuild oldArchive).2.2 failure_emptyBuild
    have hloc : loc = [bytesOf "out.tar"] := by
      have hcreate := hmade.create
      have hcreated : (oldArchive.create (bytesOf emptyBuild.output)).map Prod.snd =
          .ok (.file [bytesOf "out.tar"]) := by decide +kernel
      rw [hcreate] at hcreated
      cases hcreated
      rfl
    subst hloc
    have hmode : oldArchive.modeAt [bytesOf "out.tar"] = 0o600 := by decide
    rw [hmode] at hnode hagain
    refine ⟨_, hnode, hagain _ ?_⟩
    rw [← hmade.setUp, settings_usual rfl rfl hfile]
    exact settings_usual rfl rfl (by decide)

end Build

end Tarball
