/-
  What creating a file changes.

  A file is created where there is nothing, or where there is a file, which is
  emptied.  No other item is touched, so a path that leads somewhere leads there
  afterwards as well.

  * `FileSystem.CanHold` says that a file can be put at a location;
  * `FileSystem.create_file` says what a file system is after a file was created
    in it;
  * `FileSystem.follow_put`: paths lead where they led before.
-/
import Tarball.FileSystem.Create

namespace Tarball.FileSystem

/-- Whether there is nothing at a location, or a file. -/
def CanHold (fs : FileSystem) (loc : Location) : Prop :=
  ∀ node, fs.node? loc = some node → node.isFile

variable {fs : FileSystem} {loc : Location} {mode : UInt32} {content : Bytes}

theorem CanHold.ne_of_directory (h : fs.CanHold loc) {here : Location} {m : UInt32}
    (hhere : fs.node? here = some (.directory m)) : here ≠ loc := by
  rintro rfl
  have := h _ hhere
  cases this

theorem CanHold.ne_of_link (h : fs.CanHold loc) {here : Location} {target : Bytes}
    (hhere : fs.node? here = some (.link target)) : here ≠ loc := by
  rintro rfl
  have := h _ hhere
  cases this

theorem node?_put_of_ne {here : Location} (h : here ≠ loc) (node : Node) :
    (fs.put loc node).node? here = fs.node? here := by
  rw [node?_put, if_neg h]

/-- What a sink holds is in its place, with the permission bits of what was there. -/
theorem node?_including {s : Sink} (hplace : s.place = some loc) :
    (fs.including s).node? loc = some (.file (fs.modeAt loc) s.contents) := by
  rw [including, hplace]
  dsimp only
  rw [node?_put, if_pos rfl]

/-- A name leads on from a directory only. -/
theorem directory_of_stride {here : Location} {name : Bytes} {next : Stride}
    (h : fs.stride here name = .ok next) : ∃ m, fs.node? here = some (.directory m) := by
  cases hnode : fs.node? here with
  | none => rw [stride, hnode] at h; cases h
  | some node =>
    cases node with
    | directory m => exact ⟨m, rfl⟩
    | _ => rw [stride, hnode] at h; cases h

theorem link_of_stride {here : Location} {name target : Bytes}
    (h : fs.stride here name = .ok (.link target)) :
    fs.node? (name :: here) = some (.link target) := by
  obtain ⟨m, hdir⟩ := directory_of_stride h
  simp only [stride, hdir] at h
  split at h
  · cases h
  split at h
  · cases h
  split at h
  · cases h
  split at h
  · cases h
  · next hlink => cases h; exact hlink
  · cases h

/-- A name leads where it led before a file was put anywhere. -/
theorem stride_put (hloc : fs.CanHold loc) {here : Location} {name : Bytes} {next : Stride}
    (h : fs.stride here name = .ok next) :
    (fs.put loc (.file mode content)).stride here name = .ok next := by
  obtain ⟨m, hdir⟩ := directory_of_stride h
  have hdir' := (node?_put_of_ne (hloc.ne_of_directory hdir) (.file mode content)).trans hdir
  by_cases hstay : name = [] ∨ name = dotName
  · rwa [stride_stay hdir' hstay, ← stride_stay hdir hstay]
  by_cases hup : name = dotDotName
  · rwa [stride_up hdir' hup, ← stride_up hdir hup]
  by_cases hlong : maxName < name.length
  · simp [stride, hdir, hstay, hup, hlong] at h
  rw [stride_eq hdir hstay hup hlong] at h
  rw [stride_eq hdir' hstay hup hlong]
  cases hnode : fs.node? (name :: here) with
  | none => rw [hnode] at h; cases h
  | some node =>
    rw [hnode] at h
    by_cases hat : name :: here = loc
    · have hfile := hloc node (hat ▸ hnode)
      rw [node?_put, if_pos hat]
      cases node with
      | file => exact h
      | _ => cases hfile
    · rw [node?_put_of_ne hat, hnode]
      exact h

/-- **A path leads where it led before** a file was put anywhere, since its names do. -/
theorem follow_put (hloc : fs.CanHold loc) {links : Nat} {here : Location} {names : List Bytes}
    {r : Location × Nat} (h : fs.follow links here names = .ok r) :
    (fs.put loc (.file mode content)).follow links here names = .ok r := by
  induction links, here, names using follow_induct fs with
  | done links here => rwa [follow_nil] at h ⊢
  | stop links here name rest failure hstop => rw [follow_stop hstop] at h; cases h
  | place links here name rest next hplace ih =>
    rw [follow_place hplace] at h
    rw [follow_place (stride_put hloc hplace)]
    exact ih h
  | loop here name rest target hlink => rw [follow_loop hlink] at h; cases h
  | link links here name rest target hlink ih =>
    rw [follow_link hlink] at h
    rw [follow_link (stride_put hloc hlink)]
    exact ih h

theorem resolveLinks_ok_iff {path : Bytes} {r : Location × Nat} :
    fs.resolveLinks path = .ok r ↔ 0 ∉ path ∧ isTooLong path = false ∧ path ≠ [] ∧
      fs.follow maxLinks (start fs.workingDirectory path) (pathNames path) = .ok r := by
  unfold resolveLinks
  by_cases hnul : 0 ∈ path
  · simp [hnul]
  by_cases hlong : isTooLong path
  · simp [hnul, hlong]
  by_cases hempty : path = []
  · simp [hempty, isTooLong, maxPath]
  rw [if_neg hnul, if_neg hlong, if_neg hempty]
  cases fs.follow maxLinks (start fs.workingDirectory path) (pathNames path) with
  | error failure =>
    constructor
    · intro h
      cases h
    · rintro ⟨-, -, -, h⟩
      cases h
  | ok r' =>
    constructor
    · intro h
      cases h
      exact ⟨hnul, by simpa using hlong, hempty, rfl⟩
    · rintro ⟨-, -, -, h⟩
      cases h
      rfl

theorem resolveLinks_put (hloc : fs.CanHold loc) {path : Bytes} {r : Location × Nat}
    (h : fs.resolveLinks path = .ok r) :
    (fs.put loc (.file mode content)).resolveLinks path = .ok r := by
  obtain ⟨hnul, hlong, hempty, hfollow⟩ := resolveLinks_ok_iff.1 h
  exact resolveLinks_ok_iff.2 ⟨hnul, hlong, hempty, follow_put hloc hfollow⟩

theorem resolve_of_resolveLinks {path : Bytes} {r : Location × Nat}
    (h : fs.resolveLinks path = .ok r) : fs.resolve path = .ok r.1 := by
  rw [resolve, h]
  rfl

theorem status_ok_iff {path : Bytes} {node : Node} :
    fs.status path = .ok node ↔
      ∃ r, fs.resolveLinks path = .ok r ∧ fs.node? r.1 = some node := by
  unfold status
  constructor
  · intro h
    cases hr : fs.resolveLinks path with
    | error cause => rw [resolve, hr] at h; cases h
    | ok r =>
      rw [resolve_of_resolveLinks hr] at h
      refine ⟨r, rfl, ?_⟩
      cases hn : fs.node? r.1 with
      | none =>
        simp only [bind, Except.bind, hn] at h
        cases h
      | some node' =>
        simp only [bind, Except.bind, hn] at h
        cases h
        rfl
  · rintro ⟨r, hr, hnode⟩
    rw [resolve_of_resolveLinks hr]
    simp only [bind, Except.bind, hnode]
    rfl

theorem openForWriting_file {here : Location} {node : Node} {created : FileSystem}
    (hnode : fs.node? here = some node)
    (h : fs.openForWriting here node = .ok (created, .file loc)) :
    fs.CanHold loc ∧ ∃ m, created = fs.put loc (.file m []) := by
  cases node with
  | file m bytes =>
    cases h
    refine ⟨?_, m, rfl⟩
    intro node' hnode'
    rw [hnode] at hnode'
    cases hnode'
    rfl
  | directory | link | socket | nullDevice | fullDevice => cases h

theorem createFrom_file {links : Nat} {here : Location} {path : Bytes} {created : FileSystem}
    (h : fs.createFrom links here path = .ok (created, .file loc)) :
    fs.CanHold loc ∧ ∃ m, created = fs.put loc (.file m []) := by
  induction links using Nat.strongRecOn generalizing here path with
  | ind links ih =>
    rw [createFrom] at h
    dsimp only at h
    cases hfollow : fs.follow links (start here path) (creationTarget path).1 with
    | error failure => rw [hfollow] at h; cases h
    | ok reached =>
      rw [hfollow] at h
      simp only [bind, Except.bind] at h
      split at h
      · split at h
        · cases h
        · split at h
          · cases h
          · split at h
            · next hnone =>
              cases h
              refine ⟨?_, newFileMode, rfl⟩
              intro node hnode
              rw [hnone] at hnode
              cases hnode
            · split at h
              · cases h
              · exact ih _ (by omega) h
            · next hnode => exact openForWriting_file hnode h
      · cases h

/-- **What is created is a file that was not there or is emptied**, and nothing
    else changes. -/
theorem create_file {path : Bytes} {created : FileSystem}
    (h : fs.create path = .ok (created, .file loc)) :
    fs.CanHold loc ∧ ∃ m, created = fs.put loc (.file m []) := by
  unfold create at h
  split at h
  · cases h
  split at h
  · cases h
  split at h
  · cases h
  cases hc : fs.createFrom maxLinks fs.workingDirectory path with
  | error failure => rw [hc] at h; cases h
  | ok made =>
    rw [hc] at h
    cases h
    exact createFrom_file hc

end Tarball.FileSystem
