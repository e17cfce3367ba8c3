/-
  What headers record of the settings.

  Settings are understood before anything is written, but not weighed against a
  header.  Whether it has room for the names of the owner is found when the first
  one is filled in; the numbers are written as far as their fields can hold them.

  * `Owner.fault_eq_none_iff`: which owners fit a header;
  * `Entry.failsBy_write`: nothing said about a member but the names of its owner
    can keep it from being written;
  * `Permissions.parse_le`: permission bits that are asked for fit their field;
  * `Settings.recorded_or_refused`: what takes effect is what headers say, or no
    header is written.
-/
import Tarball.Proofs.RoundTrip
import Tarball.Setting.Effective

namespace Tarball

/-! ## Owners that fit -/

/-- Whether a header has room for the name of a user or a group. -/
def Owner.NameFits (name : String) : Prop :=
  (bytesOf name).length ≤ Header.ownerWidth ∧ 0 ∉ bytesOf name

instance (name : String) : Decidable (Owner.NameFits name) :=
  inferInstanceAs (Decidable (_ ∧ _))

theorem OwnerFault.ofName_of_fits {name : String} (h : Owner.NameFits name) :
    ofName name = none := by
  rw [ofName, if_neg (Nat.not_lt.2 h.1), if_neg h.2]

/-- An owner fits a header just if both of its names do. -/
theorem Owner.fault_eq_none_iff {o : Owner} :
    o.fault = none ↔ NameFits o.userName ∧ NameFits o.groupName := by
  constructor
  · intro h
    obtain ⟨⟨huser, hu⟩, hgroup, hg⟩ := fault_eq_none h
    exact ⟨⟨hu, huser⟩, hg, hgroup⟩
  · rintro ⟨huser, hgroup⟩
    rw [fault, OwnerFault.ofName_of_fits huser, OwnerFault.ofName_of_fits hgroup]
    rfl

/-- A name that fits is read back from its field. -/
theorem Owner.NameFits.upToNul_textField {name : String} (h : NameFits name) :
    Reader.upToNul (Header.textField Header.ownerWidth (bytesOf name)) = bytesOf name := by
  rw [Reader.upToNul_textField _ h.2, List.take_of_length_le h.1]

/-! ## Why a write fails -/

/-- Whether an action fails for nothing but that the sink refuses a write, or one
    of some other causes. -/
def Writing.FailsBy (causes : Cause → Prop) (act : Writing Unit) : Prop :=
  ∀ s, (∀ s', act s = .ok () s' → s'.refusal = s.refusal) ∧
    ∀ cause s', act s = .error cause s' → cause = s.refusal ∨ causes cause

namespace Writing.FailsBy

variable {causes : Cause → Prop}

theorem write (bytes : Bytes) : FailsBy causes (Sink.write bytes) := by
  intro s
  unfold Sink.write
  split
  · exact ⟨fun s' h => by cases h; rfl, fun cause s' h => nomatch h⟩
  · exact ⟨fun s' h => (nomatch h), fun cause s' h => by cases h; exact .inl rfl⟩

theorem bind {act : Writing Unit} {next : Unit → Writing Unit} (h : FailsBy causes act)
    (hnext : FailsBy causes (next ())) : FailsBy causes (act >>= next) := by
  intro s
  constructor
  · intro s' hok
    obtain ⟨_, s₁, hfirst, hsecond⟩ := bind_eq_ok.1 hok
    exact ((hnext s₁).1 s' hsecond).trans ((h s).1 s₁ hfirst)
  · intro cause s' herror
    rcases bind_eq_error.1 herror with hfirst | ⟨_, s₁, hfirst, hsecond⟩
    · exact (h s).2 cause s' hfirst
    · rw [← (h s).1 s₁ hfirst]
      exact (hnext s₁).2 cause s' hsecond

/-- The copying of content fails for what fails its reading, and if there is too
    little of it. -/
theorem copy (failure : Option Cause) (n : Nat) (chunks : List Bytes) :
    FailsBy (fun cause => failure = some cause ∨ ∃ missing, cause = .contentShort missing)
      (Sink.copy failure n chunks) := by
  induction chunks generalizing n with
  | nil =>
    intro s
    cases n with
    | zero => exact ⟨fun s' h => by cases h; rfl, fun cause s' h => nomatch h⟩
    | succ n =>
      refine ⟨fun s' h => (nomatch h), fun cause s' h => .inr ?_⟩
      cases failure with
      | some reason => cases h; exact .inl rfl
      | none => cases h; exact .inr ⟨n + 1, rfl⟩
  | cons chunk rest ih =>
    cases n with
    | zero =>
      intro s
      exact ⟨fun s' h => by cases h; rfl, fun cause s' h => nomatch h⟩
    | succ n => exact (write _).bind (ih _)

end Writing.FailsBy

namespace Entry

/-- An owner that fits does not keep a member from being written. -/
theorem failsBy_write {e : Entry} (h : e.owner.fault = none) (r : Reading) :
    (e.write r).FailsBy fun cause =>
      r.failure = some cause ∨ ∃ missing, cause = .contentShort missing := by
  unfold write
  simp only [h]
  exact (Writing.FailsBy.write _).bind <| (Writing.FailsBy.write _).bind <|
    (Writing.FailsBy.copy _ _ _).bind (Writing.FailsBy.write _)

end Entry

/-! ## Settings -/

/-- Permission bits that are asked for are no more than there are. -/
theorem Permissions.parse_le {text : String} {mode : UInt32} (h : parse text = .ok mode) :
    mode.toNat ≤ all := by
  unfold parse at h
  split at h
  · cases h
  · split at h
    · next hle =>
      cases h
      have hsize : all < UInt32.size := by decide
      rw [UInt32.toNat_ofNat_of_lt' (Nat.lt_of_le_of_lt hle hsize)]
      exact hle
    · cases h

namespace Settings

theorem fileMode_of_effective {flags : Flags} {file : FileSettings} {s : Settings}
    (h : effective flags file = .ok s) : fileMode flags file = .ok s.mode := by
  unfold effective at h
  cases hmtime : mtime flags file with
  | error cause => rw [hmtime] at h; cases h
  | ok time =>
    cases hmode : fileMode flags file with
    | error cause => rw [hmtime, hmode] at h; cases h
    | ok mode =>
      cases hids : ownerIds flags file with
      | error cause => rw [hmtime, hmode, hids] at h; cases h
      | ok ids =>
        cases hnames : ownerNames flags file with
        | error cause => rw [hmtime, hmode, hids, hnames] at h; cases h
        | ok names => rw [hmtime, hmode, hids, hnames] at h; cases h; rfl

theorem mode_le {flags : Flags} {file : FileSettings} {s : Settings}
    (h : effective flags file = .ok s) {mode : UInt32} (hmode : s.mode = some mode) :
    mode.toNat ≤ Permissions.all := by
  have hfile := fileMode_of_effective h
  rw [hmode] at hfile
  unfold fileMode at hfile
  split at hfile
  · next text _ =>
    cases hparse : Permissions.parse text with
    | error cause => rw [hparse] at hfile; cases hfile
    | ok parsed => rw [hparse] at hfile; cases hfile; exact Permissions.parse_le hparse
  · cases hfile

/-- Whether an entry is one that settings are in effect for. -/
structure InEffect (s : Settings) (e : Entry) : Prop where
  owner : e.owner = s.options.owner
  mode : ∀ mode, s.mode = some mode → e.mode = mode
  mtime : e.mtime = s.options.mtime.seconds

/-- Whether what a reader finds in a header is what the settings say.  A number
    of the owner has 63 bits there. -/
structure Recorded (s : Settings) (f : Reader.Fields) : Prop where
  userName : f.userName = bytesOf s.options.owner.userName
  groupName : f.groupName = bytesOf s.options.owner.groupName
  mtime : f.mtime = s.options.mtime.seconds.toNat
  mode : ∀ mode, s.mode = some mode → f.mode = mode.toNat
  userId : s.options.owner.userId.toNat < 2 ^ 63 → f.userId = s.options.owner.userId.toNat
  groupId : s.options.owner.groupId.toNat < 2 ^ 63 → f.groupId = s.options.owner.groupId.toNat

theorem recorded_of_fits {flags : Flags} {file : FileSettings} {s : Settings}
    (h : effective flags file = .ok s) {e : Entry} (he : s.InEffect e)
    (hfits : Owner.NameFits s.options.owner.userName ∧ Owner.NameFits s.options.owner.groupName) :
    s.Recorded e.header.found := by
  have hmode : ∀ mode, s.mode = some mode → e.header.found.mode = mode.toNat := by
    intro mode hsome
    have hlt : mode.toNat < 2 ^ 21 := Nat.lt_of_le_of_lt (mode_le h hsome) (by decide)
    show e.mode.toNat % 2 ^ 21 = mode.toNat
    rw [he.mode mode hsome, Nat.mod_eq_of_lt hlt]
  have hfound : e.header.found.userName = bytesOf s.options.owner.userName ∧
      e.header.found.groupName = bytesOf s.options.owner.groupName := by
    constructor
    · simpa only [Header.found, Entry.header, he.owner] using hfits.1.upToNul_textField
    · simpa only [Header.found, Entry.header, he.owner] using hfits.2.upToNul_textField
  refine ⟨hfound.1, hfound.2, congrArg UInt64.toNat he.mtime, hmode, fun hlt => ?_, fun hlt => ?_⟩
  · simpa only [Header.found, Entry.header, he.owner] using Nat.mod_eq_of_lt hlt
  · simpa only [Header.found, Entry.header, he.owner] using Nat.mod_eq_of_lt hlt

/-- **What takes effect is what headers say, or no header is written.**  Of all
    that the settings say about an entry only the names of the owner can keep
    it from being written: if they fit, nothing but its content or the sink can, and
    its header says what the settings say; if one does not, it is refused before its
    header is written. -/
theorem recorded_or_refused {flags : Flags} {file : FileSettings} {s : Settings}
    (h : effective flags file = .ok s) {e : Entry} (he : s.InEffect e) :
    (Owner.NameFits s.options.owner.userName ∧ Owner.NameFits s.options.owner.groupName →
      ((∃ f, Reader.header? e.header.block = some f ∧ s.Recorded f) ∧
        (∀ r sink, sink.room = none → e.size.toNat ≤ r.bytes.length →
          ∃ sink', e.write r sink = .ok () sink' ∧ sink'.contents =
            sink.contents ++ Member.encode ⟨e, r.bytes.take e.size.toNat⟩) ∧
        ∀ r sink cause sink', e.write r sink = .error cause sink' →
          cause = sink.refusal ∨ r.failure = some cause ∨
            ∃ missing, cause = .contentShort missing)) ∧
    (¬ (Owner.NameFits s.options.owner.userName ∧ Owner.NameFits s.options.owner.groupName) →
      ∃ cause, s.options.owner.fault = some cause ∧ ∀ r sink, sink.room = none →
        ∃ sink', e.write r sink = .error cause sink' ∧
          sink'.contents = sink.contents ++ e.longRecords) := by
  constructor
  · intro hfits
    have howner : e.owner.fault = none := by
      rw [he.owner]
      exact Owner.fault_eq_none_iff.2 hfits
    refine ⟨⟨e.header.found, Reader.header?_found _, recorded_of_fits h he hfits⟩, ?_, ?_⟩
    · intro r sink hroom hsize
      obtain ⟨sink', hwrite, -, hcontents⟩ := Entry.write_of_le hroom howner hsize
      exact ⟨sink', hwrite, hcontents⟩
    · intro r sink
      exact (Entry.failsBy_write howner r sink).2
  · intro hfits
    obtain ⟨cause, hcause⟩ :=
      Option.ne_none_iff_exists'.1 fun hnone => hfits (Owner.fault_eq_none_iff.1 hnone)
    refine ⟨cause, hcause, fun r sink hroom => ?_⟩
    rw [← he.owner] at hcause
    obtain ⟨sink', hwrite, -, hcontents⟩ := Entry.write_of_fault hcause r hroom
    exact ⟨sink', hwrite, hcontents⟩

/-! ## Settings that headers have no room for -/

/-- What takes effect if the flags can be understood. -/
def ofFlags (flags : Flags) : Settings :=
  (effective flags {}).toOption.getD ⟨{}, none⟩

theorem effective_ofFlags {flags : Flags} (h : (effective flags {}).toOption.isSome) :
    effective flags {} = .ok (ofFlags flags) := by
  unfold ofFlags
  cases heffective : effective flags {} with
  | error cause => rw [heffective] at h; cases h
  | ok s => rfl

/-- A file that settings are in effect for. -/
def entryFor (s : Settings) : Entry where
  name := "f"
  kind := .file
  mode := s.mode.getD Kind.file.mode
  mtime := s.options.mtime.seconds
  owner := s.options.owner

theorem inEffect_entryFor (s : Settings) : s.InEffect s.entryFor := by
  refine ⟨rfl, fun mode hmode => ?_, rfl⟩
  rw [entryFor, hmode]
  rfl

/-- Flags for all that a header says. -/
def allFlags : Flags where
  mtime := some "18446744073709551615"
  mode := some "0o7755"
  owner := some "9223372036854775807.8"
  ownerName := some "u.g"

theorem recorded_allFlags :
    (ofFlags allFlags).options.owner.userId = 9223372036854775807 ∧
      ∃ f, Reader.header? (ofFlags allFlags).entryFor.header.block = some f ∧
        (ofFlags allFlags).Recorded f := by
  have heffective : effective allFlags {} = .ok (ofFlags allFlags) :=
    effective_ofFlags (by decide)
  have hfits : Owner.NameFits (ofFlags allFlags).options.owner.userName ∧
      Owner.NameFits (ofFlags allFlags).options.owner.groupName := by decide
  exact ⟨by decide,
    ((recorded_or_refused heffective (inEffect_entryFor _)).1 hfits).1⟩

/-- Flags with a name that is too long. -/
def longUser : Flags where
  ownerName := some (String.ofList (List.replicate 33 'u') ++ ".g")

/-- Flags with a number of 64 bits. -/
def greatUser : Flags where
  owner := some "9223372036854775808.0"

/-- A name that is too long is understood, and refused only by the header; a
    number of 64 bits is understood, and recorded as another one. -/
theorem understood_not_recorded :
    (effective longUser {} = .ok (ofFlags longUser) ∧
      ∃ sink, (ofFlags longUser).entryFor.write {} {} = .error (.owner .user .tooLong "") sink) ∧
    effective greatUser {} = .ok (ofFlags greatUser) ∧
      (ofFlags greatUser).options.owner.userId.toNat = 2 ^ 63 ∧
      (Reader.header? (ofFlags greatUser).entryFor.header.block).map (·.userId) = some 0 := by
  refine ⟨⟨effective_ofFlags (by decide), ?_⟩, effective_ofFlags (by decide),
    by decide, ?_⟩
  · have hfault : (ofFlags longUser).entryFor.owner.fault = some (.owner .user .tooLong "") := by
      decide
    obtain ⟨sink, hwrite, -⟩ := Entry.write_of_fault hfault {} (s := {}) rfl
    exact ⟨sink, hwrite⟩
  · rw [Reader.header?_found]
    decide

end Settings

end Tarball
