/-
  Which settings count.

  What the command line sets comes before what a file sets, so that what it overrides
  has no influence, whatever it is.  Of the settings that count the first one that
  cannot be understood is told: the modification time, the permission bits, the
  numbers of the owner and then the names.

  * `Flags.Overrides` says of two files that they set the same but for what the command
    line sets;
  * `FirstFault` is the first thing wrong with several settings, one after the other;
  * `Settings.faults` are what can be wrong with the settings that count;
  * `Settings.effective_overridden`: only what is not overridden takes effect, and what
    takes effect can be understood, or its first fault is told.
-/
import Tarball.Proofs.Spelling
import Tarball.Setting.Effective

namespace Tarball

/-! ## The first fault -/

/-- The first thing wrong, where something can be wrong at several turns: nothing is
    wrong before. -/
def FirstFault (turns : List (Cause → Prop)) (cause : Cause) : Prop :=
  ∃ before turn after, turns = before ++ turn :: after ∧ turn cause ∧
    ∀ earlier ∈ before, ∀ other, ¬ earlier other

section
variable {turn : Cause → Prop} {turns : List (Cause → Prop)} {cause : Cause}

theorem not_firstFault_nil : ¬ FirstFault [] cause := by
  rintro ⟨before, turn, after, hsplit, -, -⟩
  exact List.append_ne_nil_of_right_ne_nil before (List.cons_ne_nil turn after) hsplit.symm

theorem firstFault_cons : FirstFault (turn :: turns) cause ↔
    turn cause ∨ (∀ other, ¬ turn other) ∧ FirstFault turns cause := by
  constructor
  · rintro ⟨before, found, after, hsplit, hfound, hearlier⟩
    cases before with
    | nil =>
      cases hsplit
      exact .inl hfound
    | cons first before =>
      cases hsplit
      have hrest : ∀ earlier ∈ before, ∀ other, ¬ earlier other :=
        fun earlier hmem => hearlier earlier (List.mem_cons_of_mem _ hmem)
      exact .inr ⟨hearlier turn List.mem_cons_self, before, found, after, rfl, hfound, hrest⟩
  · rintro (hturn | ⟨hnone, before, found, after, rfl, hfound, hearlier⟩)
    · exact ⟨[], turn, turns, rfl, hturn, by simp⟩
    · refine ⟨turn :: before, found, after, rfl, hfound, ?_⟩
      exact List.forall_mem_cons.2 ⟨hnone, hearlier⟩

/-- There is a first fault if there is any. -/
theorem exists_firstFault_iff :
    (∃ cause, FirstFault turns cause) ↔ ∃ turn ∈ turns, ∃ cause, turn cause := by
  induction turns with
  | nil => simp [not_firstFault_nil]
  | cons turn turns ih =>
    simp only [firstFault_cons, List.mem_cons, exists_eq_or_imp]
    rw [← ih]
    constructor
    · rintro ⟨cause, hturn | ⟨-, hlater⟩⟩
      · exact .inl ⟨cause, hturn⟩
      · exact .inr ⟨cause, hlater⟩
    · intro h
      by_cases hturn : ∃ cause, turn cause
      · obtain ⟨cause, hcause⟩ := hturn
        exact ⟨cause, .inl hcause⟩
      · obtain ⟨cause, hlater⟩ := h.resolve_left hturn
        exact ⟨cause, .inr ⟨fun other hother => hturn ⟨other, hother⟩, hlater⟩⟩

/-- What fails at its turn, and else as what comes after it does. -/
theorem bind_eq_error_iff_firstFault {α β : Type} {x : Except Cause α} {f : α → Except Cause β}
    (hx : ∀ cause, x = .error cause ↔ turn cause)
    (hf : ∀ a cause, f a = .error cause ↔ FirstFault turns cause) (cause : Cause) :
    (x >>= f) = .error cause ↔ FirstFault (turn :: turns) cause := by
  rw [firstFault_cons]
  cases x with
  | error e =>
    have he : turn e := (hx e).1 rfl
    have hnot : ¬ ((∀ other, ¬ turn other) ∧ FirstFault turns cause) := fun h => h.1 e he
    rw [or_iff_left hnot, ← hx]
    simp only [bind, Except.bind, Except.error.injEq]
  | ok a =>
    have hnone : ∀ other, ¬ turn other := fun other hother => by cases (hx other).2 hother
    rw [or_iff_right (hnone cause), and_iff_right hnone, ← hf a]
    rfl

end

/-! ## What is overridden -/

/-- Two files that set the same, but for what the command line sets. -/
structure Flags.Overrides (flags : Flags) (file file' : FileSettings) : Prop where
  mtime : flags.mtime = none → file.mtime = file'.mtime
  root : flags.root = none → file.root = file'.root
  mode : flags.mode = none → file.mode = file'.mode
  owner : flags.owner = none → file.owner = file'.owner
  ownerName : flags.ownerName = none → file.ownerName = file'.ownerName
  keepFirst : flags.allowDuplicates = false → file.keepFirst = file'.keepFirst

theorem orElse_congr {α : Type} {first second second' : Option α}
    (h : first = none → second = second') : (first <|> second) = (first <|> second') := by
  cases first with
  | none => exact h rfl
  | some a => rfl

namespace Settings

variable {flags : Flags} {file file' : FileSettings} {cause : Cause}

/-- What the command line overrides has no influence. -/
theorem effective_congr (h : flags.Overrides file file') : effective flags file = effective flags file' := by
  have hmtime : mtime flags file = mtime flags file' := by
    unfold mtime
    cases hflag : flags.mtime with
    | none => rw [h.mtime hflag]
    | some text => rfl
  have hmode : fileMode flags file = fileMode flags file' := by
    rw [fileMode, fileMode, orElse_congr h.mode]
  have hids : ownerIds flags file = ownerIds flags file' := by
    rw [ownerIds, ownerIds, orElse_congr h.owner]
  have hnames : ownerNames flags file = ownerNames flags file' := by
    rw [ownerNames, ownerNames, orElse_congr h.ownerName]
  have hduplicates : duplicates flags file = duplicates flags file' := by
    unfold duplicates
    cases hflag : flags.allowDuplicates with
    | true => rfl
    | false => rw [h.keepFirst hflag]
  rw [effective, effective, hmtime, hmode, hids, hnames, hduplicates, orElse_congr h.root]

/-! ## What can be wrong -/

/-- The modification time that counts, as it is written. -/
def writtenMtime (flags : Flags) (file : FileSettings) : Option WrittenMtime :=
  flags.mtime.map .text <|> file.mtime

/-- What can be wrong with the settings that count, in the order of their turns. -/
def faults (flags : Flags) (file : FileSettings) : List (Cause → Prop) :=
  [fun cause => ∃ written, writtenMtime flags file = some written ∧ written.Misspelled cause,
    fun cause => ∃ text, (flags.mode <|> file.mode) = some text ∧ Permissions.Misspelled text cause,
    fun cause => ∃ text, (flags.owner <|> file.owner) = some text ∧
      Owner.MisspelledNumbers text cause,
    fun cause => ∃ text, (flags.ownerName <|> file.ownerName) = some text ∧
      Owner.MisspelledNames text cause]

theorem mtime_eq_error_iff : mtime flags file = .error cause ↔
    ∃ written, writtenMtime flags file = some written ∧ written.Misspelled cause := by
  have hwritten : mtime flags file =
      match writtenMtime flags file with
      | some written => written.meaning
      | none => .ok .portable := by
    unfold mtime writtenMtime
    cases flags.mtime with
    | some text => rfl
    | none => cases file.mtime <;> rfl
  rw [hwritten]
  cases writtenMtime flags file <;> simp [WrittenMtime.meaning_eq_error_iff]

theorem fileMode_eq_error_iff : fileMode flags file = .error cause ↔
    ∃ text, (flags.mode <|> file.mode) = some text ∧ Permissions.Misspelled text cause := by
  unfold fileMode
  cases flags.mode <|> file.mode with
  | none => simp
  | some text =>
    have hmap : (Permissions.parse text).map some = .error cause ↔
        Permissions.parse text = .error cause := by
      cases Permissions.parse text <;> simp [Except.map]
    simp [hmap, Permissions.parse_eq_error_iff]

theorem ownerIds_eq_error_iff : ownerIds flags file = .error cause ↔
    ∃ text, (flags.owner <|> file.owner) = some text ∧ Owner.MisspelledNumbers text cause := by
  unfold ownerIds
  cases flags.owner <|> file.owner <;> simp [Owner.readNumbers_eq_error_iff]

theorem ownerNames_eq_error_iff : ownerNames flags file = .error cause ↔
    ∃ text, (flags.ownerName <|> file.ownerName) = some text ∧
      Owner.MisspelledNames text cause := by
  unfold ownerNames
  cases flags.ownerName <|> file.ownerName <;> simp [Owner.readNames_eq_error_iff]

/-- The first fault of the settings that count is told. -/
theorem effective_eq_error_iff :
    effective flags file = .error cause ↔ FirstFault (faults flags file) cause := by
  unfold effective faults
  refine bind_eq_error_iff_firstFault (fun _ => mtime_eq_error_iff) (fun time cause => ?_) cause
  refine bind_eq_error_iff_firstFault (fun _ => fileMode_eq_error_iff) (fun mode cause => ?_) cause
  refine bind_eq_error_iff_firstFault (fun _ => ownerIds_eq_error_iff) (fun ids cause => ?_) cause
  refine bind_eq_error_iff_firstFault (fun _ => ownerNames_eq_error_iff) (fun names cause => ?_) cause
  exact iff_of_false (by simp [pure, Except.pure]) not_firstFault_nil

/-- **Only what is not overridden counts.**  What takes effect, or the fault that is told,
    is the same for two files that set the same but for what the command line sets, even
    if that makes no sense in one of them.  There is a fault just if one of the settings
    that count makes no sense, and the first of them is told. -/
theorem effective_overridden (flags : Flags) (file : FileSettings) :
    (∀ file', flags.Overrides file file' → effective flags file = effective flags file') ∧
      ((∃ cause, effective flags file = .error cause) ↔
        ∃ fault ∈ faults flags file, ∃ cause, fault cause) ∧
      ∀ cause, effective flags file = .error cause ↔ FirstFault (faults flags file) cause := by
  refine ⟨fun file' h => effective_congr h, ?_, fun cause => effective_eq_error_iff⟩
  rw [← exists_firstFault_iff]
  exact exists_congr fun cause => effective_eq_error_iff

/-- A file that sets what makes no sense. -/
def senseless : FileSettings where
  mtime := some (.seconds (-1))
  root := some "r"
  mode := some "rw"
  owner := some "o"
  ownerName := some "n"
  keepFirst := some false

/-- Flags that override all of it but the owner's numbers. -/
def allButOwner : Flags where
  mtime := some "7"
  root := some "pkg"
  mode := some "0600"
  ownerName := some "u.g"
  allowDuplicates := true

theorem effective_overridden_allButOwner :
    effective allButOwner senseless = effective allButOwner { owner := some "o" } ∧
      effective allButOwner senseless = .error (.setting (.ownerNotPair "o")) := by
  have hoverrides : allButOwner.Overrides senseless { owner := some "o" } := by
    constructor <;> decide
  exact ⟨(effective_overridden allButOwner senseless).1 _ hoverrides, by decide⟩

end Settings

end Tarball
