/-
  How settings are spelled.

  A setting is given as text.  For each kind of setting it is said here which texts
  spell one, and which one, without going by the way they are read; what is read is
  then just what is spelled.

  * `Padded` is a text with blanks around it, and `Numeral.Spells` a number written with
    digits (`Numeral.read?_eq_some_iff_spells`);
  * `Mtime.Spells`, `Permissions.Spells`, `Owner.SpellsNumbers` and `Owner.SpellsNames`
    are the spellings of settings, and `Mtime.Misspelled` and so on the texts that are
    none, each with the cause they are refused for;
  * `Permissions.parse_iff_spells`: which texts are taken for permission bits, and why
    the others are refused.
-/
import Mathlib.Data.List.TakeWhile
import Tarball.Setting.File
import Tarball.Setting.Owner
import Tarball.Setting.Permissions

namespace Tarball

/-! ## Blanks -/

/-- A text with blanks around another one. -/
def Padded (inner text : List Char) : Prop :=
  ∃ before after, (∀ c ∈ before, isBlank c) ∧ (∀ c ∈ after, isBlank c) ∧
    text = before ++ inner ++ after

/-- Around a text without its blanks there are blanks. -/
theorem padded_trim (text : List Char) : Padded (trim text) text := by
  refine ⟨text.takeWhile isBlank, ((text.dropWhile isBlank).reverse.takeWhile isBlank).reverse,
    fun c hc => List.all_eq_true.1 List.all_takeWhile c hc, fun c hc => ?_, ?_⟩
  · rw [List.mem_reverse] at hc
    exact List.all_eq_true.1 List.all_takeWhile c hc
  · rw [trim, List.append_assoc, ← List.reverse_append, List.takeWhile_append_dropWhile,
      List.reverse_reverse, List.takeWhile_append_dropWhile]

theorem dropWhile_isBlank_of_all {cs : List Char} (h : ∀ c ∈ cs, isBlank c = false) :
    cs.dropWhile isBlank = cs := by
  cases cs with
  | nil => rfl
  | cons c cs => exact List.dropWhile_cons_of_neg (by simp [h c List.mem_cons_self])

/-- A text without a blank in it is what is left of it when blanks around it are taken
    off. -/
theorem Padded.trim_eq {inner text : List Char} (h : Padded inner text)
    (hinner : ∀ c ∈ inner, isBlank c = false) : trim text = inner := by
  obtain ⟨before, after, hbefore, hafter, rfl⟩ := h
  rw [trim, List.append_assoc, List.dropWhile_append_of_pos hbefore]
  have hafter' : ∀ c ∈ after.reverse, isBlank c := by simpa using hafter
  have hinner' : ∀ c ∈ inner.reverse, isBlank c = false := by simpa using hinner
  cases inner with
  | nil =>
    rw [List.nil_append, List.dropWhile_eq_nil_iff.2 hafter]
    rfl
  | cons c cs =>
    rw [List.cons_append, List.dropWhile_cons_of_neg (by simp [hinner c List.mem_cons_self]),
      ← List.cons_append, List.reverse_append, List.dropWhile_append_of_pos hafter',
      dropWhile_isBlank_of_all hinner', List.reverse_reverse]

theorem padded_self (text : List Char) : Padded text text :=
  ⟨[], [], by simp, by simp, by simp⟩

/-! ## One reason to refuse -/

/-- Where there is only one reason to refuse a text, it is refused for that if there is
    nothing it could be taken for. -/
theorem eq_error_iff_of_reason {α : Type} {x : Except Cause α} {P : α → Prop} {reason cause : Cause}
    (hok : ∀ a, x = .ok a ↔ P a) (hreason : ∀ other, x = .error other → other = reason) :
    x = .error cause ↔ cause = reason ∧ ∀ a, ¬ P a := by
  cases x with
  | ok a =>
    refine iff_of_false (by simp) ?_
    rintro ⟨-, hnone⟩
    exact hnone a ((hok a).1 rfl)
  | error other =>
    obtain rfl := hreason other rfl
    constructor
    · intro h
      cases h
      refine ⟨rfl, fun a ha => ?_⟩
      cases (hok a).2 ha
    · rintro ⟨rfl, -⟩
      rfl

/-! ## Numbers -/

namespace Numeral

/-- A number as it is written in a base: digits, as many as one likes, and before them
    a plus sign or nothing. -/
def Spells (base : Nat) (text : List Char) (n : Nat) : Prop :=
  ∃ sign digits, (sign = [] ∨ sign = ['+']) ∧ digits ≠ [] ∧ (∀ c ∈ digits, isDigit base c) ∧
    text = sign ++ digits ∧ Nat.ofDigitChars base digits 0 = n

variable {base bound n : Nat} {text : List Char}

theorem exists_sign (text : List Char) :
    ∃ sign, (sign = [] ∨ sign = ['+']) ∧ text = sign ++ unsigned text := by
  unfold unsigned
  split
  · exact ⟨['+'], .inr rfl, rfl⟩
  · exact ⟨[], .inl rfl, rfl⟩

theorem unsigned_append {sign digits : List Char} (hsign : sign = [] ∨ sign = ['+'])
    (hdigits : ∀ c ∈ digits, isDigit base c) : unsigned (sign ++ digits) = digits := by
  rcases hsign with rfl | rfl
  · exact unsigned_of_all_digits hdigits
  · rfl

/-- What is read as a number is what spells one below the bound. -/
theorem read?_eq_some_iff_spells : read? base bound text = some n ↔ Spells base text n ∧ n < bound := by
  rw [read?_eq_some_iff]
  constructor
  · rintro ⟨hne, hdigits, hvalue, hlt⟩
    obtain ⟨sign, hsign, htext⟩ := exists_sign text
    exact ⟨⟨sign, unsigned text, hsign, hne, hdigits, htext, hvalue⟩, hlt⟩
  · rintro ⟨⟨sign, digits, hsign, hne, hdigits, rfl, hvalue⟩, hlt⟩
    rw [unsigned_append hsign hdigits]
    exact ⟨hne, hdigits, hvalue, hlt⟩

/-- What is read as a word is what spells its value. -/
theorem readWord?_eq_some_iff {w : UInt64} : readWord? text = some w ↔ Spells 10 text w.toNat := by
  rw [readWord?, Option.map_eq_some_iff]
  constructor
  · rintro ⟨n, hread, rfl⟩
    obtain ⟨hspells, hlt⟩ := read?_eq_some_iff_spells.1 hread
    rwa [UInt64.toNat_ofNat_of_lt' hlt]
  · intro hspells
    exact ⟨w.toNat, read?_eq_some_iff_spells.2 ⟨hspells, w.toNat_lt⟩, UInt64.ofNat_toNat⟩

/-- What is read below any bound is one number at most. -/
theorem unique_of_read {P : Nat → Prop} {read : Nat → Option Nat}
    (hread : ∀ bound k, read bound = some k ↔ P k ∧ k < bound) {m : Nat} (hm : P m) (hn : P n) :
    m = n := by
  have hleft := (hread _ m).2 ⟨hm, Nat.lt_succ_of_le (Nat.le_max_left m n)⟩
  have hright := (hread _ n).2 ⟨hn, Nat.lt_succ_of_le (Nat.le_max_right m n)⟩
  rw [hleft] at hright
  exact Option.some.inj hright

/-- A text spells one number at most. -/
theorem Spells.unique {m : Nat} (h : Spells base text m) (h' : Spells base text n) : m = n :=
  unique_of_read (fun _ _ => read?_eq_some_iff_spells) h h'

/-- What is printed for a number spells it. -/
theorem spells_toDigits (n : Nat) : Spells 10 (Nat.toDigits 10 n) n :=
  (read?_eq_some_iff_spells.1 (read?_toDigits (by decide) (by decide) (Nat.lt_succ_self n))).1

/-- No blank is a digit. -/
theorem isBlank_of_isDigit (hbase : base ≤ 10) {c : Char} (h : isDigit base c) : isBlank c = false := by
  simp only [isDigit, Bool.and_eq_true, decide_eq_true_eq] at h
  have h0 : '0'.toNat = 48 := rfl
  simp only [isBlank, Bool.or_eq_false_iff, Bool.and_eq_false_iff, decide_eq_false_iff_not,
    beq_eq_false_iff_ne]
  omega

/-- There is no blank in a number, and no dot. -/
theorem Spells.plain (h : Spells base text n) (hbase : base ≤ 10) {c : Char} (hc : c ∈ text) :
    isBlank c = false ∧ c ≠ '.' := by
  obtain ⟨sign, digits, hsign, -, hdigits, rfl, -⟩ := h
  rcases List.mem_append.1 hc with hc | hc
  · have hplus : c = '+' := by
      rcases hsign with rfl | rfl
      · cases hc
      · exact List.mem_singleton.1 hc
    rw [hplus]
    decide
  · refine ⟨isBlank_of_isDigit hbase (hdigits c hc), ?_⟩
    rintro rfl
    exact absurd (hdigits _ hc) (by simp [isDigit])

end Numeral

/-! ## Modification times -/

namespace Mtime

/-- A modification time as it is written: the word for the portable time, or its seconds
    as a number, with blanks around it or none. -/
def Spells (text : String) : Mtime → Prop
  | unset => False
  | epoch s => ∃ number, Numeral.Spells 10 number s.toNat ∧ Padded number text.toList
  | portable => Padded portableWord text.toList

/-- Why a text is refused that spells no time. -/
inductive Misspelled (text : String) : Cause → Prop
  | mtime : (∀ m, ¬ Spells text m) → Misspelled text (.mtime text)

theorem isBlank_portableWord : ∀ c ∈ portableWord, isBlank c = false := by
  have hall : portableWord.all fun c => isBlank c = false := by decide
  simpa using hall

theorem read?_eq_some_iff_spells {text : String} {m : Mtime} :
    read? text.toList = some m ↔ Spells text m := by
  have hnumber : ∀ n, ¬ Numeral.Spells 10 portableWord n := by
    intro n hspells
    have hread : Numeral.read? 10 (n + 1) portableWord = none := by
      unfold Numeral.read?
      exact if_neg fun h => absurd h.2.1 (by decide)
    rw [Numeral.read?_eq_some_iff_spells.2 ⟨hspells, Nat.lt_succ_self n⟩] at hread
    cases hread
  constructor
  · intro h
    have hpadded := padded_trim text.toList
    unfold read? at h
    split at h
    · next hword =>
      cases h
      rw [hword] at hpadded
      exact hpadded
    · obtain ⟨s, hs, rfl⟩ := Option.map_eq_some_iff.1 h
      exact ⟨_, Numeral.readWord?_eq_some_iff.1 hs, hpadded⟩
  · intro h
    cases m with
    | unset => exact h.elim
    | portable => exact if_pos (h.trim_eq isBlank_portableWord)
    | epoch s =>
      obtain ⟨number, hspells, hpadded⟩ := h
      have htrim := hpadded.trim_eq fun c hc => (hspells.plain (by decide) hc).1
      rw [read?, htrim, if_neg fun he => hnumber _ (he ▸ hspells),
        Numeral.readWord?_eq_some_iff.2 hspells]
      rfl

/-- A text is taken for the time it spells. -/
theorem parse_eq_ok_iff {text : String} {m : Mtime} : parse text = .ok m ↔ Spells text m := by
  rw [← read?_eq_some_iff_spells, parse]
  cases read? text.toList <;> simp

/-- A text is refused if it spells no time. -/
theorem parse_eq_error_iff {text : String} {cause : Cause} :
    parse text = .error cause ↔ Misspelled text cause := by
  have hreason : ∀ other, parse text = .error other → other = .mtime text := by
    intro other h
    unfold parse at h
    split at h
    · cases h
    · cases h
      rfl
  rw [eq_error_iff_of_reason (fun _ => parse_eq_ok_iff) hreason]
  constructor
  · rintro ⟨rfl, hno⟩
    exact .mtime hno
  · rintro ⟨hno⟩
    exact ⟨rfl, hno⟩

end Mtime

/-- Why a time written in a file is refused: it is no number of seconds, or a text that
    spells no time. -/
inductive WrittenMtime.Misspelled : WrittenMtime → Cause → Prop
  | seconds {n : Int} : (∀ s : UInt64, n ≠ s.toNat) → Misspelled (.seconds n) (.mtime (toString n))
  | text {text : String} {cause : Cause} : Mtime.Misspelled text cause → Misspelled (.text text) cause

theorem WrittenMtime.meaning_eq_error_iff {written : WrittenMtime} {cause : Cause} :
    written.meaning = .error cause ↔ written.Misspelled cause := by
  cases written with
  | text t =>
    rw [meaning, Mtime.parse_eq_error_iff]
    constructor
    · exact .text
    · rintro ⟨⟩
      assumption
  | seconds n =>
    rw [meaning, Mtime.ofInteger]
    split
    · next hfits =>
      refine iff_of_false (by simp) ?_
      rintro ⟨hno⟩
      refine hno (UInt64.ofNat n.toNat) ?_
      rw [UInt64.toNat_ofNat_of_lt' hfits.2, Int.toNat_of_nonneg hfits.1]
    · next hfits =>
      constructor
      · intro h
        cases h
        refine .seconds fun s hs => hfits ?_
        subst hs
        exact ⟨Int.natCast_nonneg _, s.toNat_lt⟩
      · rintro ⟨-⟩
        rfl

/-! ## Permission bits -/

namespace Permissions

/-- A number of permission bits as it is written: an octal number, with `0o` before it or
    not, and blanks around it or none. -/
def Spells (text : String) (n : Nat) : Prop :=
  ∃ mark number, (mark = [] ∨ mark = ['0', 'o']) ∧ Numeral.Spells 8 number n ∧
    Padded (mark ++ number) text.toList

/-- Why a text is refused that spells no permission bits: it spells a number with more
    bits than there are, or none that would fit a word. -/
inductive Misspelled (text : String) : Cause → Prop
  | tooLarge {n : Nat} : Spells text n → all < n → n < UInt32.size →
      Misspelled text (.setting (.modeTooLarge text))
  | notOctal : (∀ n, Spells text n → UInt32.size ≤ n) →
      Misspelled text (.setting (.modeNotOctal text))

theorem isBlank_mark : ∀ c ∈ ['0', 'o'], isBlank c = false := by
  have hall : ['0', 'o'].all fun c => isBlank c = false := by decide
  simpa using hall

theorem exists_mark (text : List Char) :
    ∃ mark, (mark = [] ∨ mark = ['0', 'o']) ∧ text = mark ++ dropPrefix text := by
  unfold dropPrefix
  split
  · exact ⟨['0', 'o'], .inr rfl, rfl⟩
  · exact ⟨[], .inl rfl, rfl⟩

theorem dropPrefix_append {mark number : List Char} {n : Nat} (hmark : mark = [] ∨ mark = ['0', 'o'])
    (hnumber : Numeral.Spells 8 number n) : dropPrefix (mark ++ number) = number := by
  rcases hmark with rfl | rfl
  · obtain ⟨sign, digits, hsign, -, hdigits, rfl, -⟩ := hnumber
    rw [List.nil_append]
    unfold dropPrefix
    split
    · next rest heq =>
      -- an `o` is no digit
      rcases hsign with rfl | rfl
      · rw [List.nil_append] at heq
        have ho : Numeral.isDigit 8 'o' := hdigits 'o' (by simp [heq])
        exact absurd ho (by decide)
      · cases heq
    · rfl
  · rfl

/-- What is read behind the mark and within the blanks is what is spelled. -/
theorem read?_eq_some_iff_spells {text : String} {bound n : Nat} :
    Numeral.read? 8 bound (dropPrefix (trim text.toList)) = some n ↔ Spells text n ∧ n < bound := by
  rw [Numeral.read?_eq_some_iff_spells]
  refine and_congr_left fun _ => ?_
  constructor
  · intro hspells
    obtain ⟨mark, hmark, htrim⟩ := exists_mark (trim text.toList)
    exact ⟨mark, _, hmark, hspells, htrim ▸ padded_trim text.toList⟩
  · rintro ⟨mark, number, hmark, hspells, hpadded⟩
    have hplain : ∀ c ∈ mark ++ number, isBlank c = false := by
      intro c hc
      rcases List.mem_append.1 hc with hc | hc
      · rcases hmark with rfl | rfl
        · cases hc
        · exact isBlank_mark c hc
      · exact (hspells.plain (by decide) hc).1
    rwa [hpadded.trim_eq hplain, dropPrefix_append hmark hspells]

/-- A text spells one number at most. -/
theorem Spells.unique {text : String} {n n' : Nat} (h : Spells text n) (h' : Spells text n') :
    n = n' :=
  Numeral.unique_of_read (fun _ _ => read?_eq_some_iff_spells) h h'

/-- A text is taken for the permission bits it spells. -/
theorem parse_eq_ok_iff {text : String} {mode : UInt32} :
    parse text = .ok mode ↔ Spells text mode.toNat ∧ mode.toNat ≤ all := by
  unfold parse
  constructor
  · intro h
    split at h
    · cases h
    · next n hread =>
      obtain ⟨hspells, hlt⟩ := read?_eq_some_iff_spells.1 hread
      split at h
      · next hle =>
        cases h
        rw [UInt32.toNat_ofNat_of_lt' hlt]
        exact ⟨hspells, hle⟩
      · cases h
  · rintro ⟨hspells, hle⟩
    rw [read?_eq_some_iff_spells.2 ⟨hspells, mode.toNat_lt⟩]
    dsimp only
    rw [if_pos hle, UInt32.ofNat_toNat]

/-- A text is refused if it spells no permission bits. -/
theorem parse_eq_error_iff {text : String} {cause : Cause} :
    parse text = .error cause ↔ Misspelled text cause := by
  unfold parse
  cases hread : Numeral.read? 8 UInt32.size (dropPrefix (trim text.toList)) with
  | none =>
    have hno : ∀ n, Spells text n → UInt32.size ≤ n := by
      intro n hspells
      refine Nat.le_of_not_lt fun hlt => ?_
      rw [read?_eq_some_iff_spells.2 ⟨hspells, hlt⟩] at hread
      cases hread
    constructor
    · intro h
      cases h
      exact .notOctal hno
    · rintro (⟨hspells, -, hlt⟩ | -)
      · exact absurd (hno _ hspells) (Nat.not_le_of_lt hlt)
      · rfl
  | some n =>
    obtain ⟨hspells, hlt⟩ := read?_eq_some_iff_spells.1 hread
    dsimp only
    split
    · next hle =>
      refine iff_of_false (by simp) ?_
      rintro (⟨hspells', hgt, -⟩ | hno)
      · rw [hspells.unique hspells'] at hle
        exact absurd hle (Nat.not_le_of_lt hgt)
      · exact absurd (hno n hspells) (Nat.not_le_of_lt hlt)
    · next hgt =>
      constructor
      · intro h
        cases h
        exact .tooLarge hspells (Nat.lt_of_not_le hgt) hlt
      · rintro (- | hno)
        · rfl
        · exact absurd (hno n hspells) (Nat.not_le_of_lt hlt)

/-- **Which texts are taken for permission bits.**  It is those that spell an octal number
    of no more bits than there are.  All others are refused with the text as it was given:
    as out of range, if they spell a greater number that still fits a word of 32 bits, and
    else as no octal number. -/
theorem parse_iff_spells (text : String) :
    (∀ mode, parse text = .ok mode ↔ Spells text mode.toNat ∧ mode.toNat ≤ 0o7777) ∧
      (parse text = .error (.setting (.modeTooLarge text)) ↔
        ∃ n, Spells text n ∧ 0o7777 < n ∧ n < UInt32.size) ∧
      (parse text = .error (.setting (.modeNotOctal text)) ↔ ∀ n, Spells text n → UInt32.size ≤ n) ∧
      (∀ cause, parse text = .error cause → cause = .setting (.modeTooLarge text) ∨
        cause = .setting (.modeNotOctal text)) ∧
      (Cause.setting (.modeTooLarge text)).message =
        some ("Configuration error: " ++ ("Mode '" ++ text ++ "' is out of range")) ∧
      (Cause.setting (.modeNotOctal text)).message =
        some ("Configuration error: " ++ ("Invalid octal mode '" ++ text ++ "'")) := by
  refine ⟨fun _ => parse_eq_ok_iff, ?_, ?_, fun cause h => ?_, rfl, rfl⟩
  · rw [parse_eq_error_iff]
    constructor
    · rintro (⟨hspells, hgt, hlt⟩)
      exact ⟨_, hspells, hgt, hlt⟩
    · rintro ⟨n, hspells, hgt, hlt⟩
      exact .tooLarge hspells hgt hlt
  · rw [parse_eq_error_iff]
    constructor
    · rintro (- | hno)
      exact hno
    · exact .notOctal
  · cases parse_eq_error_iff.1 h with
    | tooLarge => exact .inl rfl
    | notOctal => exact .inr rfl

/-- A sign goes behind the mark, and zeros in front do not count. -/
example : parse "\u2003 0o+000000000000000000755 " = .ok 0o755 := by decide

end Permissions

/-! ## Owners -/

namespace Owner

/-- The numbers of a user and a group as they are written, with a dot between them. -/
def SpellsNumbers (text : String) (ids : UInt64 × UInt64) : Prop :=
  ∃ user group, text.toList = user ++ '.' :: group ∧ Numeral.Spells 10 user ids.1.toNat ∧
    Numeral.Spells 10 group ids.2.toNat

/-- The names of a user and a group as they are written, with a dot between them: the
    first one, if there are others. -/
def SpellsNames (text : String) (names : String × String) : Prop :=
  text.toList = names.1.toList ++ '.' :: names.2.toList ∧ '.' ∉ names.1.toList

/-- Why a text is refused that spells no numbers of an owner. -/
inductive MisspelledNumbers (text : String) : Cause → Prop
  | notPair : '.' ∉ text.toList → MisspelledNumbers text (.setting (.ownerNotPair text))
  | notNumeric : '.' ∈ text.toList → (∀ ids, ¬ SpellsNumbers text ids) →
      MisspelledNumbers text (.setting (.ownerNotNumeric text))

/-- Why a text is refused that spells no names of an owner. -/
inductive MisspelledNames (text : String) : Cause → Prop
  | notPair : (∀ names, ¬ SpellsNames text names) →
      MisspelledNames text (.setting (.ownerNamesNotPair text))

theorem splitAtDot_append {before after : List Char} (h : '.' ∉ before) :
    splitAtDot (before ++ '.' :: after) = some (before, after) := by
  have hall : ∀ c ∈ before, (decide (c ≠ '.')) = true := by
    intro c hc
    rw [decide_eq_true_iff]
    rintro rfl
    exact h hc
  have hdrop : (before ++ '.' :: after).dropWhile (· ≠ '.') = '.' :: after := by
    rw [List.dropWhile_append_of_pos hall]
    rfl
  have htake : (before ++ '.' :: after).takeWhile (· ≠ '.') = before := by
    rw [List.takeWhile_append_of_pos hall, List.takeWhile_cons_of_neg (by simp), List.append_nil]
  unfold splitAtDot
  rw [hdrop, htake]

/-- A text with a dot in it falls into what stands before the first one and what stands
    after it. -/
theorem exists_splitAtDot {text : List Char} (h : '.' ∈ text) :
    ∃ before after, text = before ++ '.' :: after ∧ '.' ∉ before ∧
      splitAtDot text = some (before, after) := by
  obtain ⟨before, after, rfl, hbefore⟩ := List.eq_append_cons_of_mem h
  exact ⟨before, after, rfl, hbefore, splitAtDot_append hbefore⟩

theorem splitAtDot_of_notMem {text : List Char} (h : '.' ∉ text) : splitAtDot text = none := by
  have hnil : text.dropWhile (· ≠ '.') = [] := by
    refine List.dropWhile_eq_nil_iff.2 fun c hc => ?_
    rw [decide_eq_true_iff]
    rintro rfl
    exact h hc
  unfold splitAtDot
  rw [hnil]

/-- Before the dot of two numbers there is none. -/
theorem SpellsNumbers.splitAtDot {text : String} {ids : UInt64 × UInt64} (h : SpellsNumbers text ids) :
    ∃ user group, splitAtDot text.toList = some (user, group) ∧
      Numeral.readWord? user = some ids.1 ∧ Numeral.readWord? group = some ids.2 := by
  obtain ⟨user, group, htext, huser, hgroup⟩ := h
  have hdot : '.' ∉ user := fun hmem => (huser.plain (by decide) hmem).2 rfl
  exact ⟨user, group, by rw [htext, splitAtDot_append hdot], Numeral.readWord?_eq_some_iff.2 huser,
    Numeral.readWord?_eq_some_iff.2 hgroup⟩

/-- A text is taken for the numbers it spells. -/
theorem readNumbers_eq_ok_iff {text : String} {ids : UInt64 × UInt64} :
    readNumbers text = .ok ids ↔ SpellsNumbers text ids := by
  constructor
  · intro h
    by_cases hdot : '.' ∈ text.toList
    · obtain ⟨user, group, htext, -, hsplit⟩ := exists_splitAtDot hdot
      unfold readNumbers at h
      rw [hsplit] at h
      dsimp only at h
      split at h
      · next u g hu hg =>
        cases h
        exact ⟨user, group, htext, Numeral.readWord?_eq_some_iff.1 hu,
          Numeral.readWord?_eq_some_iff.1 hg⟩
      · cases h
    · unfold readNumbers at h
      rw [splitAtDot_of_notMem hdot] at h
      cases h
  · intro h
    obtain ⟨user, group, hsplit, huser, hgroup⟩ := h.splitAtDot
    unfold readNumbers
    rw [hsplit]
    dsimp only
    rw [huser, hgroup]

/-- A text is refused if it spells no numbers. -/
theorem readNumbers_eq_error_iff {text : String} {cause : Cause} :
    readNumbers text = .error cause ↔ MisspelledNumbers text cause := by
  by_cases hdot : '.' ∈ text.toList
  · obtain ⟨user, group, -, -, hsplit⟩ := exists_splitAtDot hdot
    have hreason : ∀ other, readNumbers text = .error other →
        other = .setting (.ownerNotNumeric text) := by
      intro other h
      unfold readNumbers at h
      rw [hsplit] at h
      dsimp only at h
      split at h
      · cases h
      · cases h
        rfl
    rw [eq_error_iff_of_reason (fun _ => readNumbers_eq_ok_iff) hreason]
    constructor
    · rintro ⟨rfl, hno⟩
      exact .notNumeric hdot hno
    · rintro (hnodot | ⟨-, hno⟩)
      · exact absurd hdot hnodot
      · exact ⟨rfl, hno⟩
  · have hresult : readNumbers text = .error (.setting (.ownerNotPair text)) := by
      unfold readNumbers
      rw [splitAtDot_of_notMem hdot]
    rw [hresult]
    constructor
    · intro h
      cases h
      exact .notPair hdot
    · rintro (- | ⟨hin, -⟩)
      · rfl
      · exact absurd hin hdot

/-- A text is taken for the names it spells. -/
theorem readNames_eq_ok_iff {text : String} {names : String × String} :
    readNames text = .ok names ↔ SpellsNames text names := by
  constructor
  · intro h
    by_cases hdot : '.' ∈ text.toList
    · obtain ⟨user, group, htext, hbefore, hsplit⟩ := exists_splitAtDot hdot
      unfold readNames at h
      rw [hsplit] at h
      cases h
      exact ⟨by simpa using htext, by simpa using hbefore⟩
    · unfold readNames at h
      rw [splitAtDot_of_notMem hdot] at h
      cases h
  · rintro ⟨htext, hbefore⟩
    unfold readNames
    rw [htext, splitAtDot_append hbefore]
    simp

/-- A text is refused if it spells no names. -/
theorem readNames_eq_error_iff {text : String} {cause : Cause} :
    readNames text = .error cause ↔ MisspelledNames text cause := by
  have hreason : ∀ other, readNames text = .error other →
      other = .setting (.ownerNamesNotPair text) := by
    intro other h
    unfold readNames at h
    split at h
    · cases h
      rfl
    · cases h
  rw [eq_error_iff_of_reason (fun _ => readNames_eq_ok_iff) hreason]
  constructor
  · rintro ⟨rfl, hno⟩
    exact .notPair hno
  · rintro ⟨hno⟩
    exact ⟨rfl, hno⟩

end Owner

end Tarball
