/-
  How a modification time is written.

  A time is given on the command line or in a settings file, and there as a whole number or
  as a text.  It is the same time each way, or it is refused each way with the same words;
  and what a time is written as is read as that time.

  * `Mtime.exists_parse_of_padded`: the written form of a time is read as a time of the same
    seconds;
  * `WrittenMtime.meaning_seconds`: a whole number means what the text of its digits means;
  * `FileSettings.parse_mtimeLine`: what a settings file sets that starts with the time
    (`Settings.effectiveWith_mtimeLine`: and which settings take effect with it);
  * `Mtime.ways_agree`: all ways to write a time agree.
-/
import Tarball.Proofs.SettingLines
import Tarball.Proofs.Spelling
import Tarball.Setting.Effective

namespace Tarball

/-! ## Printed numbers -/

namespace Numeral

theorem not_spells_minus (cs : List Char) (n : Nat) : ¬ Spells 10 ('-' :: cs) n := by
  rintro ⟨sign, digits, hsign, hne, hdigits, htext, -⟩
  rcases hsign with rfl | rfl
  · rw [List.nil_append] at htext
    exact absurd (hdigits '-' (htext ▸ List.mem_cons_self)) (by decide)
  · cases htext

/-- What is printed for a whole number spells just that number, and nothing if it is below
    zero. -/
theorem spells_toString_iff {n : Int} {k : Nat} : Spells 10 (toString n).toList k ↔ n = k := by
  rcases Integer.toList_toString n with ⟨hn, htext⟩ | ⟨hn, htext⟩
  · rw [htext]
    constructor
    · intro h
      rw [h.unique (spells_toDigits n.toNat), Int.toNat_of_nonneg hn]
    · intro h
      rw [h, Int.toNat_natCast]
      exact spells_toDigits k
  · rw [htext]
    exact iff_of_false (not_spells_minus _ k) (by omega)

/-- There is no blank in what is printed for a whole number. -/
theorem trim_toString (n : Int) : trim (toString n).toList = (toString n).toList := by
  have hdigits : ∀ k, ∀ c ∈ Nat.toDigits 10 k, isBlank c = false := fun k c hc =>
    ((spells_toDigits k).plain (by decide) hc).1
  refine (padded_self _).trim_eq fun c hc => ?_
  rcases Integer.toList_toString n with ⟨-, htext⟩ | ⟨-, htext⟩
  · exact hdigits _ c (htext ▸ hc)
  · rw [htext] at hc
    rcases List.mem_cons.1 hc with rfl | hc
    · decide
    · exact hdigits _ c hc

end Numeral

/-! ## Times as texts and as numbers -/

namespace Mtime

/-- The written form of a time, with blanks around it, is read as a time of the same
    seconds. -/
theorem exists_parse_of_padded {m : Mtime} {text : String} (h : Padded m.text.toList text.toList) :
    ∃ m', parse text = .ok m' ∧ m'.seconds = m.seconds := by
  cases m with
  | unset => exact ⟨.epoch 0, parse_eq_ok_iff.2 ⟨['0'], Numeral.spells_toDigits 0, h⟩, rfl⟩
  | epoch s =>
    have hdigits : (Mtime.epoch s).text.toList = Nat.toDigits 10 s.toNat := Nat.toList_repr
    exact ⟨.epoch s, parse_eq_ok_iff.2 ⟨_, Numeral.spells_toDigits s.toNat, hdigits ▸ h⟩, rfl⟩
  | portable =>
    have hword : Mtime.portable.text.toList = portableWord := String.toList_ofList
    rw [hword] at h
    exact ⟨.portable, parse_eq_ok_iff.2 h, rfl⟩

/-- What is printed for a whole number spells the time of that many seconds, if there is
    one, and no other. -/
theorem spells_toString_iff {n : Int} {m : Mtime} :
    Spells (toString n) m ↔ ∃ s : UInt64, m = .epoch s ∧ n = s.toNat := by
  have hword : (toString n).toList ≠ portableWord := by
    -- what is printed is read as a number, and the word is none
    intro heq
    have hwritten := Integer.written?_toString n
    have hnone : Integer.written? portableWord = none := by decide
    rw [heq, hnone] at hwritten
    cases hwritten
  rw [← read?_eq_some_iff_spells, read?, Numeral.trim_toString, if_neg hword,
    Option.map_eq_some_iff]
  refine exists_congr fun s => ?_
  rw [Numeral.readWord?_eq_some_iff, Numeral.spells_toString_iff, and_comm, eq_comm]

/-- A number of seconds is the time of that many seconds. -/
theorem ofInteger_toNat (s : UInt64) : ofInteger s.toNat = .ok (.epoch s) := by
  have hfits : (0 : Int) ≤ s.toNat ∧ (s.toNat : Int).toNat < UInt64.size :=
    ⟨Int.natCast_nonneg _, s.toNat_lt⟩
  rw [ofInteger, if_pos hfits, Int.toNat_natCast, UInt64.ofNat_toNat]

/-- What is printed for a number of seconds is read as the time of that many seconds. -/
theorem parse_toString {n : Int} {s : UInt64} (h : n = s.toNat) :
    parse (toString n) = .ok (.epoch s) :=
  parse_eq_ok_iff.2 (spells_toString_iff.2 ⟨s, rfl, h⟩)

/-- What is printed for a number that is no number of seconds is refused. -/
theorem parse_toString_of_forall_ne {n : Int} (h : ∀ s : UInt64, n ≠ s.toNat) :
    parse (toString n) = .error (.mtime (toString n)) := by
  refine parse_eq_error_iff.2 (.mtime fun m hm => ?_)
  obtain ⟨s, -, hs⟩ := spells_toString_iff.1 hm
  exact h s hs

end Mtime

/-- A whole number in a file means what the text of its digits means: the time of that
    many seconds, or it is refused with the same words. -/
theorem WrittenMtime.meaning_seconds (n : Int) :
    (seconds n).meaning = (text (toString n)).meaning := by
  by_cases hn : ∃ s : UInt64, n = s.toNat
  · obtain ⟨s, rfl⟩ := hn
    rw [meaning, meaning, Mtime.ofInteger_toNat, Mtime.parse_toString rfl]
  · have hnone : ∀ s : UInt64, n ≠ s.toNat := fun s hs => hn ⟨s, hs⟩
    have hseconds : (seconds n).meaning = .error (.mtime (toString n)) :=
      meaning_eq_error_iff.2 (.seconds hnone)
    rw [hseconds, meaning, Mtime.parse_toString_of_forall_ne hnone]

/-! ## Settings files -/

namespace FileSettings

variable {s : FileSettings} {written : Option WrittenMtime}

/-- The line of a settings file that gives the modification time. -/
def mtimeLine (word : String) : String := "default_mtime = " ++ word ++ "\n"

/-- The name of the setting in that line. -/
def mtimeName : List Char := ['d', 'e', 'f', 'a', 'u', 'l', 't', '_', 'm', 't', 'i', 'm', 'e']

/-- What lines set that do not set the modification time. -/
def parseBesides (rest : String) : Option FileSettings :=
  (Document.lines? rest.toList).bind fun d =>
    if "default_mtime" ∈ d.map Prod.fst then none else ofDocument d

/-- A setting of another name has nothing to do with the modification time. -/
theorem set_withMtime {p : String × SettingValue} (hp : p.1 ≠ "default_mtime") :
    set { s with mtime := written } p = (set s p).map ({ · with mtime := written }) := by
  fun_cases set s p with
  | case1 => exact absurd rfl hp
  | case2 => exact absurd rfl hp
  | case3 => rfl
  | case4 => rfl
  | case5 => rfl
  | case6 => rfl
  | case7 => rfl
  | case8 =>
    -- there is no setting of this name, or it has no such value
    have hnone : set { s with mtime := written } p = none := by
      rw [set.eq_8] <;> assumption
    rw [hnone]
    rfl

theorem foldlM_set_withMtime {d : Document} (hd : "default_mtime" ∉ d.map Prod.fst) :
    d.foldlM set { s with mtime := written } =
      (d.foldlM set s).map ({ · with mtime := written }) := by
  induction d generalizing s with
  | nil => rfl
  | cons p d ih =>
    rw [List.map_cons] at hd
    obtain ⟨hp, hd⟩ := List.ne_and_not_mem_of_not_mem_cons hd
    rw [List.foldlM_cons, List.foldlM_cons, set_withMtime hp.symm]
    cases set s p with
    | none => rfl
    | some s' => exact ih hd

/-- The modification time and other settings: that time, and what the others set. -/
theorem ofDocument_cons_mtime {value : SettingValue} {w : WrittenMtime}
    (hset : ∀ s, set s ("default_mtime", value) = some { s with mtime := some w }) (d : Document) :
    ofDocument (("default_mtime", value) :: d) =
      (if "default_mtime" ∈ d.map Prod.fst then none else ofDocument d).map
        ({ · with mtime := some w }) := by
  have hnames : ((("default_mtime", value) :: d).map Prod.fst).Nodup ↔
      "default_mtime" ∉ d.map Prod.fst ∧ (d.map Prod.fst).Nodup := List.nodup_cons
  by_cases hagain : "default_mtime" ∈ d.map Prod.fst
  · rw [ofDocument, if_neg fun h => (hnames.1 h).1 hagain, if_pos hagain]
    rfl
  · rw [if_neg hagain, ofDocument, ofDocument]
    by_cases hnodup : (d.map Prod.fst).Nodup
    · rw [if_pos (hnames.2 ⟨hagain, hnodup⟩), if_pos hnodup, List.foldlM_cons, hset]
      exact foldlM_set_withMtime hagain
    · rw [if_neg fun h => hnodup (hnames.1 h).2, if_neg hnodup]
      rfl

theorem ofList_mtimeName : String.ofList mtimeName = "default_mtime" := rfl

theorem isNameChar_mtimeName : ∀ c ∈ mtimeName, Document.isNameChar c := by
  have hall : mtimeName.all Document.isNameChar := by decide
  simpa using hall

theorem toList_mtimeLine (word : String) : (mtimeLine word).toList =
    mtimeName ++ ' ' :: '=' :: ' ' :: (word.toList ++ ['\n']) := by
  have hfront : "default_mtime = ".toList = mtimeName ++ [' ', '=', ' '] := by decide
  change ("default_mtime = " ++ word ++ "\n").toList = _
  rw [String.toList_append, String.toList_append, hfront, List.append_assoc, List.append_assoc]
  rfl

/-- What a file sets that starts with the modification time: that time, and what the other
    lines set. -/
theorem parse_mtimeLine {word : String} {value : SettingValue} {w : WrittenMtime}
    (hvalue : value.Spells word.toList)
    (hset : ∀ s, set s ("default_mtime", value) = some { s with mtime := some w }) (rest : String) :
    parse (mtimeLine word ++ rest) = (parseBesides rest).map ({ · with mtime := some w }) := by
  have htext : (mtimeLine word ++ rest).toList =
      mtimeName ++ ' ' :: '=' :: ' ' :: (word.toList ++ '\n' :: rest.toList) := by
    rw [String.toList_append, toList_mtimeLine]
    simp only [List.append_assoc, List.cons_append, List.nil_append]
  have hmark : Document.dropByteOrderMark (mtimeLine word ++ rest).toList =
      (mtimeLine word ++ rest).toList := by
    rw [htext]
    rfl
  have hname : mtimeName ≠ [] := List.cons_ne_nil _ _
  have hlines := Document.lines?_line hname isNameChar_mtimeName hvalue rest.toList
  rw [parse, Document.parse, hmark, htext, hlines, ofList_mtimeName, parseBesides]
  cases Document.lines? rest.toList with
  | none => rfl
  | some d => exact ofDocument_cons_mtime hset d

end FileSettings

/-! ## The settings that take effect -/

namespace Settings

open FileSettings (mtimeLine parseBesides parse_mtimeLine)

variable {flags : Flags} {file : FileSettings}

/-- The settings that take effect with the text of a settings file, if it is one. -/
def effectiveWith (flags : Flags) (text : String) : Option (Except Cause Settings) :=
  (FileSettings.parse text).map (effective flags)

/-- Times of one meaning in a file have the same effect. -/
theorem effective_withMtime {w w' : WrittenMtime} (h : w.meaning = w'.meaning) :
    effective flags { file with mtime := some w } =
      effective flags { file with mtime := some w' } := by
  have hmtime : mtime flags { file with mtime := some w } =
      mtime flags { file with mtime := some w' } := by
    unfold mtime
    cases flags.mtime with
    | some text => rfl
    | none => exact h
  rw [effective, effective, hmtime]
  rfl

/-- A time on the command line has the effect of the same text in a file. -/
theorem effective_flag (text : String) :
    effective { flags with mtime := some text } file =
      effective { flags with mtime := none } { file with mtime := some (.text text) } :=
  rfl

/-- A file that starts with a whole number as the time, a file that starts with the text of
    its digits, and the digits on the command line have one effect. -/
theorem effectiveWith_mtimeLine {n : Int} {word word' : String}
    (hword : SettingValue.Spells word.toList (.integer n))
    (hword' : SettingValue.Spells word'.toList (.text (toString n))) (flags : Flags)
    (rest : String) :
    effectiveWith flags (mtimeLine word ++ rest) = effectiveWith flags (mtimeLine word' ++ rest) ∧
      effectiveWith { flags with mtime := none } (mtimeLine word ++ rest) =
        (parseBesides rest).map (effective { flags with mtime := some (toString n) }) := by
  have hmeaning := WrittenMtime.meaning_seconds n
  rw [effectiveWith, effectiveWith, effectiveWith, parse_mtimeLine hword fun _ => rfl,
    parse_mtimeLine hword' fun _ => rfl, Option.map_map, Option.map_map, Option.map_map]
  constructor
  · congr 1
    funext file
    exact effective_withMtime hmeaning
  · congr 1
    funext file
    exact (effective_withMtime hmeaning).trans (effective_flag _).symm

end Settings

/-! ## All ways to write a time -/

namespace Mtime

open FileSettings (mtimeLine parseBesides)
open Settings (effective effectiveWith)

/-- A text is taken for a time just if it is the word for the portable time or a number that
    fits a word, when the blanks around it are taken off. -/
theorem exists_parse_iff {text : String} :
    (∃ m, parse text = .ok m) ↔
      trim text.toList = portableWord ∨
        ∃ n, Numeral.Spells 10 (trim text.toList) n ∧ n < UInt64.size := by
  constructor
  · rintro ⟨m, hm⟩
    have hspells := parse_eq_ok_iff.1 hm
    cases m with
    | unset => exact hspells.elim
    | portable => exact .inl (hspells.trim_eq isBlank_portableWord)
    | epoch s =>
      obtain ⟨number, hnumber, hpadded⟩ := hspells
      rw [hpadded.trim_eq fun c hc => (hnumber.plain (by decide) hc).1]
      exact .inr ⟨s.toNat, hnumber, s.toNat_lt⟩
  · have hpadded : Padded (trim text.toList) text.toList := padded_trim text.toList
    rintro (hword | ⟨n, hnumber, hlt⟩)
    · rw [hword] at hpadded
      exact ⟨.portable, parse_eq_ok_iff.2 hpadded⟩
    · refine ⟨.epoch (UInt64.ofNat n), parse_eq_ok_iff.2 ⟨_, ?_, hpadded⟩⟩
      rwa [UInt64.toNat_ofNat_of_lt' hlt]

/-- **All ways to write a modification time agree.**  The written form of a time is read as
    a time of the same seconds, with blanks around it or none.  A whole number means what the
    text of its digits means, and has the same effect in a file, however it is written there,
    and on the command line: the time of that many seconds, or it is refused with the same
    words if it is below zero.  And a text is taken for a time just if it spells one. -/
theorem ways_agree :
    (∀ (m : Mtime) (text : String), Padded m.text.toList text.toList →
        ∃ m', parse text = .ok m' ∧ m'.seconds = m.seconds) ∧
      (∀ n : Int64,
        (WrittenMtime.seconds n.toInt).meaning = (WrittenMtime.text (toString n)).meaning ∧
        (∀ s : UInt64, n.toInt = s.toNat → parse (toString n) = .ok (.epoch s)) ∧
        (n < 0 → parse (toString n) = .error (.mtime (toString n))) ∧
        SettingValue.Spells (toString n).toList (.integer n.toInt) ∧
        SettingValue.Spells ("\"" ++ toString n ++ "\"").toList (.text (toString n)) ∧
        ∀ word word' : String, SettingValue.Spells word.toList (.integer n.toInt) →
          SettingValue.Spells word'.toList (.text (toString n)) → ∀ flags rest,
          effectiveWith flags (mtimeLine word ++ rest) =
              effectiveWith flags (mtimeLine word' ++ rest) ∧
            effectiveWith { flags with mtime := none } (mtimeLine word ++ rest) =
              (parseBesides rest).map (effective { flags with mtime := some (toString n) })) ∧
      ∀ text, (∀ m, parse text = .ok m ↔ Spells text m) ∧
        ((∃ m, parse text = .ok m) ↔ trim text.toList = portableWord ∨
          ∃ n, Numeral.Spells 10 (trim text.toList) n ∧ n < UInt64.size) ∧
        ∀ cause, parse text = .error cause → cause = .mtime text := by
  refine ⟨fun m text h => exists_parse_of_padded h, fun n => ?_, fun text => ?_⟩
  · refine ⟨WrittenMtime.meaning_seconds _, fun s h => parse_toString h, fun hn => ?_,
      Document.spells_toString n, Document.spells_quoted ?_ ?_,
      fun _ _ hword hword' => Settings.effectiveWith_mtimeLine hword hword'⟩
    · have hneg : n.toInt < 0 := by simpa using Int64.lt_iff_toInt_lt.1 hn
      exact parse_toString_of_forall_ne fun s hs => by omega
    · obtain ⟨hne, -⟩ := Integer.isWordChar_of_read? (Integer.read?_toString n)
      simpa using hne
    · exact (Integer.isWordChar_of_read? (Integer.read?_toString n)).2
  · refine ⟨fun m => parse_eq_ok_iff, exists_parse_iff, fun cause h => ?_⟩
    cases parse_eq_error_iff.1 h
    rfl

/-- Lines that do not set the time. -/
def otherLines : String := "mode = \"0600\" # for all\n"

theorem ways_agree_hexadecimal :
    Padded Mtime.portable.text.toList "\u2003portable\n".toList ∧
      (∃ m', parse "\u2003portable\n" = .ok m' ∧ m'.seconds = Mtime.portable.seconds) ∧
      (-7 : Int64) < 0 ∧ parse (toString (-7 : Int64)) = .error (.mtime (toString (-7 : Int64))) ∧
      (16 : Int64).toInt = (16 : UInt64).toNat ∧ parse (toString (16 : Int64)) = .ok (.epoch 16) ∧
      SettingValue.Spells "0x10".toList (.integer (16 : Int64).toInt) ∧
      SettingValue.Spells "'16'".toList (.text (toString (16 : Int64))) ∧
      parseBesides otherLines = some { mode := some "0600" } ∧
      effectiveWith {} (mtimeLine "0x10" ++ otherLines) =
        effectiveWith {} (mtimeLine "'16'" ++ otherLines) := by
  obtain ⟨hwritten, hnumber, -⟩ := ways_agree
  have hblanks : Padded Mtime.portable.text.toList "\u2003portable\n".toList :=
    ⟨['\u2003'], ['\n'], List.all_eq_true.1 (by decide), List.all_eq_true.1 (by decide),
      by decide⟩
  have hinteger : SettingValue.Spells "0x10".toList (.integer (16 : Int64).toInt) :=
    .integer (by decide)
  have htext : SettingValue.Spells "'16'".toList (.text (toString (16 : Int64))) :=
    @SettingValue.Spells.text '\'' "16" (by decide) (by decide) (by simp [Quotation.isPlain])
  obtain ⟨-, hseconds, -, -, -, hfiles⟩ := hnumber 16
  obtain ⟨-, -, hbelow, -⟩ := hnumber (-7)
  exact ⟨hblanks, hwritten _ _ hblanks, by decide, hbelow (by decide), by decide,
    hseconds 16 (by decide), hinteger, htext, by decide +kernel,
    (hfiles _ _ hinteger htext {} otherLines).1⟩

end Mtime

end Tarball
