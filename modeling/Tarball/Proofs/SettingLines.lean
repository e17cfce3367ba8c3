/-
  Lines of a settings file.

  A line that gives a name a value is read as just that, and what follows the line as it
  would be read by itself.

  * `SettingValue.Spells` are the texts a value is written as: a whole number in any base,
    or a text between marks on one line;
  * `Document.spells_toString` and `Document.spells_quoted`: a number that is printed, and a
    word with marks put around it, are among them;
  * `Document.lines?_line`: how a document goes on after a line.
-/
import Mathlib.Data.List.Basic
import Tarball.Numeral
import Tarball.Setting.File

namespace Tarball

/-! ## Whole numbers -/

theorem isSome_of_mapM {α β : Type} {f : α → Option β} {xs : List α} {ys : List β}
    (h : xs.mapM f = some ys) {x : α} (hx : x ∈ xs) : (f x).isSome := by
  induction xs generalizing ys with
  | nil => cases hx
  | cons a xs ih =>
    rw [List.mapM_cons] at h
    obtain ⟨b, hb, h⟩ := Option.bind_eq_some_iff.1 h
    obtain ⟨bs, hbs, -⟩ := Option.bind_eq_some_iff.1 h
    rcases List.mem_cons.1 hx with rfl | hx
    · rw [hb]
      rfl
    · exact ih hbs hx

/-- What is cut out is all that is lost when the pieces are put together. -/
theorem flatten_splitOn (sep : Char) (cs : List Char) :
    (cs.splitOn sep).flatten = cs.filter (· ≠ sep) := by
  induction cs with
  | nil => simp
  | cons c cs ih =>
    rw [List.splitOn_cons_eq_if_modifyHead]
    split
    · next h => simp_all
    · next h =>
      obtain ⟨g, gs, hg⟩ := List.exists_cons_of_ne_nil (List.splitOn_ne_nil sep cs)
      have hne : c ≠ sep := by simpa using h
      rw [hg] at ih ⊢
      rw [List.filter_cons_of_pos (by simpa using hne), ← ih]
      rfl

/-- The letters and digits by their numbers. -/
theorem isAlphanum_iff {c : Char} : c.isAlphanum ↔
    'A'.toNat ≤ c.toNat ∧ c.toNat ≤ 'Z'.toNat ∨ 'a'.toNat ≤ c.toNat ∧ c.toNat ≤ 'z'.toNat ∨
      '0'.toNat ≤ c.toNat ∧ c.toNat ≤ '9'.toNat := by
  have hclasses : c.isAlphanum = (c.isUpper || c.isLower || c.isDigit) := rfl
  have hupper : c.isUpper = decide ('A' ≤ c ∧ c ≤ 'Z') := rfl
  have hlower : c.isLower = (decide ('a' ≤ c) && decide (c ≤ 'z')) := rfl
  rw [hclasses, hupper, hlower, Bool.or_eq_true, Bool.or_eq_true, Char.isDigit_iff_toNat, or_assoc]
  simp only [decide_eq_true_eq, Bool.and_eq_true]
  rfl

namespace Integer

theorem isAlphanum_of_hexDigit? {c : Char} {d : Nat} (h : Quotation.hexDigit? c = some d) :
    c.isAlphanum := by
  rw [isAlphanum_iff]
  unfold Quotation.hexDigit? at h
  split at h
  · next hdigit => exact .inr (.inr (Char.isDigit_iff_toNat.1 hdigit))
  · split at h
    · next hlower => exact .inr (.inl ⟨hlower.1, Nat.le_trans hlower.2 (by decide)⟩)
    · split at h
      · next hupper => exact .inl ⟨hupper.1, Nat.le_trans hupper.2 (by decide)⟩
      · cases h

theorem isWordChar_of_digits? {base : Nat} {cs : List Char} {ds : List Nat}
    (h : digits? base cs = some ds) : cs ≠ [] ∧ ∀ c ∈ cs, Document.isWordChar c := by
  unfold digits? at h
  dsimp only at h
  split at h
  · cases h
  · next hgroups =>
    constructor
    · rintro rfl
      exact hgroups (by simp)
    · -- an underscore is cut out, and what is left is digits
      intro c hc
      by_cases hline : c = '_'
      · rw [hline]
        decide
      · have hmem : c ∈ (cs.splitOn '_').flatten := by
          rw [flatten_splitOn]
          simpa [hc] using hline
        obtain ⟨d, hd⟩ := Option.isSome_iff_exists.1 (isSome_of_mapM h hmem)
        have halphanum : c.isAlphanum :=
          isAlphanum_of_hexDigit? (Option.filter_eq_some_iff.1 hd).1
        simp [Document.isWordChar, Document.isNameChar, halphanum]

theorem exists_digits_of_decimal? {cs : List Char} {n : Nat} (h : decimal? cs = some n) :
    ∃ ds, digits? 10 cs = some ds := by
  unfold decimal? at h
  split at h
  · cases h
  · obtain ⟨ds, hds, -⟩ := Option.map_eq_some_iff.1 h
    exact ⟨ds, hds⟩

/-- What stands before the digits of a number: the mark of a base, a sign or nothing. -/
def marks : List (List Char) := [['0', 'x'], ['0', 'o'], ['0', 'b'], ['-'], ['+'], []]

theorem isWordChar_of_mem_marks : ∀ mark ∈ marks, ∀ c ∈ mark, Document.isWordChar c := by
  have hall : marks.all fun mark => mark.all Document.isWordChar := by decide
  simpa using hall

/-- A number is digits of some base, and what stands before them. -/
theorem exists_digits_of_written? {word : List Char} {n : Int} (h : written? word = some n) :
    ∃ mark cs base ds, mark ∈ marks ∧ word = mark ++ cs ∧ digits? base cs = some ds := by
  unfold written? at h
  split at h
  · obtain ⟨ds, hds, -⟩ := Option.map_eq_some_iff.1 h
    exact ⟨['0', 'x'], _, _, _, by decide, rfl, hds⟩
  · obtain ⟨ds, hds, -⟩ := Option.map_eq_some_iff.1 h
    exact ⟨['0', 'o'], _, _, _, by decide, rfl, hds⟩
  · obtain ⟨ds, hds, -⟩ := Option.map_eq_some_iff.1 h
    exact ⟨['0', 'b'], _, _, _, by decide, rfl, hds⟩
  all_goals
    obtain ⟨_, hsign, -⟩ := Option.map_eq_some_iff.1 h
    obtain ⟨_, hdecimal, -⟩ := Option.bind_eq_some_iff.1 hsign
    obtain ⟨ds, hds⟩ := exists_digits_of_decimal? hdecimal
  · exact ⟨['-'], _, _, _, by decide, rfl, hds⟩
  · exact ⟨['+'], _, _, _, by decide, rfl, hds⟩
  · exact ⟨[], _, _, _, by decide, rfl, hds⟩

/-- A number is a word. -/
theorem isWordChar_of_read? {word : List Char} {n : Int} (h : read? word = some n) :
    word ≠ [] ∧ ∀ c ∈ word, Document.isWordChar c := by
  obtain ⟨mark, cs, base, ds, hmark, rfl, hds⟩ :=
    exists_digits_of_written? (Option.filter_eq_some_iff.1 h).1
  obtain ⟨hne, hchars⟩ := isWordChar_of_digits? hds
  refine ⟨List.append_ne_nil_of_right_ne_nil mark hne, fun c hc => ?_⟩
  rcases List.mem_append.1 hc with hc | hc
  · exact isWordChar_of_mem_marks mark hmark c hc
  · exact hchars c hc

/-! ### Printed numbers -/

theorem head?_toDigits {n : Nat} (h : n ≠ 0) : (Nat.toDigits 10 n).head? ≠ some '0' := by
  induction n using Nat.strongRecOn with
  | ind n ih =>
    rw [Nat.toDigits_eq_if (by decide)]
    split
    · simpa [Nat.digitChar_eq_zero] using h
    · next hge =>
      rw [List.head?_append_of_ne_nil _ Nat.toDigits_ne_nil]
      exact ih _ (by omega) (by omega)

theorem digit?_of_isDigit {c : Char} (h : c.isDigit) :
    digit? 10 c = some (c.toNat - '0'.toNat) := by
  have hlt : c.toNat - '0'.toNat < 10 := by
    have h9 : '9'.toNat = 57 := rfl
    have h0 : '0'.toNat = 48 := rfl
    have := Char.isDigit_iff_toNat.1 h
    omega
  rw [digit?, Quotation.hexDigit?, if_pos h, Option.filter_some, if_pos (decide_eq_true hlt)]

theorem digits?_toDigits (n : Nat) : digits? 10 (Nat.toDigits 10 n) =
    some ((Nat.toDigits 10 n).map fun c => c.toNat - '0'.toNat) := by
  have hmap : ∀ cs : List Char, (∀ c ∈ cs, c.isDigit) →
      cs.mapM (digit? 10) = some (cs.map fun c => c.toNat - '0'.toNat) := by
    intro cs hcs
    induction cs with
    | nil => rfl
    | cons c cs ih =>
      obtain ⟨hc, hrest⟩ := List.forall_mem_cons.1 hcs
      rw [List.mapM_cons, digit?_of_isDigit hc, ih hrest]
      rfl
  have hne : [] ∉ [Nat.toDigits 10 n] := by simp
  unfold digits?
  rw [List.splitOn_eq_singleton Nat.underscore_not_in_toDigits]
  dsimp only
  rw [if_neg hne, List.flatten_singleton]
  exact hmap _ fun c hc => Nat.isDigit_of_mem_toDigits (by decide) (by decide) hc

theorem decimal?_toDigits (n : Nat) : decimal? (Nat.toDigits 10 n) = some n := by
  have hzero : ¬ ((Nat.toDigits 10 n).head? = some '0' ∧ Nat.toDigits 10 n ≠ ['0']) := by
    rintro ⟨hhead, hne⟩
    by_cases hn : n = 0
    · exact hne (hn ▸ Nat.toDigits_zero 10)
    · exact head?_toDigits hn hhead
  have hvalue : value 10 ((Nat.toDigits 10 n).map fun c => c.toNat - '0'.toNat) =
      Nat.ofDigitChars 10 (Nat.toDigits 10 n) 0 := by
    rw [value, List.foldl_map, Nat.ofDigitChars_eq_foldl]
    simp only [Nat.mul_comm]
  rw [decimal?, if_neg hzero, digits?_toDigits, Option.map_some, hvalue,
    Nat.ofDigitChars_ten_toDigits]

theorem written?_toDigits (n : Nat) : written? (Nat.toDigits 10 n) = some (n : Int) := by
  have hnot : ∀ c ∈ Nat.toDigits 10 n, c.isDigit := fun c hc =>
    Nat.isDigit_of_mem_toDigits (by decide) (by decide) hc
  unfold written?
  split
  · next heq => exact absurd (hnot 'x' (by simp [heq])) (by decide)
  · next heq => exact absurd (hnot 'o' (by simp [heq])) (by decide)
  · next heq => exact absurd (hnot 'b' (by simp [heq])) (by decide)
  · next heq => exact absurd (hnot '-' (by simp [heq])) (by decide)
  · next heq => exact absurd (hnot '+' (by simp [heq])) (by decide)
  · rw [decimal?_toDigits]
    rfl

theorem written?_minus (cs : List Char) :
    written? ('-' :: cs) = (decimal? cs).map fun n : Nat => -(n : Int) := by
  cases h : decimal? cs <;> simp [written?, h]

/-- A number is printed as its digits, behind a minus sign if it is below zero. -/
theorem toList_toString (n : Int) :
    0 ≤ n ∧ (toString n).toList = Nat.toDigits 10 n.toNat ∨
      n < 0 ∧ (toString n).toList = '-' :: Nat.toDigits 10 (-n).toNat := by
  rw [Int.toString_eq_repr, Int.repr_eq_if]
  split
  · next hn => exact .inl ⟨hn, Nat.toList_repr⟩
  · next hn =>
    refine .inr ⟨Int.not_le.1 hn, ?_⟩
    rw [String.toList_append, Nat.toList_repr]
    rfl

theorem written?_toString (n : Int) : written? (toString n).toList = some n := by
  rcases toList_toString n with ⟨hn, htext⟩ | ⟨hn, htext⟩
  · rw [htext, written?_toDigits, Int.toNat_of_nonneg hn]
  · rw [htext, written?_minus, decimal?_toDigits, Option.map_some, Int.toNat_of_nonneg (by omega),
      Int.neg_neg]

/-- What printing a number gives is read as that number. -/
theorem read?_toString (n : Int64) : read? (toString n).toList = some n.toInt := by
  rw [read?, show toString n = toString n.toInt from rfl, written?_toString, Option.filter_some,
    if_pos (decide_eq_true ⟨n.minValue_le_toInt, n.toInt_le⟩)]

end Integer

/-! ## Values -/

/-- How a value is written: a number in any way there is, and a text between marks on one
    line, if nothing in it has to be escaped.  An empty text is left out: with a mark after
    it, it would start a text of several lines. -/
inductive SettingValue.Spells : List Char → SettingValue → Prop
  | integer {word : List Char} {n : Int} : Integer.read? word = some n → Spells word (.integer n)
  | text {mark : Char} {text : String} : Quotation.isMark mark → text ≠ "" →
      (∀ c ∈ text.toList, Quotation.isPlain c ∧ c ≠ mark ∧ c ≠ '\\') →
      Spells (mark :: text.toList ++ [mark]) (.text text)

namespace Quotation

variable {mark : Char} {cs : List Char}

theorem unescape_of_notMem (h : '\\' ∉ cs) : unescape cs = some cs := by
  induction cs with
  | nil => rw [unescape]
  | cons c cs ih =>
    obtain ⟨hc, hcs⟩ := List.ne_and_not_mem_of_not_mem_cons h
    rw [unescape, if_pos (Ne.symm hc), ih hcs, Option.map_some]

theorem rawLine_append {escapes : Bool} (h : ∀ c ∈ cs, isPlain c ∧ c ≠ mark ∧ c ≠ '\\')
    (after : List Char) : rawLine mark escapes false (cs ++ mark :: after) = some (cs, after) := by
  induction cs with
  | nil => simp [rawLine]
  | cons c cs ih =>
    obtain ⟨⟨hplain, hmark, hslash⟩, hcs⟩ := List.forall_mem_cons.1 h
    -- without a backslash nothing protects the next character
    have hnext : (!false && escapes && decide (c = '\\')) = false := by simp [hslash]
    rw [List.cons_append, rawLine, if_neg (fun hc => hmark hc.2), if_pos hplain, hnext, ih hcs]
    rfl

/-- Where the second character is another one, there are not three marks. -/
theorem text?_of_ne {c : Char} (h : c ≠ mark) (cs : List Char) :
    text? (mark :: c :: cs) = line? (mark :: c :: cs) := by
  cases cs with
  | nil => rfl
  | cons d cs =>
    unfold text?
    exact if_neg fun hmarks => h hmarks.2.1

/-- A text between marks is read as that text, whatever follows. -/
theorem text?_marked (hmark : isMark mark) (hne : cs ≠ [])
    (h : ∀ c ∈ cs, isPlain c ∧ c ≠ mark ∧ c ≠ '\\') (after : List Char) :
    text? (mark :: (cs ++ mark :: after)) = some (cs, after) := by
  have hmeaning : meaning mark cs = some cs := by
    unfold meaning
    split
    · exact unescape_of_notMem fun hmem => (h _ hmem).2.2 rfl
    · rfl
  have hline : line? (mark :: (cs ++ mark :: after)) = some (cs, after) := by
    rw [line?, if_pos hmark, rawLine_append h]
    simp only [hmeaning, Option.map_some]
  obtain ⟨c, rest, rfl⟩ := List.exists_cons_of_ne_nil hne
  rw [← hline]
  -- the text has a first character, which keeps its marks apart
  exact text?_of_ne (h c List.mem_cons_self).2.1 _

end Quotation

namespace Document

open Quotation (isMark isSpace)

theorem ne_of_isWordChar {c d : Char} (h : isWordChar c) (hd : isWordChar d = false) : c ≠ d := by
  rintro rfl
  rw [hd] at h
  cases h

theorem isMark_of_isWordChar {c : Char} (h : isWordChar c) : isMark c = false := by
  have hdouble : c ≠ '"' := ne_of_isWordChar h (by decide)
  have hsingle : c ≠ '\'' := ne_of_isWordChar h (by decide)
  simp [isMark, hdouble, hsingle]

theorem isSpace_of_isMark {c : Char} (h : isMark c) : isSpace c = false := by
  rw [isMark, Bool.or_eq_true, decide_eq_true_eq, decide_eq_true_eq] at h
  rcases h with rfl | rfl <;> decide

theorem isSpace_of_isWordChar {c : Char} (h : isWordChar c) : isSpace c = false := by
  have hspace : c ≠ ' ' := ne_of_isWordChar h (by decide)
  have htab : c ≠ '\t' := ne_of_isWordChar h (by decide)
  simp [isSpace, hspace, htab]

theorem wordValue?_of_read? {word : List Char} {n : Int} (h : Integer.read? word = some n) :
    wordValue? word = some (.integer n) := by
  have htrue : Integer.read? ['t', 'r', 'u', 'e'] = none := by decide
  have hfalse : Integer.read? ['f', 'a', 'l', 's', 'e'] = none := by decide
  unfold wordValue?
  split
  · next heq =>
    rw [heq, htrue] at h
    cases h
  · split
    · next heq =>
      rw [heq, hfalse] at h
      cases h
    · rw [h, Option.map_some]

theorem isPlain_of_isWordChar {c : Char} (h : isWordChar c) : Quotation.isPlain c := by
  have hrange : 0x2B ≤ c.toNat ∧ c.toNat ≤ 0x7A := by
    simp only [isWordChar, isNameChar, Bool.or_eq_true, decide_eq_true_eq, isAlphanum_iff] at h
    rcases h with (((((h | h | h) | rfl) | rfl) | rfl) | rfl) | rfl
    · exact ⟨Nat.le_trans (by decide) h.1, Nat.le_trans h.2 (by decide)⟩
    · exact ⟨Nat.le_trans (by decide) h.1, Nat.le_trans h.2 (by decide)⟩
    · exact ⟨Nat.le_trans (by decide) h.1, Nat.le_trans h.2 (by decide)⟩
    all_goals decide
  simp only [Quotation.isPlain, Bool.or_eq_true, Bool.and_eq_true, decide_eq_true_eq, bne_iff_ne]
  omega

/-- What is written for a value is read as that value, up to the end of the line. -/
theorem value?_of_spells {word : List Char} {value : SettingValue} (h : value.Spells word)
    (rest : List Char) : value? (word ++ '\n' :: rest) = some (value, '\n' :: rest) := by
  cases h with
  | integer hread =>
    obtain ⟨hne, hchars⟩ := Integer.isWordChar_of_read? hread
    have htake : (word ++ '\n' :: rest).takeWhile isWordChar = word := by
      rw [List.takeWhile_append_of_pos hchars, List.takeWhile_cons_of_neg (by decide),
        List.append_nil]
    have hdrop : (word ++ '\n' :: rest).dropWhile isWordChar = '\n' :: rest := by
      rw [List.dropWhile_append_of_pos hchars]
      rfl
    have hhead : ¬ (word ++ '\n' :: rest).head?.any isMark := by
      obtain ⟨c, cs, rfl⟩ := List.exists_cons_of_ne_nil hne
      simp [isMark_of_isWordChar (hchars c List.mem_cons_self)]
    rw [value?, if_neg hhead, htake, hdrop, wordValue?_of_read? hread]
    rfl
  | @text mark text hmark hne hchars =>
    have hnil : text.toList ≠ [] := by simpa using hne
    have hhead : (mark :: text.toList ++ [mark] ++ '\n' :: rest).head?.any isMark := by
      simpa using hmark
    have htext : Quotation.text? (mark :: text.toList ++ [mark] ++ '\n' :: rest) =
        some (text.toList, '\n' :: rest) := by
      rw [← Quotation.text?_marked hmark hnil hchars]
      simp
    rw [value?, if_pos hhead, htext]
    simp

/-- What is printed for a number is one of its spellings. -/
theorem spells_toString (n : Int64) : SettingValue.Spells (toString n).toList (.integer n.toInt) :=
  .integer (Integer.read?_toString n)

/-- So is a word for itself as a text, when marks are put around it. -/
theorem spells_quoted {text : String} (hne : text ≠ "") (hchars : ∀ c ∈ text.toList, isWordChar c) :
    SettingValue.Spells ("\"" ++ text ++ "\"").toList (.text text) := by
  have hlist : ("\"" ++ text ++ "\"").toList = '"' :: text.toList ++ ['"'] := by simp
  rw [hlist]
  refine .text (by decide) hne fun c hc => ?_
  have hword : isWordChar c := hchars c hc
  exact ⟨isPlain_of_isWordChar hword, ne_of_isWordChar hword (by decide),
    ne_of_isWordChar hword (by decide)⟩

/-! ## Lines -/

variable {name word : List Char} {value : SettingValue}

theorem dropSpaces_cons_of_isWordChar {c : Char} (h : isWordChar c) (cs : List Char) :
    dropSpaces (c :: cs) = c :: cs :=
  List.dropWhile_cons_of_neg (by simp [isSpace_of_isWordChar h])

/-- No value starts with a blank. -/
theorem dropSpaces_of_spells (h : value.Spells word) (rest : List Char) :
    dropSpaces (' ' :: (word ++ rest)) = word ++ rest := by
  have hspace : dropSpaces (' ' :: (word ++ rest)) = dropSpaces (word ++ rest) := rfl
  rw [hspace]
  cases h with
  | integer hread =>
    obtain ⟨hne, hchars⟩ := Integer.isWordChar_of_read? hread
    obtain ⟨c, cs, rfl⟩ := List.exists_cons_of_ne_nil hne
    exact dropSpaces_cons_of_isWordChar (hchars c List.mem_cons_self) _
  | @text mark text hmark hne hchars =>
    exact List.dropWhile_cons_of_neg (by simp [isSpace_of_isMark hmark])

theorem isWordChar_of_isNameChar {c : Char} (h : isNameChar c) : isWordChar c := by
  simp [isWordChar, h]

/-- A line that gives a name a value is read as that setting. -/
theorem setting?_line (hname : name ≠ []) (hchars : ∀ c ∈ name, isNameChar c)
    (hvalue : value.Spells word) (rest : List Char) :
    setting? (name ++ ' ' :: '=' :: ' ' :: (word ++ '\n' :: rest)) =
      some ((String.ofList name, value), rest) := by
  have hbare : name? (name ++ ' ' :: '=' :: ' ' :: (word ++ '\n' :: rest)) =
      some (name, ' ' :: '=' :: ' ' :: (word ++ '\n' :: rest)) := by
    rw [name?, List.takeWhile_append_of_pos hchars, List.dropWhile_append_of_pos hchars,
      List.takeWhile_cons_of_neg (by decide), List.append_nil, if_neg hname]
    rfl
  have hequals : dropSpaces (' ' :: '=' :: ' ' :: (word ++ '\n' :: rest)) =
      '=' :: ' ' :: (word ++ '\n' :: rest) := rfl
  have hafter : afterLine? ('\n' :: rest) = some rest := rfl
  simp only [setting?, hbare, hequals, dropSpaces_of_spells hvalue, value?_of_spells hvalue, hafter,
    Option.map_some]

/-- A line that starts with a word says something. -/
theorem afterLine?_of_isWordChar {c : Char} (h : isWordChar c) (cs : List Char) :
    afterLine? (c :: cs) = none := by
  have hdrop : dropComment (c :: cs) = c :: cs := by
    unfold dropComment
    split
    · next heq => exact absurd (List.cons.inj heq).1 (ne_of_isWordChar h (by decide))
    · rfl
  unfold afterLine?
  rw [dropSpaces_cons_of_isWordChar h, hdrop]
  split
  · next heq => cases heq
  · next heq => exact absurd (List.cons.inj heq).1 (ne_of_isWordChar h (by decide))
  · next heq => exact absurd (List.cons.inj heq).1 (ne_of_isWordChar h (by decide))
  · rfl

/-- After a line that gives a name a value a document goes on as it would by itself. -/
theorem lines?_line (hname : name ≠ []) (hchars : ∀ c ∈ name, isNameChar c)
    (hvalue : value.Spells word) (rest : List Char) :
    lines? (name ++ ' ' :: '=' :: ' ' :: (word ++ '\n' :: rest)) =
      (lines? rest).map ((String.ofList name, value) :: ·) := by
  have hsetting := setting?_line hname hchars hvalue rest
  obtain ⟨c, cs, rfl⟩ := List.exists_cons_of_ne_nil hname
  have hword : isWordChar c := isWordChar_of_isNameChar (hchars c List.mem_cons_self)
  rw [List.cons_append] at hsetting ⊢
  rw [lines?, if_neg (List.cons_ne_nil _ _)]
  split
  · next heq =>
    rw [afterLine?_of_isWordChar hword] at heq
    cases heq
  · next heq =>
    split
    · next s after hread =>
      rw [dropSpaces_cons_of_isWordChar hword, hsetting] at hread
      cases hread
      rfl
    · next hread =>
      rw [dropSpaces_cons_of_isWordChar hword, hsetting] at hread
      cases hread

end Document

end Tarball
