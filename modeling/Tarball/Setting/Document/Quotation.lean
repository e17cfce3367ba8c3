/-
  Text between quotation marks in a settings document.

  Text stands between double marks, where a backslash starts an escape, or
  between single marks, where nothing does.  Three marks instead of one let it
  go over several lines; a line end right after them is no part of it, and one
  or two marks more at the end are.

  * `Quotation.rawLine` and `Quotation.rawLines` find the end of one (the rest
    is no longer than the text: `rawLine_length`, `rawLines_length`);
  * `Quotation.unescape` resolves the escapes;
  * `Quotation.line?` and `Quotation.text?` read a text on one line, and one of
    any form.
-/

namespace Tarball.Quotation

/-- The characters that stand for themselves inside a line. -/
def isPlain (c : Char) : Bool :=
  c = '\t' || (0x20 ≤ c.toNat && c.toNat != 0x7F)

/-- The blanks inside a line. -/
def isSpace (c : Char) : Bool :=
  c = ' ' || c = '\t'

/-- A character in front of what is found by going on. -/
def consFirst (c : Char) : Option (List Char × List Char) → Option (List Char × List Char) :=
  Option.map fun p => (c :: p.1, p.2)

/-! ## Where a text ends -/

/-- The text on this line up to the mark, and what follows the mark.  The flag
    tells whether a backslash protects the next character. -/
def rawLine (mark : Char) (escapes : Bool) : Bool → List Char → Option (List Char × List Char)
  | _, [] => none
  | protect, c :: rest =>
    if ¬ protect ∧ c = mark then some ([], rest)
    else if isPlain c then
      consFirst c (rawLine mark escapes (!protect && escapes && c = '\\') rest)
    else none

/-- The text up to three marks, and what follows them and the one or two that
    are still part of the text. -/
def rawLines (mark : Char) (escapes : Bool) : Bool → List Char → Option (List Char × List Char)
  | _, [] => none
  | protect, c :: rest =>
    if ¬ protect ∧ [mark, mark, mark] <+: c :: rest then
      let more := ((rest.drop 2).take 2).takeWhile (· = mark)
      some (more, rest.drop (2 + more.length))
    else consFirst c (rawLines mark escapes (!protect && escapes && c = '\\') rest)

theorem consFirst_eq_some {c : Char} {found : Option (List Char × List Char)}
    {p : List Char × List Char} (h : consFirst c found = some p) :
    ∃ q, found = some q ∧ p = (c :: q.1, q.2) := by
  obtain ⟨q, hq, hp⟩ := Option.map_eq_some_iff.1 h
  exact ⟨q, hq, hp.symm⟩

theorem rawLine_length {mark : Char} {escapes protect : Bool} {cs : List Char}
    {p : List Char × List Char} (h : rawLine mark escapes protect cs = some p) :
    p.2.length < cs.length := by
  induction cs generalizing protect p with
  | nil => exact absurd h (by simp [rawLine])
  | cons c rest ih =>
    rw [rawLine] at h
    split at h
    · cases h
      simp
    · split at h
      · obtain ⟨q, hq, rfl⟩ := consFirst_eq_some h
        have := ih hq
        simp only [List.length_cons]
        omega
      · exact absurd h (by simp)

theorem rawLines_length {mark : Char} {escapes protect : Bool} {cs : List Char}
    {p : List Char × List Char} (h : rawLines mark escapes protect cs = some p) :
    p.2.length < cs.length := by
  induction cs generalizing protect p with
  | nil => exact absurd h (by simp [rawLines])
  | cons c rest ih =>
    rw [rawLines] at h
    split at h
    · cases h
      simp only [List.length_drop, List.length_cons]
      omega
    · obtain ⟨q, hq, rfl⟩ := consFirst_eq_some h
      have := ih hq
      simp only [List.length_cons]
      omega

/-! ## What a text says -/

/-- The digits of base sixteen. -/
def hexDigit? (c : Char) : Option Nat :=
  if c.isDigit then some (c.toNat - '0'.toNat)
  else if 'a' ≤ c ∧ c ≤ 'f' then some (c.toNat - 'a'.toNat + 10)
  else if 'A' ≤ c ∧ c ≤ 'F' then some (c.toNat - 'A'.toNat + 10)
  else none

/-- The number that digits of base sixteen spell. -/
def hexNumber? (cs : List Char) : Option Nat :=
  (cs.mapM hexDigit?).map fun digits => digits.foldl (fun n d => n * 16 + d) 0

/-- The character with the number that the first `width` characters spell. -/
def numbered? (width : Nat) (cs : List Char) : Option Char := do
  let digits := cs.take width
  let n ← hexNumber? digits
  if digits.length = width ∧ n.isValidChar then some (Char.ofNat n) else none

/-- The character that an escape stands for, and how many characters the escape
    has after its backslash. -/
def escape? : List Char → Option (Char × Nat)
  | 'b' :: _ => some ('\x08', 1)
  | 't' :: _ => some ('\t', 1)
  | 'n' :: _ => some ('\n', 1)
  | 'f' :: _ => some ('\x0C', 1)
  | 'r' :: _ => some ('\r', 1)
  | '"' :: _ => some ('"', 1)
  | '\\' :: _ => some ('\\', 1)
  | 'u' :: rest => (numbered? 4 rest).map (·, 5)
  | 'U' :: rest => (numbered? 8 rest).map (·, 9)
  | _ => none

/-- A text with its escapes resolved.  A backslash at the end of a line takes
    the line end away, with all blanks and line ends after it. -/
def unescape : List Char → Option (List Char)
  | [] => some []
  | c :: rest =>
    if c ≠ '\\' then (unescape rest).map (c :: ·)
    else if (rest.dropWhile isSpace).head? = some '\n' then
      unescape (rest.dropWhile fun c => isSpace c || c = '\n')
    else
      match escape? rest with
      | none => none
      | some (c, width) => (unescape (rest.drop width)).map (c :: ·)
  termination_by cs => cs.length
  decreasing_by
    · simp
    · exact Nat.lt_succ_of_le (List.dropWhile_sublist _).length_le
    · simp only [List.length_drop, List.length_cons]
      omega

/-- Text over several lines, each line end given as a line feed; a carriage
    return stands nowhere but before one. -/
def plainLines : List Char → Option (List Char)
  | [] => some []
  | '\r' :: '\n' :: rest => (plainLines rest).map ('\n' :: ·)
  | c :: rest =>
    if isPlain c ∨ c = '\n' then (plainLines rest).map (c :: ·) else none

/-- Text without the line end it may start with. -/
def dropFirstEnd : List Char → List Char
  | '\n' :: rest => rest
  | cs => cs

/-- Whether escapes are resolved between marks of a kind. -/
def hasEscapes (mark : Char) : Bool := mark = '"'

/-- What a text between marks of a kind says. -/
def meaning (mark : Char) (raw : List Char) : Option (List Char) :=
  if hasEscapes mark then unescape raw else some raw

/-- The kinds of marks. -/
def isMark (c : Char) : Bool := c = '"' || c = '\''

/-- A text on one line, at the front. -/
def line? : List Char → Option (List Char × List Char)
  | [] => none
  | mark :: rest =>
    if isMark mark then
      match rawLine mark (hasEscapes mark) false rest with
      | none => none
      | some (raw, after) => (meaning mark raw).map (·, after)
    else none

/-- A text of any form, at the front. -/
def text? (cs : List Char) : Option (List Char × List Char) :=
  match cs with
  | m₁ :: m₂ :: m₃ :: rest =>
    if isMark m₁ ∧ m₂ = m₁ ∧ m₃ = m₁ then
      match rawLines m₁ (hasEscapes m₁) false rest with
      | none => none
      | some (raw, after) =>
        ((plainLines raw).bind fun plain => meaning m₁ (dropFirstEnd plain)).map (·, after)
    else line? cs
  | _ => line? cs

theorem line?_length {cs : List Char} {p : List Char × List Char} (h : line? cs = some p) :
    p.2.length < cs.length := by
  unfold line? at h
  split at h
  · exact absurd h (by simp)
  · next mark rest =>
    split at h
    · split at h
      · exact absurd h (by simp)
      · next raw after hraw =>
        obtain ⟨_, _, rfl⟩ := Option.map_eq_some_iff.1 h
        have := rawLine_length hraw
        simp only [List.length_cons] at this ⊢
        omega
    · exact absurd h (by simp)

theorem text?_length {cs : List Char} {p : List Char × List Char} (h : text? cs = some p) :
    p.2.length < cs.length := by
  unfold text? at h
  split at h
  · next m₁ m₂ m₃ rest =>
    split at h
    · split at h
      · exact absurd h (by simp)
      · next raw after hraw =>
        obtain ⟨_, _, rfl⟩ := Option.map_eq_some_iff.1 h
        have := rawLines_length hraw
        simp only [List.length_cons] at this ⊢
        omega
    · exact line?_length h
  · exact line?_length h

/-- Four marks at the end: three close the text and one is part of it. -/
example : text? ['"', '"', '"', 'a', '"', '"', '"', '"', ' '] = some (['a', '"'], [' ']) := by
  decide +kernel

end Tarball.Quotation
