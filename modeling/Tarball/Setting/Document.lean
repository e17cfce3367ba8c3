/-
  Settings documents.

  A document is lines.  A line is blank but for a comment, or it gives a name a
  value: a text, a whole number, or true or false.  Documents of this kind can
  be of more forms; one that uses any of those sets nothing that there is, and
  is refused like one that is not well formed.

  * `Document.parse` reads a document;
  * `Document.afterLine?` is what follows a line that says nothing more, and
    `Document.setting?` a setting at the front of a text (both leave less than
    there was: `afterLine?_length`, `setting?_length`).
-/
import Tarball.Setting.Document.Integer

namespace Tarball

/-- The value of a setting. -/
inductive SettingValue where
  | text (text : String)
  | integer (n : Int)
  | flag (on : Bool)
  deriving DecidableEq, Repr

/-- What a document sets, in its order. -/
abbrev Document := List (String × SettingValue)

namespace Document

open Quotation (isPlain isSpace)

/-- A text without the blanks in front. -/
def dropSpaces (cs : List Char) : List Char := cs.dropWhile isSpace

/-- A text without the comment it may start with. -/
def dropComment : List Char → List Char
  | '#' :: rest => rest.dropWhile isPlain
  | cs => cs

/-- What follows the end of the line, if the text before it says nothing. -/
def afterLine? (cs : List Char) : Option (List Char) :=
  match dropComment (dropSpaces cs) with
  | [] => some []
  | '\n' :: rest | '\r' :: '\n' :: rest => some rest
  | _ => none

/-- The characters of a name without marks around it. -/
def isNameChar (c : Char) : Bool := c.isAlphanum || c = '_' || c = '-'

/-- The characters of a value without marks around it. -/
def isWordChar (c : Char) : Bool := isNameChar c || c = '+' || c = '.' || c = ':'

/-- The name of a setting, at the front. -/
def name? (cs : List Char) : Option (List Char × List Char) :=
  let bare := cs.takeWhile isNameChar
  if bare = [] then Quotation.line? cs else some (bare, cs.dropWhile isNameChar)

/-- The value of a word. -/
def wordValue? (word : List Char) : Option SettingValue :=
  if word = ['t', 'r', 'u', 'e'] then some (.flag true)
  else if word = ['f', 'a', 'l', 's', 'e'] then some (.flag false)
  else (Integer.read? word).map .integer

/-- The value of a setting, at the front. -/
def value? (cs : List Char) : Option (SettingValue × List Char) :=
  if cs.head?.any Quotation.isMark then
    (Quotation.text? cs).map fun p => (.text (String.ofList p.1), p.2)
  else (wordValue? (cs.takeWhile isWordChar)).map (·, cs.dropWhile isWordChar)

/-- A setting, at the front, and what follows its line. -/
def setting? (cs : List Char) : Option ((String × SettingValue) × List Char) :=
  match name? cs with
  | none => none
  | some (name, cs') =>
    match dropSpaces cs' with
    | '=' :: cs'' =>
      match value? (dropSpaces cs'') with
      | none => none
      | some (value, rest) => (afterLine? rest).map ((String.ofList name, value), ·)
    | _ => none

theorem length_dropWhile_le {α : Type} (p : α → Bool) (cs : List α) :
    (cs.dropWhile p).length ≤ cs.length :=
  (List.dropWhile_sublist p).length_le

theorem length_dropComment_le (cs : List Char) : (dropComment cs).length ≤ cs.length := by
  unfold dropComment
  split
  · exact Nat.le_succ_of_le (length_dropWhile_le _ _)
  · exact Nat.le_refl _

theorem afterLine?_length {cs rest : List Char} (h : afterLine? cs = some rest) :
    rest.length ≤ cs.length ∧ (cs ≠ [] → rest.length < cs.length) := by
  have hle : (dropComment (dropSpaces cs)).length ≤ cs.length :=
    Nat.le_trans (length_dropComment_le _) (length_dropWhile_le _ _)
  unfold afterLine? at h
  split at h
  · cases h
    exact ⟨Nat.zero_le _, fun hne => List.length_pos_iff.2 hne⟩
  · next hd =>
    cases h
    rw [hd] at hle
    simp only [List.length_cons] at hle
    exact ⟨by omega, fun _ => by omega⟩
  · next hd =>
    cases h
    rw [hd] at hle
    simp only [List.length_cons] at hle
    exact ⟨by omega, fun _ => by omega⟩
  · exact absurd h (by simp)

theorem name?_length {cs : List Char} {p : List Char × List Char} (h : name? cs = some p) :
    p.2.length ≤ cs.length := by
  unfold name? at h
  dsimp only at h
  split at h
  · exact Nat.le_of_lt (Quotation.line?_length h)
  · cases h
    exact length_dropWhile_le _ _

theorem value?_length {cs : List Char} {p : SettingValue × List Char} (h : value? cs = some p) :
    p.2.length ≤ cs.length := by
  unfold value? at h
  split at h
  · obtain ⟨q, hq, rfl⟩ := Option.map_eq_some_iff.1 h
    exact Nat.le_of_lt (Quotation.text?_length hq)
  · obtain ⟨_, _, rfl⟩ := Option.map_eq_some_iff.1 h
    exact length_dropWhile_le _ _

theorem setting?_length {cs : List Char} {p : (String × SettingValue) × List Char}
    (h : setting? cs = some p) : p.2.length < cs.length := by
  unfold setting? at h
  split at h
  · exact absurd h (by simp)
  · next name cs' hname =>
    split at h
    · next cs'' heq =>
      split at h
      · exact absurd h (by simp)
      · next value rest hvalue =>
        obtain ⟨after, hafter, rfl⟩ := Option.map_eq_some_iff.1 h
        have h1 : cs'.length ≤ cs.length := name?_length hname
        have h2 : (dropSpaces cs').length ≤ cs'.length := length_dropWhile_le _ _
        have h3 : rest.length ≤ (dropSpaces cs'').length := value?_length hvalue
        have h4 : (dropSpaces cs'').length ≤ cs''.length := length_dropWhile_le _ _
        have h5 := (afterLine?_length hafter).1
        rw [heq, List.length_cons] at h2
        dsimp only
        omega
    · exact absurd h (by simp)

/-- The settings of the lines of a text. -/
def lines? (cs : List Char) : Option Document :=
  if cs = [] then some []
  else
    match _h : afterLine? cs with
    | some rest => lines? rest
    | none =>
      match _h : setting? (dropSpaces cs) with
      | some (s, rest) => (lines? rest).map (s :: ·)
      | none => none
  termination_by cs.length
  decreasing_by
    · exact (afterLine?_length _h).2 (by assumption)
    · exact Nat.lt_of_lt_of_le (setting?_length _h) (length_dropWhile_le _ _)

/-- A text without the mark of byte order it may start with. -/
def dropByteOrderMark : List Char → List Char
  | '\uFEFF' :: rest => rest
  | cs => cs

/-- The settings of a document. -/
def parse (text : String) : Option Document :=
  lines? (dropByteOrderMark text.toList)

end Document

end Tarball
