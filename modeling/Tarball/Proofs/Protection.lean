/-
  Protected separators.

  A backslash protects the character after it, unless it is protected itself.
  Whether a character is protected is told by the text before it: that ends in an
  odd number of backslashes.  An argument is cut at the first separator that is not
  protected, and the part before it is freed of the backslashes that protect.

  * `Mapping.Protects` says of a text that what follows it is protected;
  * `Mapping.freed` is a text without the backslashes that protect;
  * `Mapping.Cut` is the first separator that is not protected;
  * `Mapping.scan_append` reads on behind a text without such separators, and
    `mapping_of_quote_and_cut` says what is read of an argument.
-/
import Mathlib.Algebra.Ring.Parity
import Mathlib.Data.List.Infix
import Tarball.Mapping
import Tarball.Text.Utf8

namespace Tarball

namespace Mapping

/-! ## Backslashes -/

/-- How many backslashes a text ends in. -/
def strokes (text : List Char) : Nat :=
  (text.reverse.takeWhile (· = '\\')).length

/-- Whether what follows a text is protected. -/
def Protects (text : List Char) : Prop := Odd (strokes text)

instance (text : List Char) : Decidable (Protects text) :=
  inferInstanceAs (Decidable (Odd (strokes text)))

/-- The characters of a text but for the backslashes that protect what follows them, a
    last one among them. -/
def freed (text : List Char) : List Char :=
  ((text.inits.tail.zip text).filter fun (upTo, _) => ¬ Protects upTo).map Prod.snd

theorem not_protects_nil : ¬ Protects [] := by decide

/-- The last character of a text protects what follows if it is a backslash that is
    not protected itself. -/
theorem protects_concat {text : List Char} {c : Char} :
    Protects (text ++ [c]) ↔ c = '\\' ∧ ¬ Protects text := by
  have hstrokes : strokes (text ++ [c]) = if c = '\\' then strokes text + 1 else 0 := by
    rw [strokes, List.reverse_concat, List.takeWhile_cons]
    by_cases hc : c = '\\' <;> simp [hc, strokes]
  unfold Protects
  rw [hstrokes]
  split
  · next hc => simp [hc, Nat.odd_add_one]
  · next hc => simp [hc]

theorem freed_concat (text : List Char) (c : Char) :
    freed (text ++ [c]) = freed text ++ if Protects (text ++ [c]) then [] else [c] := by
  obtain ⟨upper, hupper⟩ : ∃ upper, text.inits = [] :: upper := by
    cases text <;> exact ⟨_, rfl⟩
  have hlength : upper.length = text.length := by
    have hall := List.length_inits text
    rw [hupper] at hall
    exact Nat.succ_injective hall
  have hinits : (text ++ [c]).inits.tail = text.inits.tail ++ [text ++ [c]] := by
    rw [List.inits_append, hupper]
    rfl
  rw [freed, freed, hinits, List.zip_append (by rw [hupper]; exact hlength), List.filter_append,
    List.map_append]
  congr 1
  by_cases hc : Protects (text ++ [c]) <;> simp [hc]

/-! ## Separators -/

/-- Whether every separator in a text is protected. -/
def Sealed (sep : Char) (text : List Char) : Prop :=
  ∀ before after, text = before ++ sep :: after → Protects before

/-- A text, cut at the first separator that is not protected. -/
structure Cut (sep : Char) (text before after : List Char) : Prop where
  parts : text = before ++ sep :: after
  free : ¬ Protects before
  first : Sealed sep before

/-- If not all separators of a text are protected, there is a first one that is not. -/
theorem exists_cut_of_not_sealed {sep : Char} {text : List Char} (h : ¬ Sealed sep text) :
    ∃ before after, Cut sep text before after := by
  induction text using List.reverseRecOn with
  | nil => exact absurd (fun before after he => by simp at he) h
  | append_singleton text c ih =>
    by_cases hseal : Sealed sep text
    · -- no separator is free but the last character
      have hlast : c = sep ∧ ¬ Protects text := by
        by_contra hno
        refine h fun before after he => ?_
        rcases List.eq_nil_or_concat after with rfl | ⟨after, d, rfl⟩
        · obtain ⟨rfl, hc⟩ := List.append_inj' he rfl
          by_contra hfree
          exact hno ⟨List.singleton_inj.1 hc, hfree⟩
        · have hsplit : text ++ [c] = (before ++ sep :: after) ++ [d] := by simpa using he
          exact hseal before after (List.append_inj' hsplit rfl).1
      exact ⟨text, [], by rw [hlast.1], hlast.2, hseal⟩
    · obtain ⟨before, after, hcut⟩ := ih hseal
      exact ⟨before, after ++ [c], by rw [hcut.parts]; simp, hcut.free, hcut.first⟩

/-- **Behind a text without free separators** the argument is read on, protected or
    not, and the text itself is freed of its backslashes. -/
theorem scan_append {sep : Char} {before : List Char} (h : Sealed sep before) (rest : List Char) :
    scan sep false (before ++ rest) =
      (freed before ++ (scan sep (decide (Protects before)) rest).1,
        (scan sep (decide (Protects before)) rest).2) := by
  induction before using List.reverseRecOn generalizing rest with
  | nil => simp [not_protects_nil, freed]
  | append_singleton before c ih =>
    have hupper : Sealed sep before := by
      intro b a he
      exact h b (a ++ [c]) (by rw [he]; simp)
    have hsep : c = sep → Protects before := by
      rintro rfl
      exact h before [] rfl
    rw [List.append_assoc, List.singleton_append, ih hupper, freed_concat]
    by_cases hprotects : Protects before
    · -- the character is kept whatever it is, and the next one is not protected
      have hnext : ¬ Protects (before ++ [c]) := fun hc => (protects_concat.1 hc).2 hprotects
      simp [hprotects, hnext, scan]
    · have hne : c ≠ sep := fun he => hprotects (hsep he)
      by_cases hc : c = '\\'
      · have hnext : Protects (before ++ [c]) := protects_concat.2 ⟨hc, hprotects⟩
        simp only [hprotects, hnext, scan, if_neg hne, if_pos hc, decide_false, decide_true, if_true,
          List.append_nil]
      · have hnext : ¬ Protects (before ++ [c]) := fun hp => hc (protects_concat.1 hp).1
        simp [hprotects, hnext, scan, hne, hc]

theorem scan_of_cut {sep : Char} {text before after : List Char} (h : Cut sep text before after) :
    scan sep false text = (freed before, after) := by
  rw [h.parts, scan_append h.first]
  simp [h.free, scan]

theorem scan_of_sealed {sep : Char} {text : List Char} (h : Sealed sep text) :
    scan sep false text = (freed text, []) := by
  have hread := scan_append h []
  rw [List.append_nil] at hread
  rw [hread, scan, List.append_nil]

end Mapping

open Mapping

/-- **Reading a pair.**  A quoted head and whatever stands after the separator are
    given back.  Any argument is cut at its first free separator: what is after it is
    kept as it stands, beginning right after the bytes of the separator, and what is
    before it is freed.  Without one all is freed. -/
theorem mapping_of_quote_and_cut (sep : Char) :
    (sep ≠ '\\' → ∀ head tail : String,
      mapping (String.ofList (quote sep head.toList) ++ String.singleton sep ++ tail) sep =
        (head, tail)) ∧
    ∀ arg : String,
      (∃ before after : String, Cut sep arg.toList before.toList after.toList ∧
        mapping arg sep = (String.ofList (freed before.toList), after) ∧
        bytesOf after =
          (bytesOf arg).drop ((bytesOf before).length + (String.utf8EncodeChar sep).length)) ∨
      Sealed sep arg.toList ∧ mapping arg sep = (String.ofList (freed arg.toList), "") := by
  constructor
  · intro hsep head tail
    have htext : (String.ofList (quote sep head.toList) ++ String.singleton sep ++ tail).toList =
        quote sep head.toList ++ sep :: tail.toList := by simp
    rw [mapping, htext, scan_quote hsep]
    simp
  · intro arg
    by_cases hseal : Sealed sep arg.toList
    · refine .inr ⟨hseal, ?_⟩
      rw [mapping, scan_of_sealed hseal]
    · obtain ⟨before, after, hcut⟩ := exists_cut_of_not_sealed hseal
      refine .inl ⟨String.ofList before, String.ofList after, by simpa using hcut, ?_, ?_⟩
      · rw [mapping, scan_of_cut hcut, String.toList_ofList]
      · have hbytes : bytesOf arg =
            bytesOf (String.ofList before) ++ (String.utf8EncodeChar sep ++ bytesOf (String.ofList after)) := by
          simp [bytesOf, hcut.parts]
        rw [hbytes, ← List.drop_drop, List.drop_left, List.drop_left]

/-- A separator of two bytes, once protected and once after a protected backslash. -/
theorem mapping_of_quote_and_cut_twoBytes :
    'é' ≠ '\\' ∧ String.ofList (quote 'é' "aé\\".toList) = "a\\é\\\\" ∧
      mapping "a\\é\\\\éb\\é" 'é' = ("aé\\", "b\\é") := by
  have hsep : 'é' ≠ '\\' := by decide
  have hquote : String.ofList (quote 'é' "aé\\".toList) = "a\\é\\\\" := by decide
  have hread := (mapping_of_quote_and_cut 'é').1 hsep "aé\\" "b\\é"
  rw [hquote] at hread
  exact ⟨hsep, hquote, hread⟩

end Tarball
