/-
  Where a destination leads.

  A destination is read as a way: a name leads down, and `..` takes back the last
  name that has not been taken back, or else leads up.  Its plain form leads to
  the same place from anywhere, and is the only plain form that does.  Either part
  of a destination can thus be replaced by its plain form.

  * `Whereabouts.after` is where a destination leads;
  * `TakesBack` says of what segments do to something that `..` undoes what a name
    does; whatever it is, a plain form does the same as the destination
    (`TakesBack.foldl_plainDestination`);
  * `Whereabouts.foldl_descend_spelled`: the plain form spells where a destination
    leads;
  * `plainDestination_append_congr`: on either side of a slash only the plain form
    matters;
  * `plainDestination_normalizes` puts this together.
-/
import Tarball.Proofs.PlainForm

namespace Tarball

/-! ## Ways -/

/-- A place as seen from a start: so many levels up, and from there down by names,
    the last one first. -/
structure Whereabouts where
  up : Nat := 0
  down : List Segment := []
  deriving DecidableEq, Repr

namespace Whereabouts

/-- One part of a destination further: nothing and a dot lead nowhere, and any other
    part but `..` is a name. -/
def step (w : Whereabouts) (s : Segment) : Whereabouts :=
  if s = [] ∨ s = dot then w
  else if s = dotDot then
    match w.down with
    | [] => { w with up := w.up + 1 }
    | _ :: above => { w with down := above }
  else { w with down := s :: w.down }

/-- Where a destination leads, part by part. -/
def after (w : Whereabouts) (dest : String) : Whereabouts :=
  (dest.toList.splitOn '/').foldl step w

/-- What is between two slashes that follow one another leads nowhere. -/
theorem after_eq (w : Whereabouts) (dest : String) :
    w.after dest = (slashed dest.toList).foldl step w := by
  rw [slashed, List.foldl_filter, after]
  congr 1
  funext x s
  by_cases hs : s = [] <;> simp [hs, step]

/-- The segments of a place, the last one first. -/
def spelled (w : Whereabouts) : List Segment :=
  w.down ++ List.replicate w.up dotDot

theorem step_down {w : Whereabouts} (h : ∀ t ∈ w.down, t ≠ dotDot) (s : Segment) :
    ∀ t ∈ (w.step s).down, t ≠ dotDot := by
  unfold step
  split
  · exact h
  split
  · split
    · exact h
    · next hdown => exact fun t ht => h t (by rw [hdown]; exact List.mem_cons_of_mem _ ht)
  · next hup => exact List.forall_mem_cons.2 ⟨hup, h⟩

/-- A step leads to what is spelled by one segment more. -/
theorem descend_spelled {w : Whereabouts} (h : ∀ t ∈ w.down, t ≠ dotDot) {s : Segment} (hs : s ≠ []) :
    descend w.spelled s = (w.step s).spelled := by
  obtain ⟨up, down⟩ := w
  unfold step
  by_cases hdot : s = dot
  · rw [if_pos (.inr hdot), hdot, descend_dot]
  rw [if_neg (not_or.2 ⟨hs, hdot⟩)]
  by_cases hup : s = dotDot
  · rw [if_pos hup, hup]
    cases down with
    | nil => exact descend_replicate up
    | cons last above => exact descend_back _ (h last List.mem_cons_self)
  · rw [if_neg hup, descend_name _ hdot hup]
    rfl

/-- **A plain form spells the place.** -/
theorem foldl_descend_spelled {segs : List Segment} (hsegs : ∀ s ∈ segs, s ≠ []) {w : Whereabouts}
    (h : ∀ t ∈ w.down, t ≠ dotDot) :
    segs.foldl descend w.spelled = (segs.foldl step w).spelled := by
  induction segs generalizing w with
  | nil => rfl
  | cons s segs ih =>
    rw [List.foldl_cons, descend_spelled h (hsegs s List.mem_cons_self), List.foldl_cons]
    exact ih (fun t ht => hsegs t (List.mem_cons_of_mem _ ht)) (step_down h s)

end Whereabouts

/-! ## What plain forms do -/

/-- Whether segments do something that a dot leaves as it is, and of which `..` takes
    back what a name has done. -/
structure TakesBack {α : Type} (act : α → Segment → α) : Prop where
  stay : ∀ x, act x dot = x
  back : ∀ x s, s.Plain → s ≠ dot → s ≠ dotDot → act (act x s) dotDot = x

theorem takesBack_descend : TakesBack descend where
  stay := descend_dot
  back place s _ hdot hup := by rw [descend_name place hdot hup, descend_back place hup]

theorem Whereabouts.takesBack_step : TakesBack Whereabouts.step where
  stay w := if_pos (.inr rfl)
  back w s hs hdot hup := by
    have hdown : w.step s = { w with down := s :: w.down } := by
      rw [Whereabouts.step, if_neg (not_or.2 ⟨hs.1, hdot⟩), if_neg hup]
    rw [hdown, Whereabouts.step, if_neg (not_or.2 ⟨plain_dotDot.1.1, plain_dotDot.2⟩), if_pos rfl]

namespace TakesBack

variable {α : Type} {act : α → Segment → α}

/-- Going one segment further does what the segment does. -/
theorem foldl_descend (h : TakesBack act) {place : List Segment} (hplace : ∀ t ∈ place, t.Plain ∧ t ≠ dot)
    (s : Segment) (x : α) :
    (descend place s).reverse.foldl act x = act (place.reverse.foldl act x) s := by
  unfold descend
  split
  · next hdot => rw [hdot, h.stay]
  split
  · next hup =>
    cases place with
    | nil => rw [hup]; rfl
    | cons last above =>
      dsimp only
      split
      · rw [List.reverse_cons, List.foldl_concat, hup]
      · next hlast =>
        obtain ⟨hplain, hdot⟩ := hplace last List.mem_cons_self
        rw [List.reverse_cons, List.foldl_concat, hup, h.back _ _ hplain hdot hlast]
  · rw [List.reverse_cons, List.foldl_concat]

/-- The segments in plain form do what all of them do. -/
theorem foldl_plainSegments (h : TakesBack act) (dest : List Char) (x : α) :
    (plainSegments dest).foldl act x = (slashed dest).foldl act x := by
  have hplain : ∀ s ∈ slashed dest, s.Plain := fun s hs => plain_of_mem_slashed hs
  unfold plainSegments
  generalize slashed dest = segs at hplain
  induction segs using List.reverseRecOn with
  | nil => rfl
  | append_singleton segs s ih =>
    have hupper : ∀ t ∈ segs, t.Plain := fun t ht => hplain t (List.mem_append_left _ ht)
    rw [List.foldl_concat, h.foldl_descend (foldl_descend_plain hupper (by simp)), ih hupper,
      List.foldl_concat]

/-- **A plain form does what the destination does.** -/
theorem foldl_plainDestination (h : TakesBack act) (dest : String) (x : α) :
    (slashed (plainDestination dest).toList).foldl act x = (slashed dest.toList).foldl act x := by
  rw [← h.foldl_plainSegments dest.toList, plainDestination_eq]
  split
  · next hnone =>
    have hdot : slashed ".".toList = [dot] := by decide
    rw [hnone, hdot, List.foldl_cons, h.stay]
  · rw [String.toList_ofList, slashed_joined fun s hs => (plain_of_mem_plainSegments hs).1]

end TakesBack

/-! ## Plain forms -/

theorem plainDestination_congr {dest dest' : String}
    (h : (slashed dest.toList).foldl descend [] = (slashed dest'.toList).foldl descend []) :
    plainDestination dest = plainDestination dest' := by
  rw [plainDestination_eq, plainDestination_eq, plainSegments, plainSegments, h]

/-- On either side of a slash only the plain form matters. -/
theorem plainDestination_append_congr {a a' b b' : String} (ha : plainDestination a = plainDestination a')
    (hb : plainDestination b = plainDestination b') :
    plainDestination (a ++ "/" ++ b) = plainDestination (a' ++ "/" ++ b') := by
  have hread : ∀ c d : String, (slashed (c ++ "/" ++ d).toList).foldl descend [] =
      (slashed (plainDestination d).toList).foldl descend
        ((slashed (plainDestination c).toList).foldl descend []) := by
    intro c d
    have hcut : slashed (c ++ "/" ++ d).toList = slashed c.toList ++ slashed d.toList := by
      rw [← slashed_append]
      simp
    rw [hcut, List.foldl_append, takesBack_descend.foldl_plainDestination,
      takesBack_descend.foldl_plainDestination]
  refine plainDestination_congr ?_
  rw [hread, hread, ha, hb]

/-- Destinations that lead to one place have one plain form. -/
theorem plainDestination_eq_of_after_eq {dest dest' : String}
    (h : ({} : Whereabouts).after dest = ({} : Whereabouts).after dest') :
    plainDestination dest = plainDestination dest' := by
  have hspelled : ∀ d : String, (slashed d.toList).foldl descend [] =
      (({} : Whereabouts).after d).spelled := by
    intro d
    have hdown : ∀ t ∈ ({} : Whereabouts).down, t ≠ dotDot := by simp
    rw [Whereabouts.after_eq]
    exact Whereabouts.foldl_descend_spelled (fun s hs => (plain_of_mem_slashed hs).1) hdown
  refine plainDestination_congr ?_
  rw [hspelled, hspelled, h]

/-- A plain form leads where the destination leads. -/
theorem Whereabouts.after_plainDestination (w : Whereabouts) (dest : String) :
    w.after (plainDestination dest) = w.after dest := by
  rw [w.after_eq, w.after_eq, takesBack_step.foldl_plainDestination]

/-- The segments of a plain form: some `..` and then names. -/
theorem exists_names_plainSegments (dest : List Char) :
    ∃ n names, plainSegments dest = List.replicate n dotDot ++ names ∧
      ∀ s ∈ names, s.Plain ∧ s ≠ dot ∧ s ≠ dotDot := by
  obtain ⟨n, names, hsplit, hnames⟩ := (tidy_plainSegments dest).exists_replicate
  refine ⟨n, names, hsplit, fun s hs => ?_⟩
  obtain ⟨hplain, hdot⟩ := (tidy_plainSegments dest).plain s (by simp [hsplit, hs])
  refine ⟨hplain, hdot, ?_⟩
  rintro rfl
  exact hnames hs

/-- **Plain forms are normal forms.**  A plain form is a dot, or some `..` and then
    names, and its own plain form.  Either side of a slash can be replaced by its
    plain form.  A destination and its plain form lead to the same place, and
    destinations that do have the same plain form. -/
theorem plainDestination_normalizes :
    (∀ dest, plainDestination dest = "." ∨
      ∃ n names, List.replicate n dotDot ++ names ≠ [] ∧
        (∀ s ∈ names, s ≠ [] ∧ '/' ∉ s ∧ s ≠ dot ∧ s ≠ dotDot) ∧
        plainDestination dest = String.ofList (joined (List.replicate n dotDot ++ names))) ∧
    (∀ dest, plainDestination (plainDestination dest) = plainDestination dest) ∧
    (∀ a b, plainDestination (a ++ "/" ++ b) = plainDestination (plainDestination a ++ "/" ++ b) ∧
      plainDestination (a ++ "/" ++ b) = plainDestination (a ++ "/" ++ plainDestination b)) ∧
    (∀ dest (w : Whereabouts), w.after (plainDestination dest) = w.after dest) ∧
    ∀ dest dest', plainDestination dest = plainDestination dest' ↔
      ∀ w : Whereabouts, w.after dest = w.after dest' := by
  refine ⟨fun dest => ?_, plainDestination_plainDestination, fun a b => ⟨?_, ?_⟩,
    fun dest w => w.after_plainDestination dest, fun dest dest' => ⟨fun h w => ?_, fun h => ?_⟩⟩
  · obtain ⟨n, names, hsplit, hnames⟩ := exists_names_plainSegments dest.toList
    rw [plainDestination_eq, hsplit]
    split
    · exact .inl rfl
    · next hne => exact .inr ⟨n, names, hne, fun s hs => ⟨(hnames s hs).1.1, (hnames s hs).1.2,
        (hnames s hs).2⟩, rfl⟩
  · exact plainDestination_append_congr (plainDestination_plainDestination a).symm rfl
  · exact plainDestination_append_congr rfl (plainDestination_plainDestination b).symm
  · rw [← w.after_plainDestination dest, ← w.after_plainDestination dest', h]
  · exact plainDestination_eq_of_after_eq (h {})

end Tarball
