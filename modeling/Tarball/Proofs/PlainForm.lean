/-
  Names in plain form.

  In plain form a name has no empty segment and no dot, and a `..` only in front.
  Reading such segments in order takes none of them back, so that what is in plain
  form is its own plain form.

  * `Tidy` says of segments that they are in plain form (`tidy_plainSegments`, and
    `Tidy.plainSegments_joined`: such segments are read as they are);
  * `CleanName` says of a name that it is its own plain form and not that of the
    root (`cleanName_iff`: it is written from such segments);
  * `tidy_entry` and `tidy_itemPlace`: what is asked for at a plain destination is
    placed in plain form.
-/
import Mathlib.Data.List.Chain
import Tarball.Proofs.ItemNames

namespace Tarball

/-! ## Segments -/

/-- Segments in plain form. -/
structure Tidy (segs : List Segment) : Prop where
  plain : ∀ s ∈ segs, s.Plain ∧ s ≠ dot
  /-- Before a `..` there is nothing else. -/
  climbs : segs.IsChain fun s t => t = dotDot → s = dotDot

theorem tidy_nil : Tidy [] := ⟨by simp, .nil⟩

theorem Tidy.take {segs : List Segment} (h : Tidy segs) (n : Nat) : Tidy (segs.take n) :=
  ⟨fun s hs => h.plain s (List.mem_of_mem_take hs), h.climbs.take n⟩

/-- What is below a place in plain form is so as well, unless a name goes up. -/
theorem Tidy.append {segs more : List Segment} (h : Tidy segs)
    (hplain : ∀ s ∈ more, s.Plain ∧ s ≠ dot) (hup : ∀ s ∈ more, s ≠ dotDot) :
    Tidy (segs ++ more) := by
  have hmore : more.IsChain fun s t => t = dotDot → s = dotDot := by
    refine (List.pairwise_of_forall_mem_list ?_).isChain
    exact fun s _ t ht hdots => absurd hdots (hup t ht)
  refine ⟨List.forall_mem_append.2 ⟨h.plain, hplain⟩, h.climbs.append hmore ?_⟩
  intro s _ t ht hdots
  exact absurd hdots (hup t (List.mem_of_mem_head? ht))

/-- Each `..` in plain form stands in a run at the front. -/
theorem Tidy.exists_replicate {segs : List Segment} (h : Tidy segs) :
    ∃ n rest, segs = List.replicate n dotDot ++ rest ∧ dotDot ∉ rest := by
  induction segs with
  | nil => exact ⟨0, [], rfl, by simp⟩
  | cons s segs ih =>
    have htail : Tidy segs := ⟨fun t ht => h.plain t (List.mem_cons_of_mem _ ht), h.climbs.tail⟩
    obtain ⟨n, rest, hsplit, hrest⟩ := ih htail
    by_cases hs : s = dotDot
    · refine ⟨n + 1, rest, ?_, hrest⟩
      rw [hs, hsplit, List.replicate_succ, List.cons_append]
    · refine ⟨0, s :: segs, rfl, ?_⟩
      have hnone : n = 0 := by
        by_contra hpos
        obtain ⟨k, rfl⟩ := Nat.exists_eq_succ_of_ne_zero hpos
        rw [List.replicate_succ, List.cons_append] at hsplit
        have hclimbs := h.climbs
        rw [hsplit] at hclimbs
        exact hs ((List.isChain_cons_cons.1 hclimbs).1 rfl)
      rw [hsplit, hnone, List.mem_cons, not_or]
      exact ⟨fun he => hs he.symm, by simpa using hrest⟩

/-! ## Reading segments -/

/-- Going one segment further leaves the way down in plain form. -/
theorem descend_climbs {place : List Segment} (s : Segment)
    (h : place.IsChain fun s t => s = dotDot → t = dotDot) :
    (descend place s).IsChain fun s t => s = dotDot → t = dotDot := by
  unfold descend
  split
  · exact h
  split
  · cases place with
    | nil => exact .singleton _
    | cons last above =>
      dsimp only
      split
      · next hlast => exact h.cons_cons fun _ => hlast
      · exact h.tail
  · next hup => exact h.cons fun _ _ hs => absurd hs hup

theorem foldl_descend_climbs {place : List Segment} (segs : List Segment)
    (h : place.IsChain fun s t => s = dotDot → t = dotDot) :
    (segs.foldl descend place).IsChain fun s t => s = dotDot → t = dotDot := by
  induction segs generalizing place with
  | nil => exact h
  | cons s segs ih => exact ih (descend_climbs s h)

/-- **A plain form is in plain form.** -/
theorem tidy_plainSegments (dest : List Char) : Tidy (plainSegments dest) := by
  refine ⟨fun s hs => plain_of_mem_plainSegments hs, ?_⟩
  rw [plainSegments, List.isChain_reverse]
  exact foldl_descend_climbs _ .nil

/-- Segments in plain form are all kept, one after the other. -/
theorem foldl_descend_of_climbs {place segs : List Segment} (hdot : ∀ s ∈ segs, s ≠ dot)
    (h : (place.reverse ++ segs).IsChain fun s t => t = dotDot → s = dotDot) :
    segs.foldl descend place = segs.reverse ++ place := by
  induction segs generalizing place with
  | nil => rfl
  | cons s segs ih =>
    have hfirst : descend place s = s :: place := by
      unfold descend
      rw [if_neg (hdot s List.mem_cons_self)]
      split
      · next hup =>
        cases place with
        | nil => rw [hup]
        | cons last above =>
          -- the segment before a `..` is one itself
          have hlast : last = dotDot := by
            rw [List.reverse_cons, List.append_assoc, List.singleton_append] at h
            exact (List.isChain_cons_cons.1 h.right_of_append).1 hup
          dsimp only
          rw [if_pos hlast, hup]
      · rfl
    have hrest : ((s :: place).reverse ++ segs).IsChain fun s t => t = dotDot → s = dotDot := by
      simpa using h
    rw [List.foldl_cons, hfirst, ih (fun t ht => hdot t (List.mem_cons_of_mem _ ht)) hrest,
      List.reverse_cons, List.append_assoc, List.singleton_append]

/-- **Segments in plain form are read as they are written.** -/
theorem Tidy.plainSegments_joined {segs : List Segment} (h : Tidy segs) :
    plainSegments (joined segs) = segs := by
  rw [plainSegments, slashed_joined fun s hs => (h.plain s hs).1,
    foldl_descend_of_climbs (fun s hs => (h.plain s hs).2) (by simpa using h.climbs),
    List.append_nil, List.reverse_reverse]

/-- So they are when they are read as a path for an entry. -/
theorem Tidy.segments_joined {segs : List Segment} (h : Tidy segs) :
    segments (joined segs) = segs := by
  refine Tarball.segments_joined (fun s hs => (h.plain s hs).1) fun hhead => ?_
  exact (h.plain _ (List.mem_of_mem_head? hhead)).2 rfl

/-! ## Names -/

theorem plainDestination_eq (dest : String) : plainDestination dest =
    if plainSegments dest.toList = [] then "."
    else String.ofList (joined (plainSegments dest.toList)) := by
  unfold plainDestination
  cases plainSegments dest.toList <;> rfl

/-- A name that is its own plain form, and not that of the root. -/
structure CleanName (name : String) : Prop where
  plain : plainDestination name = name
  notRoot : name ≠ "."

theorem Tidy.cleanName {segs : List Segment} (h : Tidy segs) (hne : segs ≠ []) :
    CleanName (String.ofList (joined segs)) := by
  constructor
  · rw [plainDestination_eq, String.toList_ofList, h.plainSegments_joined, if_neg hne]
  · intro hdot
    have hsegs : segs = [dot] :=
      joined_injOn (fun s hs => (h.plain s hs).1) (List.forall_mem_singleton.2 plain_dot)
        (String.ofList_injective hdot)
    exact (h.plain dot (by simp [hsegs])).2 rfl

/-- **Clean names are those written from segments in plain form**, at least one. -/
theorem cleanName_iff {name : String} :
    CleanName name ↔ ∃ segs, segs ≠ [] ∧ Tidy segs ∧ name = String.ofList (joined segs) := by
  constructor
  · intro h
    have hplain := h.plain
    rw [plainDestination_eq] at hplain
    split at hplain
    · exact absurd hplain.symm h.notRoot
    · next hne => exact ⟨_, hne, tidy_plainSegments _, hplain.symm⟩
  · rintro ⟨segs, hne, htidy, rfl⟩
    exact htidy.cleanName hne

/-- Clean names of one place are the same. -/
theorem CleanName.eq_of_plainSegments {name name' : String} (h : CleanName name)
    (h' : CleanName name') (heq : plainSegments name.toList = plainSegments name'.toList) :
    name = name' := by
  rw [← h.plain, ← h'.plain, plainDestination_eq, plainDestination_eq, heq]

/-- Between its slashes a clean name has its segments. -/
theorem CleanName.tidy_splitOn {name : String} (h : CleanName name) :
    Tidy (name.toList.splitOn '/') := by
  obtain ⟨segs, hne, htidy, rfl⟩ := cleanName_iff.1 h
  rw [String.toList_ofList, joined,
    List.splitOn_intercalate '/' (fun s hs => (htidy.plain s hs).1.2) hne]
  exact htidy

/-- The plain form of a destination is its own plain form. -/
theorem plainDestination_plainDestination (dest : String) :
    plainDestination (plainDestination dest) = plainDestination dest := by
  rw [plainDestination_eq dest]
  split
  · decide
  · next hne => exact ((tidy_plainSegments _).cleanName hne).plain

/-! ## Places -/

/-- **A plain destination is a place in plain form.** -/
theorem tidy_entry (dest : String) :
    Tidy (Placement.entry none (plainDestination dest)).segments := by
  have hroot : segments ".".toList = [] := by decide
  rw [Placement.entry, Placement.rootSegments, List.nil_append, plainDestination_eq]
  split
  · rw [hroot]
    exact tidy_nil
  · rw [String.toList_ofList, (tidy_plainSegments _).segments_joined]
    exact tidy_plainSegments _

theorem tidy_startSegments (dest : String) : Tidy (startSegments (plainDestination dest)) := by
  by_cases hdot : plainDestination dest = "."
  · rw [hdot, startSegments_dot]
    exact tidy_nil
  · have hclean : CleanName (plainDestination dest) := ⟨plainDestination_plainDestination dest, hdot⟩
    obtain ⟨segs, -, htidy, hname⟩ := cleanName_iff.1 hclean
    rw [startSegments, treeStart, if_neg hdot, hname, String.toList_ofList,
      slashed_joined fun s hs => (htidy.plain s hs).1]
    exact htidy

/-- **So is the place of an item below one.** -/
theorem tidy_itemPlace (dest : String) {way : List String}
    (hway : ∀ name ∈ way, CanName name ∧ name ≠ "..") :
    Tidy (itemPlace none (plainDestination dest) way).segments := by
  rw [itemPlace, Placement.rootSegments, List.nil_append]
  refine (tidy_startSegments dest).append ?_ ?_
  · intro s hs
    obtain ⟨name, hname, rfl⟩ := List.mem_map.1 hs
    exact ⟨(hway name hname).1.plain, fun he => (hway name hname).1.notDot (String.toList_injective he)⟩
  · intro s hs he
    obtain ⟨name, hname, rfl⟩ := List.mem_map.1 hs
    exact (hway name hname).2 (String.toList_injective he)

end Tarball
