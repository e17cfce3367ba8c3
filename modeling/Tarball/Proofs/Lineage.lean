/-
  The way down to an item of a tree.

  What is in a directory of a tree is asked for under the name of that directory
  and one more.  The directories on the way to it are then those on the way to the
  directory and the directory itself.  Two destinations that are the root with a
  dot are the exception: below them the dot is a segment.

  * `pathIn` is what an item of a tree is asked for by;
  * `segments_appendSegment`: one more name is one more segment;
  * `Placement.lineage` are the directories on the way to what is directly below a
    place;
  * `Placement.ancestors_child`: they are those on the way to an item of a
    directory.
-/
import Tarball.Proofs.Canonical
import Tarball.Proofs.ItemNames

namespace Tarball

/-! ## Names further down -/

/-- The name that an item of a tree is asked for by, before it is read as a path. -/
def pathIn (dest : String) (way : List String) : String :=
  way.foldl appendSegment (treeStart dest)

@[simp] theorem pathIn_nil (dest : String) : pathIn dest [] = treeStart dest := rfl

theorem pathIn_concat (dest : String) (way : List String) (name : String) :
    pathIn dest (way ++ [name]) = appendSegment (pathIn dest way) name := by
  rw [pathIn, List.foldl_concat, pathIn]

/-- A name with one more segment is that segment, or ends in a slash and it.  What
    stands before it is the name, but for a slash at its end. -/
theorem toList_appendSegment (path name : String) :
    (path = "" ∧ (appendSegment path name).toList = name.toList) ∨
      ∃ before, (appendSegment path name).toList = before ++ '/' :: name.toList ∧
        (path.toList = before ∨ path.toList = before ++ ['/']) := by
  unfold appendSegment
  split
  · next h =>
    by_cases hempty : path = ""
    · exact .inl ⟨hempty, by simp [hempty]⟩
    · obtain ⟨before, hbefore⟩ := List.getLast?_eq_some_iff.1 (h.resolve_left hempty)
      exact .inr ⟨before, by simp [hbefore], .inr hbefore⟩
  · exact .inr ⟨path.toList, by simp, .inl rfl⟩

theorem slashed_of_plain {s : Segment} (h : s.Plain) : slashed s = [s] := by
  have hone : ∀ t ∈ [s], t ≠ [] ∧ '/' ∉ t := by
    intro t ht
    rw [List.mem_singleton.1 ht]
    exact h
  have hcut := slashed_joined hone
  rwa [show joined [s] = s by simp [joined]] at hcut

theorem not_dotSlash_of_plain {s : Segment} (h : s.Plain) : ¬ ['.', '/'] <+: s := by
  rintro ⟨rest, rfl⟩
  exact h.2 (by simp)

/-- What is left of a path with one more segment, behind a leading `./`. -/
theorem slashed_dropDotSlash_appendSegment (path : String) {name : String} (hname : CanName name) :
    slashed (dropDotSlash (appendSegment path name).toList) =
      (if path = "." then [] else slashed (dropDotSlash path.toList)) ++ [name.toList] := by
  have hlast := slashed_of_plain hname.plain
  rcases toList_appendSegment path name with ⟨rfl, happend⟩ | ⟨before, happend, hpath⟩
  · rw [happend, dropDotSlash_of_not_dotSlash (not_dotSlash_of_plain hname.plain), hlast]
    rfl
  · rw [happend, slashed_dropDotSlash, hlast]
    rcases hpath with hpath | hpath
    · have hdot : before = ['.'] ↔ path = "." := by
        rw [← hpath, ← String.toList_inj]
        rfl
      simp only [hdot, hpath]
      split <;> rfl
    · have hdot : path ≠ "." := by
        rintro rfl
        have hlast := congrArg List.getLast? hpath
        simp at hlast
      rw [hpath, slashed_dropDotSlash, slashed_nil, if_neg hdot]
      split <;> simp

/-- With one more name than a dot no path is taken for the root. -/
theorem appendSegment_notMem_dotPaths (path : String) {name : String} (hname : CanName name) :
    (appendSegment path name).toList ∉ dotPaths := by
  intro hmem
  have hlast : name.toList ∈ slashed (dropDotSlash (appendSegment path name).toList) := by
    rw [slashed_dropDotSlash_appendSegment path hname]
    simp
  have hdots : ∀ text ∈ dotPaths, ∀ s ∈ slashed (dropDotSlash text), s = ['.'] := by decide
  exact hname.notDot (String.toList_injective (hdots _ hmem _ hlast))

/-- **One more name is one more segment.**  Where a path is the root with a dot, the
    dot is a segment then, too. -/
theorem segments_appendSegment (path : String) {name : String} (hname : CanName name) :
    segments (appendSegment path name).toList =
      (if path ∈ hiddenRoots then [['.']] else segments path.toList) ++ [name.toList] := by
  rw [segments_eq, if_neg (appendSegment_notMem_dotPaths path hname),
    slashed_dropDotSlash_appendSegment path hname]
  congr 1
  by_cases hhidden : path ∈ hiddenRoots
  · rw [if_pos hhidden]
    revert path
    decide
  · rw [if_neg hhidden, segments_eq]
    by_cases hdot : path = "."
    · rw [hdot]
      rfl
    · have hread : path.toList ∉ dotPaths := by
        intro hmem
        have hall : ∀ text ∈ dotPaths, String.ofList text = "." ∨ String.ofList text ∈ hiddenRoots := by
          decide
        have htext := hall _ hmem
        rw [String.ofList_toList] at htext
        exact htext.elim hdot hhidden
      rw [if_neg hdot, if_neg hread]

/-- Whether it begins with `./` is told by the path. -/
theorem dotSlash_appendSegment_iff {path name : String} (hname : CanName name) (hdot : path ≠ ".") :
    ['.', '/'] <+: (appendSegment path name).toList ↔ ['.', '/'] <+: path.toList := by
  rcases toList_appendSegment path name with ⟨rfl, happend⟩ | ⟨before, happend, hpath⟩
  · rw [happend]
    exact iff_of_false (not_dotSlash_of_plain hname.plain) (by simp)
  · rw [happend]
    rcases hpath with hpath | hpath
    · rw [hpath, dotSlash_append_slash_iff]
      rintro rfl
      exact hdot (String.toList_injective hpath)
    · rw [hpath]
      by_cases hbefore : before = ['.']
      · simp [hbefore]
      · rw [dotSlash_append_slash_iff hbefore, dotSlash_append_slash_iff hbefore]

/-! ## Directories on the way -/

namespace Placement

/-- The place one segment further down. -/
def child (p : Placement) (s : Segment) : Placement := { p with segments := p.segments ++ [s] }

/-- The directories on the way to what is directly below a place: those on the way to
    the place and the place itself, unless it is the root. -/
def lineage (p : Placement) : List String :=
  if p.name = "" then [] else p.ancestors ++ [p.name]

/-- One segment further down the place itself is on the way, unless it is the root or
    spells it once more. -/
theorem ancestors_child_eq (p : Placement) (s : Segment) : (p.child s).ancestors = p.ancestors ++
    if p.segments = [] ∨ some p.segments.length = p.rootLength then [] else [p.name] := by
  have hupper : ∀ n ≤ p.segments.length, ((p.child s).upTo n).name = (p.upTo n).name := by
    intro n hn
    rw [name, name, upTo, upTo, child, List.take_append_of_le_length hn]
  have hlengths : (p.child s).ancestorLengths = p.ancestorLengths ++
      if p.segments = [] ∨ some p.segments.length = p.rootLength then []
      else [p.segments.length] := by
    unfold ancestorLengths child
    rw [List.length_append, List.length_singleton, List.range_succ, List.filter_append]
    congr 1
    by_cases hlast : p.segments = [] ∨ some p.segments.length = p.rootLength
    · rw [if_pos hlast]
      rcases hlast with hempty | hmark
      · simp [hempty]
      · simp [hmark]
    · rw [if_neg hlast]
      obtain ⟨hne, hmark⟩ := not_or.1 hlast
      simp [hne, hmark]
  have hsame : p.ancestorLengths.map (fun n => ((p.child s).upTo n).name) =
      p.ancestorLengths.map fun n => (p.upTo n).name :=
    List.map_congr_left fun n hn => hupper n (Nat.le_of_lt (mem_ancestorLengths.1 hn).1)
  rw [ancestors_eq, hlengths, List.map_append, hsame, ← ancestors_eq]
  congr 1
  split
  · rfl
  · rw [List.map_singleton, hupper _ (Nat.le_refl _), upTo_length]

/-- Without segments there is nothing on the way. -/
theorem ancestors_of_segments_eq_nil {p : Placement} (h : p.segments = []) : p.ancestors = [] := by
  rw [ancestors, ancestorLengths, h]
  rfl

theorem Plain.ancestors_child {p : Placement} (hp : p.Plain)
    (hmark : p.rootLength ≠ some p.segments.length) (s : Segment) :
    (p.child s).ancestors = p.lineage := by
  have hroot : p.name = "" ↔ p.segments = [] := by
    rw [name_eq_empty_iff hp, isRoot, List.isEmpty_iff]
  rw [ancestors_child_eq, lineage]
  by_cases hempty : p.segments = []
  · rw [if_pos (.inl hempty), if_pos (hroot.2 hempty), ancestors_of_segments_eq_nil hempty]
    rfl
  · rw [if_neg (not_or.2 ⟨hempty, hmark.symm⟩), if_neg (mt hroot.1 hempty)]

/-- The root directory, where the next segment spells it once more. -/
def beforeMark (root : Option String) : Placement :=
  { ofRoot root with rootLength := some ((rootSegments root).length + 1) }

theorem ancestors_beforeMark (root : Option String) :
    (beforeMark root).ancestors = (ofRoot root).ancestors := by
  rw [ancestors, ancestors]
  congr 1
  refine List.filter_congr fun n hn => ?_
  have hlt : n < (rootSegments root).length := List.mem_range.1 hn
  have hne : n ≠ (rootSegments root).length + 1 := by omega
  simp [beforeMark, ofRoot, hne]

/-- What is below the segment that spells the root once more is directly below the
    root directory. -/
theorem ancestors_child_marked (root : Option String) (s : Segment) :
    (((beforeMark root).child ['.']).child s).ancestors = (ofRoot root).lineage := by
  have hplain : (beforeMark root).Plain := plain_ofRoot root
  have hmark : (beforeMark root).rootLength ≠ some (beforeMark root).segments.length := by
    simp [beforeMark, ofRoot]
  have hlast : some ((beforeMark root).child ['.']).segments.length =
      ((beforeMark root).child ['.']).rootLength := by
    simp [child, beforeMark, ofRoot]
  rw [ancestors_child_eq, if_pos (.inr hlast), List.append_nil, hplain.ancestors_child hmark, lineage,
    ancestors_beforeMark]
  rfl

/-- Below a root directory that is spelled with two dots the second one is a
    directory. -/
theorem ancestors_child_dots (root : Option String) (s : Segment) :
    ((((beforeMark root).child ['.']).child ['.']).child s).ancestors = (ofRoot root).lineage ++
      [String.ofList (joined (rootSegments root ++ [['.'], ['.']]))] := by
  have hne : ¬ (((beforeMark root).child ['.']).child ['.']).segments = [] := by
    simp [child]
  have hmark : some (((beforeMark root).child ['.']).child ['.']).segments.length ≠
      (((beforeMark root).child ['.']).child ['.']).rootLength := by
    simp [child, beforeMark, ofRoot]
  rw [ancestors_child_eq, if_neg (not_or.2 ⟨hne, hmark⟩), ancestors_child_marked, name]
  simp [child, beforeMark, ofRoot]

/-! ## Items of a tree -/

theorem treeEntry_of_dotSlash {path : String} (hdot : ['.', '/'] <+: path.toList)
    (hne : Tarball.segments path.toList ≠ []) (root : Option String) :
    treeEntry root path = { segments := rootSegments root ++ ['.'] :: Tarball.segments path.toList,
                            rootLength := some ((rootSegments root).length + 1) } :=
  if_pos ⟨hdot, hne⟩

theorem treeEntry_of_segments_eq_nil {path : String} (h : Tarball.segments path.toList = [])
    (root : Option String) : treeEntry root path = ofRoot root := by
  rw [treeEntry, if_neg (by simp [h]), h, List.append_nil]
  rfl

/-- **The directories on the way to an item** of a directory are those on the way to
    the directory and the directory itself.  Below a root that is spelled with two
    dots the second one is on the way, too. -/
theorem ancestors_treeEntry_appendSegment (root : Option String) {path name : String}
    (hname : CanName name) (hdot : path ≠ ".") :
    (treeEntry root (appendSegment path name)).ancestors = (treeEntry root path).lineage ++
      if path ∈ hiddenRoots then [String.ofList (joined (rootSegments root ++ [['.'], ['.']]))]
      else [] := by
  have hread := segments_appendSegment path hname
  by_cases hstart : ['.', '/'] <+: path.toList
  · have happend := (dotSlash_appendSegment_iff hname hdot).2 hstart
    rw [treeEntry_of_dotSlash happend (by simp [hread]), hread]
    by_cases hhidden : path ∈ hiddenRoots
    · have hnone : Tarball.segments path.toList = [] := by
        have hall : ∀ path ∈ hiddenRoots, Tarball.segments path.toList = [] := by decide
        exact hall path hhidden
      rw [if_pos hhidden, if_pos hhidden, treeEntry_of_segments_eq_nil hnone,
        ← ancestors_child_dots root name.toList]
      congr 1
      simp [child, beforeMark, ofRoot]
    rw [if_neg hhidden, if_neg hhidden, List.append_nil]
    by_cases hnone : Tarball.segments path.toList = []
    · rw [treeEntry_of_segments_eq_nil hnone, ← ancestors_child_marked root name.toList, hnone]
      congr 1
      simp [child, beforeMark, ofRoot]
    · have hplain := plain_treeEntry root path
      rw [treeEntry_of_dotSlash hstart hnone] at hplain ⊢
      rw [← hplain.ancestors_child (by simpa using hnone) name.toList]
      congr 1
      simp [child]
  · have hhidden : path ∉ hiddenRoots := by
      intro hmem
      have hall : ∀ path ∈ hiddenRoots, ['.', '/'] <+: path.toList := by decide
      exact hstart (hall path hmem)
    have hplain := plain_treeEntry root path
    rw [if_neg hhidden] at hread ⊢
    rw [treeEntry_of_not_dotSlash (mt (dotSlash_appendSegment_iff hname hdot).1 hstart), entry, hread]
    rw [treeEntry_of_not_dotSlash hstart] at hplain ⊢
    rw [← hplain.ancestors_child (by simp [entry]) name.toList, List.append_nil]
    congr 1
    simp [child, entry]

/-- What is in a tree is not placed at the root. -/
theorem isRoot_treeEntry_appendSegment (root : Option String) (path : String) {name : String}
    (hname : CanName name) : (treeEntry root (appendSegment path name)).isRoot = false := by
  have hne : Tarball.segments (appendSegment path name).toList ≠ [] := by
    simp [segments_appendSegment path hname]
  unfold treeEntry isRoot
  dsimp only
  split <;> simp [hne]

end Placement

section
variable {dest : String} {way : List String}

theorem pathIn_ne_dot (hway : ∀ name ∈ way, CanName name) : pathIn dest way ≠ "." := by
  rcases List.eq_nil_or_concat way with rfl | ⟨way, name, rfl⟩
  · rw [pathIn_nil, treeStart]
    split
    · decide
    · assumption
  · have hname : CanName name := hway name (by simp)
    rw [List.concat_eq_append, pathIn_concat]
    rintro hdot
    refine appendSegment_notMem_dotPaths (pathIn dest way) hname ?_
    rw [hdot]
    decide

/-- An item in a tree has a name. -/
theorem isRoot_pathIn (root : Option String) (dest : String) (hway : ∀ name ∈ way, CanName name)
    (hne : way ≠ []) : (Placement.treeEntry root (pathIn dest way)).isRoot = false := by
  obtain ⟨way, name, rfl⟩ := (List.eq_nil_or_concat way).resolve_left hne
  rw [List.concat_eq_append, pathIn_concat]
  exact Placement.isRoot_treeEntry_appendSegment root _ (hway name (by simp))

/-- No item but a tree's own directory is asked for by a path that is the root with
    a dot. -/
theorem pathIn_mem_hiddenRoots_iff (hway : ∀ name ∈ way, CanName name) :
    pathIn dest way ∈ hiddenRoots ↔ way = [] ∧ dest ∈ hiddenRoots := by
  rcases List.eq_nil_or_concat way with rfl | ⟨way, name, rfl⟩
  · rw [pathIn_nil, treeStart]
    split
    · next hdot => simp [hdot, hiddenRoots]
    · simp
  · have hname : CanName name := hway name (by simp)
    have hnot := appendSegment_notMem_dotPaths (pathIn dest way) hname
    rw [List.concat_eq_append, pathIn_concat]
    refine iff_of_false (fun hmem => hnot ?_) (by simp)
    have hall : ∀ path ∈ hiddenRoots, path.toList ∈ dotPaths := by decide
    exact hall _ hmem

namespace Placement

/-- The same by the names on the way. -/
theorem ancestors_pathIn_concat (root : Option String) (dest : String) {name : String}
    (hway : ∀ other ∈ way, CanName other) (hname : CanName name) :
    (treeEntry root (pathIn dest (way ++ [name]))).ancestors =
      (treeEntry root (pathIn dest way)).lineage ++
        if way = [] ∧ dest ∈ hiddenRoots then
          [String.ofList (joined (rootSegments root ++ [['.'], ['.']]))]
        else [] := by
  rw [pathIn_concat, ancestors_treeEntry_appendSegment root hname (pathIn_ne_dot hway)]
  simp only [pathIn_mem_hiddenRoots_iff hway]

/-- On the way to an item is what is on the way to the tree, and the directories of
    the tree that the item is in. -/
theorem mem_ancestors_pathIn (root : Option String) (hdest : dest ∉ hiddenRoots)
    (hway : ∀ name ∈ way, CanName name) {a : String}
    (ha : a ∈ (treeEntry root (pathIn dest way)).ancestors) :
    a ∈ (treeEntry root (treeStart dest)).ancestors ∨
      ∃ upper, upper <+: way ∧ upper ≠ way ∧ a = (treeEntry root (pathIn dest upper)).name := by
  induction way using List.reverseRecOn with
  | nil => exact .inl ha
  | append_singleton way name ih =>
    have hupper : ∀ other ∈ way, CanName other := fun other h => hway other (List.mem_append_left _ h)
    rw [ancestors_pathIn_concat root dest hupper (hway name (by simp)),
      if_neg fun h => hdest h.2, List.append_nil, lineage] at ha
    have hshort : ∀ upper, upper <+: way → upper <+: way ++ [name] ∧ upper ≠ way ++ [name] := by
      intro upper hu
      refine ⟨hu.trans (List.prefix_append way [name]), ?_⟩
      rintro rfl
      have hlength := hu.length_le
      rw [List.length_append, List.length_singleton] at hlength
      omega
    split at ha
    · cases ha
    · rcases List.mem_append.1 ha with ha | ha
      · refine (ih hupper ha).imp_right ?_
        rintro ⟨upper, hu, -, rfl⟩
        exact ⟨upper, (hshort upper hu).1, (hshort upper hu).2, rfl⟩
      · obtain ⟨hu, hne⟩ := hshort way List.prefix_rfl
        exact .inr ⟨way, hu, hne, List.mem_singleton.1 ha⟩

end Placement

end

end Tarball
