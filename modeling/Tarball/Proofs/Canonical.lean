/-
  The canonical name of an entry.

  What an entry is called depends on the segments of its path alone.  A name that
  has been made of segments tells them, and is read as itself again, unless it
  begins with a dot.  A slash that is written twice adds no segment.  It can hide
  that a path is just the root with a dot, though, since that is looked at before
  empty segments are left out.

  * `Placement.Canonical` says what a place named after segments looks like;
  * `Placement.canonical_entry`: that of a single entry looks so;
  * `segments_eq` tells the paths that are the root in spite of a dot;
  * `segments_doubledSlash`: with a slash doubled a path is cut into the same
    segments, but is never taken for the root;
  * `Placement.entry_doubledSlash_iff`: so the entry stays the same, but for two
    paths.
-/
import Mathlib.Data.List.Infix
import Tarball.Proofs.RootDirectory

namespace Tarball

/-! ## Names made of segments -/

/-- Joined segments do not begin with a slash. -/
theorem head?_joined_ne_slash {segs : List Segment} (h : ∀ s ∈ segs, s.Plain) :
    (joined segs).head? ≠ some '/' := by
  rcases segs with _ | ⟨s, rest⟩
  · simp [joined]
  obtain ⟨hne, hslash⟩ := h s List.mem_cons_self
  obtain ⟨c, s, rfl⟩ := List.exists_cons_of_ne_nil hne
  have hfirst : c ≠ '/' := by
    rintro rfl
    exact hslash List.mem_cons_self
  cases rest with
  | nil => simpa [joined] using hfirst
  | cons t rest => simpa [joined_cons_cons] using hfirst

/-- Nor do they end in one. -/
theorem getLast?_joined_ne_slash {segs : List Segment} (h : ∀ s ∈ segs, s.Plain) :
    (joined segs).getLast? ≠ some '/' := by
  intro hlast
  have hdrop := dropLastSlash_joined h
  rw [dropLastSlash, if_pos hlast] at hdrop
  have hlength := congrArg List.length hdrop
  rw [List.length_dropLast] at hlength
  have hnil : joined segs = [] := List.eq_nil_of_length_eq_zero (by omega)
  simp [hnil] at hlast

/-- There is a segment between any two slashes. -/
theorem not_doubledSlash_joined {segs : List Segment} (h : ∀ s ∈ segs, s.Plain) :
    ¬ ['/', '/'] <:+: joined segs := by
  rintro ⟨q, r, hqr⟩
  -- what stands before the second slash ends in the first, and is joined segments
  have hcut : (q ++ ['/']) ++ '/' :: r = joined segs := by simpa using hqr
  obtain ⟨n, -, -, hn⟩ := eq_joined_take (fun s hs => (h s hs).2) hcut
  have hpart : ∀ s ∈ segs.take n, s.Plain := fun s hs => h s (List.mem_of_mem_take hs)
  refine getLast?_joined_ne_slash hpart ?_
  rw [← hn]
  simp

/-- Cutting joined segments at every slash leaves no part out. -/
theorem splitOn_joined {segs : List Segment} (h : ∀ s ∈ segs, s.Plain) (hne : segs ≠ []) :
    (joined segs).splitOn '/' = segs :=
  List.splitOn_intercalate '/' (fun s hs => (h s hs).2) hne

/-- A name is read as itself again just if it does not begin with a dot. -/
theorem segments_joined_iff {segs : List Segment} (h : ∀ s ∈ segs, s.Plain) :
    segments (joined segs) = segs ↔ segs.head? ≠ some ['.'] := by
  refine ⟨fun hsame => ?_, segments_joined h⟩
  rcases segs with _ | ⟨s, rest⟩
  · simp
  refine (Placement.name_ofRoot_joined_iff (List.cons_ne_nil s rest) h).1 ?_
  simp only [Placement.name, Placement.ofRoot, Placement.rootSegments, String.toList_ofList, hsame]

namespace Placement

/-- The names that the strict and non-empty beginnings of segments spell, the
    shortest first. -/
def strictPrefixes (segs : List Segment) : List String :=
  segs.inits.tail.dropLast.map fun upper => String.ofList (joined upper)

/-- A place named after segments, with all the strict beginnings above it. -/
structure Canonical (segs : List Segment) (p : Placement) : Prop where
  name : p.name = String.ofList (joined segs)
  begins : p.name.toList.head? ≠ some '/'
  ends : p.name.toList.getLast? ≠ some '/'
  noGap : ¬ ['/', '/'] <:+: p.name.toList
  /-- The empty name has no segments; any other is cut at every slash. -/
  split : segs = if p.name = "" then [] else p.name.toList.splitOn '/'
  ancestors : p.ancestors = strictPrefixes segs
  nodup : p.ancestors.Nodup
  notSelf : p.name ∉ p.ancestors
  notEmpty : "" ∉ p.ancestors
  root : p.isRoot ↔ p.name = ""
  again : (entry none p.name).name = p.name ∧ (entry none p.name).ancestors = p.ancestors ↔
    segs.head? ≠ some ['.']

/-- The beginnings of segments are as many as their lengths. -/
theorem inits_eq_map_range (segs : List Segment) :
    segs.inits = (List.range (segs.length + 1)).map fun n => segs.take n := by
  refine List.ext_getElem (by simp) fun n hn hn' => ?_
  rw [List.getElem_inits, List.getElem_map, List.getElem_range]

/-- Where nothing spells the root once more, the directories on the way are all the
    strict beginnings. -/
theorem ancestors_eq_strictPrefixes {p : Placement} (hroot : p.rootLength = none) :
    p.ancestors = strictPrefixes p.segments := by
  have hkept : p.ancestorLengths = (List.range p.segments.length).tail := by
    unfold ancestorLengths
    cases p.segments.length with
    | zero => rfl
    | succ k =>
      rw [List.range_succ_eq_map, List.tail_cons, List.filter_cons_of_neg (by simp)]
      exact List.filter_eq_self.2 fun n hn => by
        obtain ⟨m, -, rfl⟩ := List.mem_map.1 hn
        simp [hroot]
  have hlengths : (List.range (p.segments.length + 1)).tail.dropLast =
      (List.range p.segments.length).tail := by
    rw [← List.tail_dropLast, List.range_succ, List.dropLast_concat]
  rw [ancestors, hkept, strictPrefixes, inits_eq_map_range, ← List.map_tail, ← List.map_dropLast,
    hlengths, List.map_map]
  rfl

/-- The name of a place leads back to it just if it does not begin with a dot. -/
theorem Plain.entry_name_iff {p : Placement} (hp : p.Plain) (hroot : p.rootLength = none) :
    (entry none p.name).name = p.name ∧ (entry none p.name).ancestors = p.ancestors ↔
      p.segments.head? ≠ some ['.'] := by
  have hread : (entry none p.name).segments = Tarball.segments (joined p.segments) := by
    simp [entry, rootSegments, Placement.name]
  rw [← segments_joined_iff hp, ← hread]
  constructor
  · rintro ⟨hname, -⟩
    exact joined_injOn (plain_entry none p.name) hp (String.ofList_injective hname)
  · intro hsegs
    refine ⟨?_, ?_⟩
    · rw [Placement.name, hsegs]
      rfl
    · rw [ancestors_eq_strictPrefixes hroot, ancestors_eq_strictPrefixes rfl, hsegs]

/-- A place is named after its segments, as long as nothing spells the root once
    more. -/
theorem Plain.canonical {p : Placement} (hp : p.Plain) (hroot : p.rootLength = none) :
    p.Canonical p.segments where
  name := rfl
  begins := by
    rw [Placement.name, String.toList_ofList]
    exact head?_joined_ne_slash hp
  ends := by
    rw [Placement.name, String.toList_ofList]
    exact getLast?_joined_ne_slash hp
  noGap := by
    rw [Placement.name, String.toList_ofList]
    exact not_doubledSlash_joined hp
  split := by
    split
    · next hempty => exact List.isEmpty_iff.1 ((name_eq_empty_iff hp).1 hempty)
    · next hne =>
      rw [Placement.name, String.toList_ofList, splitOn_joined hp]
      rintro hnil
      exact hne ((name_eq_empty_iff hp).2 (List.isEmpty_iff.2 hnil))
  ancestors := ancestors_eq_strictPrefixes hroot
  nodup := hp.nodup_ancestors
  notSelf := hp.name_notMem_ancestors
  notEmpty := by
    intro hmem
    obtain ⟨n, hn, hname⟩ := List.mem_map.1 (p.ancestors_eq ▸ hmem)
    obtain ⟨hlt, hpos, -⟩ := mem_ancestorLengths.1 hn
    have hnone := List.isEmpty_iff_length_eq_zero.1 ((name_eq_empty_iff (hp.upTo n)).1 hname)
    rw [Placement.upTo, List.length_take] at hnone
    omega
  root := (name_eq_empty_iff hp).symm
  again := hp.entry_name_iff hroot

/-- **The place of an entry has the canonical form** that its root's segments and
    its own give it, and it is the root only without any. -/
theorem canonical_entry (root : Option String) (path : String) :
    (entry root path).Canonical (rootSegments root ++ Tarball.segments path.toList) ∧
      ((entry root path).isRoot ↔ rootSegments root = [] ∧ Tarball.segments path.toList = []) := by
  refine ⟨(plain_entry root path).canonical rfl, ?_⟩
  rw [isRoot, List.isEmpty_iff, entry, List.append_eq_nil_iff]

end Placement

/-! ## Doubled slashes -/

theorem slashed_dropLastSlash (path : List Char) : slashed (dropLastSlash path) = slashed path := by
  unfold dropLastSlash
  split
  · next hlast =>
    obtain ⟨q, rfl⟩ := List.getLast?_eq_some_iff.1 hlast
    rw [List.dropLast_concat, slashed_append, slashed_nil, List.append_nil]
  · rfl

theorem dropLastSlash_eq_dot_iff {path : List Char} :
    dropLastSlash path = ['.'] ↔ path = ['.'] ∨ path = ['.', '/'] := by
  constructor
  · intro h
    unfold dropLastSlash at h
    split at h
    · next hlast =>
      obtain ⟨q, rfl⟩ := List.getLast?_eq_some_iff.1 hlast
      rw [List.dropLast_concat] at h
      exact .inr (by rw [h]; rfl)
    · exact .inl h
  · rintro (rfl | rfl) <;> rfl

/-- The paths that are the root in spite of a dot they are left with. -/
def dotPaths : List (List Char) := [['.'], ['.', '/', '.'], ['.', '/', '.', '/']]

theorem mem_dotPaths_iff {path : List Char} :
    path ∈ dotPaths ↔ dropLastSlash (dropDotSlash path) = ['.'] := by
  rw [dropLastSlash_eq_dot_iff]
  unfold dropDotSlash
  split
  · next rest => simp [dotPaths]
  · next hstart =>
    have hnot : path ≠ ['.', '/'] ∧ path ≠ ['.', '/', '.'] ∧ path ≠ ['.', '/', '.', '/'] :=
      ⟨hstart [], hstart ['.'], hstart ['.', '/']⟩
    simp [dotPaths, hnot]

/-- A path is cut into all its segments behind a leading `./`, unless only a dot is
    left there. -/
theorem segments_eq (path : List Char) :
    segments path = if path ∈ dotPaths then [] else slashed (dropDotSlash path) := by
  simp only [segments, mem_dotPaths_iff, slashed_dropLastSlash]

theorem dropDotSlash_of_not_dotSlash {path : List Char} (h : ¬ ['.', '/'] <+: path) :
    dropDotSlash path = path := by
  unfold dropDotSlash
  split
  · next rest => exact absurd ⟨rest, rfl⟩ h
  · rfl

/-- Whether a path begins with `./` is told by what stands before a later slash. -/
theorem dotSlash_append_slash_iff {before after : List Char} (h : before ≠ ['.']) :
    ['.', '/'] <+: before ++ '/' :: after ↔ ['.', '/'] <+: before := by
  match before with
  | [] => simp
  | [c] =>
    have hc : '.' ≠ c := by
      rintro rfl
      exact h rfl
    simp [hc]
  | c :: d :: rest => simp

theorem slashed_dropDotSlash (before after : List Char) :
    slashed (dropDotSlash (before ++ '/' :: after)) =
      if before = ['.'] then slashed after
      else slashed (dropDotSlash before) ++ slashed after := by
  split
  · next h =>
    rw [h]
    rfl
  · next h =>
    by_cases hstart : ['.', '/'] <+: before
    · obtain ⟨rest, rfl⟩ := hstart
      exact slashed_append rest after
    · rw [dropDotSlash_of_not_dotSlash hstart,
        dropDotSlash_of_not_dotSlash (mt (dotSlash_append_slash_iff h).1 hstart), slashed_append]

/-- With a slash doubled a path is cut into the same segments, dots that are left
    alone among them. -/
theorem segments_doubledSlash (before after : List Char) :
    segments (before ++ '/' :: '/' :: after) = slashed (dropDotSlash (before ++ '/' :: after)) := by
  have hdots : before ++ '/' :: '/' :: after ∉ dotPaths := by
    intro hmem
    have hgap : ['/', '/'] <:+: before ++ '/' :: '/' :: after := ⟨before, after, by simp⟩
    have hnone : ∀ path ∈ dotPaths, ¬ ['/', '/'] <:+: path := by decide
    exact hnone _ hmem hgap
  rw [segments_eq, if_neg hdots, slashed_dropDotSlash, slashed_dropDotSlash, slashed_cons_slash]

/-- Where no segment is left without the slash doubled, the dot is one. -/
theorem slashed_dotPath {before after : List Char} (h : before ++ '/' :: after ∈ dotPaths) :
    slashed (dropDotSlash (before ++ '/' :: after)) = [['.']] := by
  have hslash : '/' ∈ before ++ '/' :: after := by simp
  have hall : ∀ path ∈ dotPaths, '/' ∈ path → slashed (dropDotSlash path) = [['.']] := by decide
  exact hall _ h hslash

/-- The paths with a slash that are the root in spite of a dot. -/
def hiddenRoots : List String := ["./.", "././"]

theorem mem_hiddenRoots_iff {before after : String} :
    before ++ "/" ++ after ∈ hiddenRoots ↔ before.toList ++ '/' :: after.toList ∈ dotPaths := by
  have htext : (before ++ "/" ++ after).toList = before.toList ++ '/' :: after.toList := by simp
  have hslash : '/' ∈ before.toList ++ '/' :: after.toList := by simp
  rw [← htext] at hslash ⊢
  generalize before ++ "/" ++ after = path at hslash
  constructor
  · intro hmem
    have hall : ∀ path ∈ hiddenRoots, path.toList ∈ dotPaths := by decide
    exact hall path hmem
  · intro hmem
    have hall : ∀ text ∈ dotPaths, '/' ∈ text → String.ofList text ∈ hiddenRoots := by decide
    have hread := hall _ hmem hslash
    rwa [String.ofList_toList] at hread

namespace Placement

/-- **A doubled slash changes no entry**, but for two paths that are the root with a
    dot: with a slash doubled, that dot is a segment. -/
theorem entry_doubledSlash_iff (root : Option String) (before after : String) :
    ((entry root (before ++ "//" ++ after)).name = (entry root (before ++ "/" ++ after)).name ∧
        (entry root (before ++ "//" ++ after)).ancestors =
          (entry root (before ++ "/" ++ after)).ancestors ↔
      before ++ "/" ++ after ∉ hiddenRoots) ∧
    (before ++ "/" ++ after ∈ hiddenRoots →
      (entry root (before ++ "/" ++ after)).segments = rootSegments root ∧
        (entry root (before ++ "//" ++ after)).segments = rootSegments root ++ [['.']]) := by
  have honce : (entry root (before ++ "/" ++ after)).segments =
      rootSegments root ++ Tarball.segments (before.toList ++ '/' :: after.toList) := by
    simp [entry]
  have htwice : (entry root (before ++ "//" ++ after)).segments =
      rootSegments root ++ slashed (dropDotSlash (before.toList ++ '/' :: after.toList)) := by
    rw [← segments_doubledSlash]
    simp [entry]
  rw [segments_eq] at honce
  rw [mem_hiddenRoots_iff]
  have hhidden : before.toList ++ '/' :: after.toList ∈ dotPaths →
      (entry root (before ++ "/" ++ after)).segments = rootSegments root ∧
        (entry root (before ++ "//" ++ after)).segments = rootSegments root ++ [['.']] := by
    intro hmem
    rw [if_pos hmem, List.append_nil] at honce
    rw [slashed_dotPath hmem] at htwice
    exact ⟨honce, htwice⟩
  refine ⟨⟨?_, ?_⟩, hhidden⟩
  · rintro ⟨hname, -⟩ hmem
    obtain ⟨hshort, hlong⟩ := hhidden hmem
    have hsame := joined_injOn (plain_entry root _) (plain_entry root _) (String.ofList_injective hname)
    have hlength := congrArg List.length hsame
    rw [hshort, hlong, List.length_append] at hlength
    simp at hlength
  · intro hmem
    rw [if_neg hmem, ← htwice] at honce
    refine ⟨?_, ?_⟩
    · rw [name, name, honce]
    · rw [ancestors_eq_strictPrefixes rfl, ancestors_eq_strictPrefixes rfl, honce]

/-- The path `././` is the root, but `././/` is an entry of its own. -/
theorem hiddenRoot_doubledSlash :
    "./." ++ "/" ++ "" = "././" ∧ (entry none ("./." ++ "/" ++ "")).name = "" ∧
      "./." ++ "//" ++ "" = "././/" ∧ (entry none ("./." ++ "//" ++ "")).name = "." ∧
      ¬ ((entry none ("./." ++ "//" ++ "")).name = (entry none ("./." ++ "/" ++ "")).name ∧
        (entry none ("./." ++ "//" ++ "")).ancestors =
          (entry none ("./." ++ "/" ++ "")).ancestors) := by
  decide

end Placement

end Tarball
