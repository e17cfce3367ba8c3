/-
  The directories on the way to a place.

  * `segments_joined`: a name is read back as the segments it was written from,
    unless the first of them is a dot;
  * `Placement.upTo` is the place of a directory on the way;
  * `IsAbove` says of two names that one leads down to the other;
  * `Placement.mem_ancestors_of_isAbove`: a name that leads down to a place is
    that of a directory on the way, or it spells the root once more.
-/
import Tarball.Name.Placement

namespace Tarball

/-! ## Segments -/

/-- A segment as a text cut at its slashes has them. -/
def Segment.Plain (s : Segment) : Prop := s ≠ [] ∧ '/' ∉ s

/-- The parts of a list cut at an item do not hold it. -/
theorem notMem_of_mem_splitOn {α : Type} [DecidableEq α] {sep : α} {l s : List α}
    (h : s ∈ l.splitOn sep) : sep ∉ s := by
  induction l generalizing s with
  | nil =>
    rw [List.splitOn_nil, List.mem_singleton] at h
    rw [h]; exact List.not_mem_nil
  | cons c l ih =>
    rw [List.splitOn_cons_eq_if_modifyHead] at h
    split at h
    · rcases List.mem_cons.1 h with rfl | h
      · exact List.not_mem_nil
      · exact ih h
    · next hc =>
      obtain ⟨t, ts, ht⟩ := List.exists_cons_of_ne_nil (List.splitOn_ne_nil sep l)
      rw [ht, List.modifyHead_cons] at h
      rcases List.mem_cons.1 h with rfl | h
      · have hne : sep ≠ c := fun he => hc (beq_iff_eq.2 he.symm)
        have := ih (s := t) (by simp [ht])
        simp [hne, this]
      · exact ih (by simp [ht, h])

theorem plain_of_mem_slashed {path : List Char} {s : Segment} (h : s ∈ slashed path) : s.Plain := by
  obtain ⟨hs, hne⟩ := List.mem_filter.1 h
  exact ⟨by simpa using hne, notMem_of_mem_splitOn hs⟩

theorem plain_of_mem_segments {path : List Char} {s : Segment} (h : s ∈ segments path) :
    s.Plain := by
  unfold segments at h
  dsimp only at h
  split at h
  · cases h
  · exact plain_of_mem_slashed h

theorem joined_cons_cons (s t : Segment) (rest : List Segment) :
    joined (s :: t :: rest) = s ++ '/' :: joined (t :: rest) := by
  simp [joined]

/-- A text before a slash of joined segments is the first of them, joined. -/
theorem eq_joined_take {segs : List Segment} (hs : ∀ s ∈ segs, '/' ∉ s) {q r : List Char}
    (h : q ++ '/' :: r = joined segs) :
    ∃ n, 0 < n ∧ n < segs.length ∧ q = joined (segs.take n) := by
  induction segs generalizing q with
  | nil => simp [joined] at h
  | cons s rest ih =>
    have hslash : '/' ∉ s := hs s List.mem_cons_self
    cases rest with
    | nil =>
      have hmem : '/' ∈ joined [s] := by rw [← h]; simp
      exact absurd (by simpa [joined] using hmem) hslash
    | cons t rest =>
      rw [joined_cons_cons] at h
      have hfirst : q = s → ∃ n, 0 < n ∧ n < (s :: t :: rest).length ∧
          q = joined ((s :: t :: rest).take n) := by
        rintro rfl
        exact ⟨1, by omega, by simp, by simp [joined]⟩
      rcases List.append_eq_append_iff.1 h with ⟨mid, hq, hmid⟩ | ⟨mid, hq, hmid⟩
      · -- the segment reaches up to the slash, or holds it
        cases mid with
        | nil => exact hfirst (by simpa using hq.symm)
        | cons c mid =>
          obtain ⟨rfl, -⟩ := List.cons.inj hmid
          exact absurd (by rw [hq]; simp) hslash
      · cases mid with
        | nil => exact hfirst (by simpa using hq)
        | cons c mid =>
          obtain ⟨hc, htail⟩ := List.cons.inj hmid
          obtain ⟨n, hpos, hlt, hn⟩ := ih (fun s hm => hs s (List.mem_cons_of_mem _ hm)) htail.symm
          refine ⟨n + 1, by omega, by simpa using hlt, ?_⟩
          obtain ⟨k, rfl⟩ : ∃ k, n = k + 1 := ⟨n - 1, by omega⟩
          rw [hq, ← hc, hn]
          simp only [List.take_succ_cons, joined_cons_cons]

theorem joined_append_cons (segs : List Segment) (s : Segment) (rest : List Segment)
    (h : segs ≠ []) : joined (segs ++ s :: rest) = joined segs ++ '/' :: joined (s :: rest) := by
  induction segs with
  | nil => exact absurd rfl h
  | cons t segs ih =>
    cases segs with
    | nil => simp [joined]
    | cons u segs =>
      rw [List.cons_append, List.cons_append, joined_cons_cons, joined_cons_cons, List.append_assoc]
      rw [← List.cons_append, ih (by simp)]
      rfl

/-- Joined segments do not end in a slash. -/
theorem dropLastSlash_joined {segs : List Segment} (h : ∀ s ∈ segs, s.Plain) :
    dropLastSlash (joined segs) = joined segs := by
  refine if_neg fun hlast => ?_
  obtain ⟨q, hq⟩ := List.getLast?_eq_some_iff.1 hlast
  obtain ⟨n, -, hlt, hn⟩ := eq_joined_take (fun s hs => (h s hs).2) hq.symm
  have hcut : slashed (q ++ '/' :: []) = segs := by rw [← hq, slashed_joined h]
  rw [slashed_append, slashed_nil, List.append_nil, hn,
    slashed_joined fun s hs => h s (List.mem_of_mem_take hs)] at hcut
  have hlength := congrArg List.length hcut
  rw [List.length_take] at hlength
  omega

/-- A text that joined segments spell tells them. -/
theorem joined_injOn {segs segs' : List Segment} (h : ∀ s ∈ segs, s.Plain)
    (h' : ∀ s ∈ segs', s.Plain) (heq : joined segs = joined segs') : segs = segs' := by
  rw [← slashed_joined h, ← slashed_joined h', heq]

theorem plain_dot : Segment.Plain ['.'] := ⟨by decide, by decide⟩

/-- Joined segments start with `./` just if the first is a dot and not the last. -/
theorem dotSlash_eq_joined {segs : List Segment} (h : ∀ s ∈ segs, s.Plain) {rest : List Char}
    (heq : '.' :: '/' :: rest = joined segs) : segs.head? = some ['.'] := by
  have hcut : ['.'] ++ '/' :: rest = joined segs := heq
  obtain ⟨n, hpos, hlt, hn⟩ := eq_joined_take (fun s hs => (h s hs).2) hcut
  have htake : [['.']] = segs.take n := by
    refine joined_injOn ?_ (fun s hs => h s (List.mem_of_mem_take hs)) hn
    intro s hs
    rw [List.mem_singleton.1 hs]
    exact plain_dot
  have hhead := congrArg List.head? htake
  rw [List.head?_take, if_neg (by omega)] at hhead
  exact hhead.symm

/-- Behind a leading `./` a path is read as it is. -/
theorem segments_dotSlash_joined {segs : List Segment} (h : ∀ s ∈ segs, s.Plain)
    (hdot : segs ≠ [['.']]) : segments ('.' :: '/' :: joined segs) = segs := by
  have hne : joined segs ≠ ['.'] := by
    intro he
    refine hdot (joined_injOn h ?_ he)
    intro s hs
    rw [List.mem_singleton.1 hs]
    exact plain_dot
  show (if dropLastSlash (joined segs) = ['.'] then [] else slashed (dropLastSlash (joined segs))) = segs
  rw [dropLastSlash_joined h, if_neg hne, slashed_joined h]

/-- **Joined segments are read back**, unless the first of them is a dot. -/
theorem segments_joined {segs : List Segment} (h : ∀ s ∈ segs, s.Plain)
    (hfirst : segs.head? ≠ some ['.']) : segments (joined segs) = segs := by
  have hdrop : dropDotSlash (joined segs) = joined segs := by
    unfold dropDotSlash
    split
    · next heq => exact absurd (dotSlash_eq_joined h heq.symm) hfirst
    · rfl
  have hne : joined segs ≠ ['.'] := by
    intro he
    have hsegs : segs = [['.']] := joined_injOn h (by simpa using plain_dot) he
    exact hfirst (by rw [hsegs]; rfl)
  unfold segments
  dsimp only
  rw [hdrop, dropLastSlash_joined h, if_neg hne, slashed_joined h]

/-! ## Places -/

/-- Whether a name leads down to another one: what stands before one of its
    slashes. -/
def IsAbove (upper name : String) : Prop :=
  ∃ rest, name.toList = upper.toList ++ '/' :: rest

namespace Placement

/-- The place of a directory on the way down to a place. -/
def upTo (p : Placement) (n : Nat) : Placement := { p with segments := p.segments.take n }

/-- The name that spells the root once more, on the way to a place. -/
def rootMark (p : Placement) : Option String :=
  p.rootLength.map fun n => (p.upTo n).name

theorem mem_ancestorLengths {p : Placement} {n : Nat} :
    n ∈ p.ancestorLengths ↔ n < p.segments.length ∧ n ≠ 0 ∧ some n ≠ p.rootLength := by
  simp [ancestorLengths]

theorem ancestors_eq (p : Placement) :
    p.ancestors = p.ancestorLengths.map fun n => (p.upTo n).name := rfl

/-- The shorter the earlier. -/
theorem pairwise_ancestorLengths (p : Placement) : p.ancestorLengths.Pairwise (· < ·) :=
  List.pairwise_lt_range.filter _

theorem upTo_length (p : Placement) : p.upTo p.segments.length = p := by
  simp [upTo]

/-- The directories on the way to a directory on the way are those above it. -/
theorem mem_ancestors_upTo {p : Placement} {n : Nat} {a : String}
    (h : a ∈ (p.upTo n).ancestors) : ∃ k < n, k ∈ p.ancestorLengths ∧ a = (p.upTo k).name := by
  obtain ⟨k, hk, rfl⟩ := List.mem_map.1 h
  obtain ⟨hlt, hne, hroot⟩ := mem_ancestorLengths.1 hk
  simp only [upTo, List.length_take] at hlt
  refine ⟨k, by omega, mem_ancestorLengths.2 ⟨by omega, hne, hroot⟩, ?_⟩
  simp only [upTo, name, List.take_take]
  rw [Nat.min_eq_left (by omega)]

/-- What is above a directory on the way comes before it on the way. -/
theorem exists_before_upTo {p : Placement} {n : Nat} {done rest : List Nat} {a : String}
    (hsplit : p.ancestorLengths = done ++ n :: rest) (h : a ∈ (p.upTo n).ancestors) :
    ∃ k ∈ done, a = (p.upTo k).name := by
  obtain ⟨k, hk, hmem, rfl⟩ := mem_ancestors_upTo h
  have hsorted := p.pairwise_ancestorLengths
  rw [hsplit] at hmem hsorted
  refine ⟨k, ?_, rfl⟩
  rcases List.mem_append.1 hmem with hmem | hmem
  · exact hmem
  · -- what comes later is longer
    rcases List.mem_cons.1 hmem with rfl | hmem
    · omega
    · have := List.rel_of_pairwise_cons (List.pairwise_append.1 hsorted).2.1 hmem
      omega

/-- A name does not lead down to itself. -/
theorem not_isAbove_self (name : String) : ¬ IsAbove name name := by
  rintro ⟨rest, h⟩
  have hlen := congrArg List.length h
  simp at hlen

/-- On the way to a place the root is spelled once more where it is on the way to
    a directory on the way. -/
theorem rootMark_upTo {p : Placement} {n : Nat} {upper : String}
    (h : (p.upTo n).rootMark = some upper) (habove : IsAbove upper (p.upTo n).name) :
    p.rootMark = some upper := by
  obtain ⟨k, hk, rfl⟩ := Option.map_eq_some_iff.1 h
  have htwice : (p.upTo n).upTo k = p.upTo (min k n) := by simp [upTo, List.take_take]
  rw [htwice] at habove ⊢
  rcases Nat.le_total k n with hle | hle
  · rw [Nat.min_eq_left hle]
    exact Option.map_eq_some_iff.2 ⟨k, hk, rfl⟩
  · rw [Nat.min_eq_right hle] at habove
    exact absurd habove (not_isAbove_self _)

/-- A place whose segments are those of names. -/
def Plain (p : Placement) : Prop := ∀ s ∈ p.segments, s.Plain

theorem Plain.upTo {p : Placement} (h : p.Plain) (n : Nat) : (p.upTo n).Plain :=
  fun s hs => h s (List.mem_of_mem_take hs)

theorem plain_of_mem_rootSegments {root : Option String} {s : Segment}
    (h : s ∈ rootSegments root) : s.Plain := by
  cases root with
  | none => cases h
  | some r => exact plain_of_mem_segments h

theorem plain_entry (root : Option String) (path : String) : (entry root path).Plain := by
  intro s hs
  rcases List.mem_append.1 hs with hs | hs
  · exact plain_of_mem_rootSegments hs
  · exact plain_of_mem_segments hs

theorem plain_treeEntry (root : Option String) (path : String) : (treeEntry root path).Plain := by
  unfold treeEntry
  dsimp only
  split
  · intro s hs
    rcases List.mem_append.1 hs with hs | hs
    · exact plain_of_mem_rootSegments hs
    rcases List.mem_cons.1 hs with rfl | hs
    · exact ⟨by decide, by decide⟩
    · exact plain_of_mem_segments hs
  · exact plain_entry root path

/-- Directories on the way have different names where they have different
    lengths. -/
theorem Plain.eq_of_name_upTo {p : Placement} (hp : p.Plain) {m n : Nat} (hm : m ≤ p.segments.length)
    (hn : n ≤ p.segments.length) (h : (p.upTo m).name = (p.upTo n).name) : m = n := by
  have hcut : slashed (joined (p.upTo m).segments) = slashed (joined (p.upTo n).segments) :=
    congrArg slashed (String.ofList_injective h)
  rw [slashed_joined (hp.upTo m), slashed_joined (hp.upTo n)] at hcut
  have hlength := congrArg List.length hcut
  simp only [Placement.upTo, List.length_take] at hlength
  omega

theorem Plain.nodup_ancestors {p : Placement} (hp : p.Plain) : p.ancestors.Nodup := by
  rw [ancestors_eq, List.Nodup, List.pairwise_map]
  refine p.pairwise_ancestorLengths.imp_of_mem ?_
  intro m n hm hn hlt hname
  have hm := (mem_ancestorLengths.1 hm).1
  have hn := (mem_ancestorLengths.1 hn).1
  have heq := hp.eq_of_name_upTo (Nat.le_of_lt hm) (Nat.le_of_lt hn) hname
  omega

theorem Plain.name_notMem_ancestors {p : Placement} (hp : p.Plain) : p.name ∉ p.ancestors := by
  rw [ancestors_eq]
  intro hmem
  obtain ⟨n, hn, hname⟩ := List.mem_map.1 hmem
  have hlt := (mem_ancestorLengths.1 hn).1
  have hself : (p.upTo p.segments.length).name = p.name := by rw [p.upTo_length]
  have heq := hp.eq_of_name_upTo (Nat.le_of_lt hlt) (Nat.le_refl _) (hname.trans hself.symm)
  omega

/-- **A name that leads down to a place** is that of a directory on the way, but
    for the one that spells the root once more. -/
theorem mem_ancestors_of_isAbove {p : Placement} (hp : p.Plain) {upper : String}
    (h : IsAbove upper p.name) : upper ∈ p.ancestors ∨ p.rootMark = some upper := by
  obtain ⟨rest, hrest⟩ := h
  rw [name, String.toList_ofList] at hrest
  obtain ⟨n, hpos, hlt, hn⟩ := eq_joined_take (fun s hs => (hp s hs).2) hrest.symm
  have hname : upper = (p.upTo n).name := by
    rw [name, upTo, ← hn, String.ofList_toList]
  by_cases hroot : some n = p.rootLength
  · right; rw [rootMark, ← hroot, hname]; rfl
  · left
    rw [ancestors_eq, hname]
    exact List.mem_map.2 ⟨n, mem_ancestorLengths.2 ⟨hlt, by omega, hroot⟩, rfl⟩

end Placement

end Tarball
