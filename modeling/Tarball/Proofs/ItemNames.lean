/-
  The names of the items of a tree.

  An item of a tree is asked for by its destination and the names on the way to it.
  These are read as segments again, below those of the root directory: if neither
  the root directory nor the destination begins with a dot, what is read is what
  was written.

  * `startSegments` are the segments that a plain destination stands for;
  * `itemPath` is the name that an item gets in the archive, and `itemPlace` its
    place;
  * `treeEntry_itemPlace`: an item is asked for at its place, and
    `name_itemPlace`: the name there is its own.
-/
import Tarball.Builder.Import
import Tarball.Name.Destination
import Tarball.Proofs.Trees

namespace Tarball

/-! ## Destinations -/

theorem plain_dotDot : Segment.Plain dotDot ∧ dotDot ≠ dot := by
  refine ⟨⟨?_, ?_⟩, ?_⟩
  · decide
  · decide
  · decide

theorem descend_plain {place : List Segment} {s : Segment} (hplace : ∀ t ∈ place, t.Plain ∧ t ≠ dot)
    (hs : s.Plain) : ∀ t ∈ descend place s, t.Plain ∧ t ≠ dot := by
  unfold descend
  split
  · exact hplace
  next hdot =>
  split
  · cases place with
    | nil => simpa using plain_dotDot
    | cons last above =>
      dsimp only
      split
      · exact List.forall_mem_cons.2 ⟨plain_dotDot, hplace⟩
      · exact fun t ht => hplace t (List.mem_cons_of_mem _ ht)
  · exact List.forall_mem_cons.2 ⟨⟨hs, hdot⟩, hplace⟩

theorem foldl_descend_plain {segs place : List Segment} (hsegs : ∀ s ∈ segs, s.Plain)
    (hplace : ∀ t ∈ place, t.Plain ∧ t ≠ dot) :
    ∀ t ∈ segs.foldl descend place, t.Plain ∧ t ≠ dot := by
  induction segs generalizing place with
  | nil => exact hplace
  | cons s segs ih =>
    have hrest : ∀ t ∈ segs, t.Plain := fun t ht => hsegs t (List.mem_cons_of_mem _ ht)
    exact ih hrest (descend_plain hplace (hsegs s List.mem_cons_self))

/-- The segments of a destination in plain form are none of them a dot. -/
theorem plain_of_mem_plainSegments {dest : List Char} {s : Segment} (h : s ∈ plainSegments dest) :
    s.Plain ∧ s ≠ dot :=
  foldl_descend_plain (fun _ ht => plain_of_mem_slashed ht) (by simp) s (List.mem_reverse.1 h)

/-- The segments that the names in a tree start with. -/
def startSegments (dest : String) : List Segment := slashed (treeStart dest).toList

theorem plain_of_mem_startSegments {dest : String} {s : Segment} (h : s ∈ startSegments dest) : s.Plain :=
  plain_of_mem_slashed h

theorem startSegments_dot : startSegments "." = [] := by decide

/-- A plain destination is the text of its segments, none of which is a dot. -/
theorem startSegments_of_plain {dest : String} (h : plainDestination dest = dest) (hdot : dest ≠ ".") :
    startSegments dest ≠ [] ∧ (∀ s ∈ startSegments dest, s.Plain ∧ s ≠ dot) ∧
      dest = String.ofList (joined (startSegments dest)) := by
  have hplain : ∀ s ∈ plainSegments dest.toList, s.Plain ∧ s ≠ dot :=
    fun s hs => plain_of_mem_plainSegments hs
  unfold plainDestination at h
  cases hsegs : plainSegments dest.toList with
  | nil =>
    rw [hsegs] at h
    exact absurd h.symm hdot
  | cons s segs =>
    rw [hsegs] at h hplain
    dsimp only at h
    have hstart : startSegments dest = s :: segs := by
      rw [startSegments, treeStart, if_neg hdot, ← h, String.toList_ofList]
      exact slashed_joined fun t ht => (hplain t ht).1
    rw [hstart]
    exact ⟨List.cons_ne_nil _ _, hplain, h.symm⟩

/-! ## Names -/

theorem appendSegment_joined {segs : List Segment} (h : ∀ s ∈ segs, s.Plain) (name : String) :
    appendSegment (String.ofList (joined segs)) name =
      String.ofList (joined (segs ++ [name.toList])) := by
  unfold appendSegment
  cases segs with
  | nil =>
    rw [if_pos (.inl rfl)]
    simp [joined]
  | cons s rest =>
    have hne : String.ofList (joined (s :: rest)) ≠ "" := by
      intro he
      exact List.cons_ne_nil s rest (joined_injOn h (by simp) (String.ofList_injective he))
    have hlast : (joined (s :: rest)).getLast? ≠ some '/' := by
      intro hslash
      have hdrop := dropLastSlash_joined h
      rw [dropLastSlash, if_pos hslash] at hdrop
      have hlength := congrArg List.length hdrop
      rw [List.length_dropLast] at hlength
      have hnone : joined (s :: rest) = [] := List.eq_nil_of_length_eq_zero (by omega)
      simp [hnone] at hslash
    rw [String.toList_ofList, if_neg (not_or.2 ⟨hne, hlast⟩), joined_append_cons _ _ _ (by simp)]
    apply String.toList_injective
    simp [joined]

theorem foldl_appendSegment {segs : List Segment} (h : ∀ s ∈ segs, s.Plain) {way : List String}
    (hway : ∀ name ∈ way, CanName name) :
    way.foldl appendSegment (String.ofList (joined segs)) =
      String.ofList (joined (segs ++ way.map String.toList)) := by
  induction way generalizing segs with
  | nil => simp
  | cons name way ih =>
    have hname := hway name List.mem_cons_self
    have hrest : ∀ other ∈ way, CanName other :=
      fun other hother => hway other (List.mem_cons_of_mem _ hother)
    have hsegs : ∀ s ∈ segs ++ [name.toList], s.Plain := by
      intro s hs
      rcases List.mem_append.1 hs with hs | hs
      · exact h s hs
      · rw [List.mem_singleton.1 hs]
        exact hname.plain
    rw [List.foldl_cons, appendSegment_joined h, ih hsegs hrest, List.map_cons, List.append_assoc]
    rfl

/-- Joining texts that were joined before joins all there is in them. -/
theorem joined_map_joined {parts : List (List Segment)} (h : ∀ part ∈ parts, part ≠ []) :
    joined (parts.map joined) = joined parts.flatten := by
  induction parts with
  | nil => rfl
  | cons part parts ih =>
    have hpart := h part List.mem_cons_self
    have hrest := ih fun other hother => h other (List.mem_cons_of_mem _ hother)
    cases parts with
    | nil => simp [joined]
    | cons next parts =>
      obtain ⟨s, segs, rfl⟩ := List.exists_cons_of_ne_nil (h next (by simp))
      rw [List.map_cons, List.map_cons, joined_cons_cons, ← List.map_cons, hrest, List.flatten_cons,
        List.flatten_cons, List.flatten_cons, List.cons_append, joined_append_cons _ _ _ hpart]

/-- Segments that are those of some texts, one after the other. -/
def Spell (segs : List Segment) (texts : List String) : Prop :=
  ∃ parts : List (List Segment), (∀ part ∈ parts, part ≠ []) ∧ parts.flatten = segs ∧
    parts.map joined = texts.map String.toList

theorem spell_nil : Spell [] [] := ⟨[], by simp, rfl, rfl⟩

theorem spell_one {segs : List Segment} (h : segs ≠ []) : Spell segs [String.ofList (joined segs)] := by
  refine ⟨[segs], by simpa using h, by simp, ?_⟩
  rw [List.map_singleton, List.map_singleton, String.toList_ofList]

theorem spell_way (way : List String) : Spell (way.map String.toList) way := by
  induction way with
  | nil => exact spell_nil
  | cons name way ih =>
    obtain ⟨parts, hparts, hflatten, hmap⟩ := ih
    refine ⟨[name.toList] :: parts, List.forall_mem_cons.2 ⟨by simp, hparts⟩, ?_, ?_⟩
    · rw [List.flatten_cons, hflatten]
      rfl
    · rw [List.map_cons, List.map_cons, hmap]
      simp [joined]

theorem Spell.append {segs segs' : List Segment} {texts texts' : List String} (h : Spell segs texts)
    (h' : Spell segs' texts') : Spell (segs ++ segs') (texts ++ texts') := by
  obtain ⟨parts, hparts, rfl, hmap⟩ := h
  obtain ⟨parts', hparts', rfl, hmap'⟩ := h'
  refine ⟨parts ++ parts', fun part hpart => ?_, List.flatten_append, ?_⟩
  · exact (List.mem_append.1 hpart).elim (hparts part) (hparts' part)
  · rw [List.map_append, List.map_append, hmap, hmap']

theorem Spell.joined_eq {segs : List Segment} {texts : List String} (h : Spell segs texts) :
    String.ofList (joined segs) = "/".intercalate texts := by
  obtain ⟨parts, hparts, rfl, hmap⟩ := h
  apply String.toList_injective
  rw [String.toList_ofList, String.toList_intercalate, ← joined_map_joined hparts, hmap]
  rfl

/-! ## Places -/

/-- The place of an item of a tree. -/
def itemPlace (root : Option String) (dest : String) (way : List String) : Placement where
  segments := Placement.rootSegments root ++ startSegments dest ++ way.map String.toList

/-- The name of an item of a tree: the root directory if there is one, the destination
    unless that is `.`, and the names on the way to the item. -/
def itemPath (root : Option String) (dest : String) (way : List String) : String :=
  "/".intercalate (root.toList ++ (if dest = "." then [] else [dest]) ++ way)

/-- A root directory whose name is that of its place. -/
def PlainRoot (root : Option String) : Prop :=
  ∀ r, root = some r → Placement.rootSegments root ≠ [] ∧
    r = String.ofList (joined (Placement.rootSegments root))

section
variable {root : Option String} {dest : String} {way : List String}

theorem mapM_decode?_bytesOf (way : List String) : (way.map bytesOf).mapM Utf8.decode? = some way := by
  induction way with
  | nil => rfl
  | cons name way ih =>
    rw [List.map_cons, List.mapM_cons, Utf8.decode?_bytesOf, ih]
    rfl

/-- **The name at the place of an item** is its own. -/
theorem name_itemPlace (hroot : PlainRoot root) (hdest : plainDestination dest = dest) :
    (itemPlace root dest way).name = itemPath root dest way := by
  have hstart : Spell (startSegments dest) (if dest = "." then [] else [dest]) := by
    split
    · next hdot => rw [hdot, startSegments_dot]; exact spell_nil
    · next hdot =>
      obtain ⟨hne, -, heq⟩ := startSegments_of_plain hdest hdot
      have hspell := spell_one hne
      rwa [← heq] at hspell
  have htop : Spell (Placement.rootSegments root) root.toList := by
    cases root with
    | none => exact spell_nil
    | some r =>
      obtain ⟨hne, heq⟩ := hroot r rfl
      have hspell := spell_one hne
      rwa [← heq] at hspell
  exact ((htop.append hstart).append (spell_way way)).joined_eq

theorem plain_itemPlace (hway : ∀ name ∈ way, CanName name) : (itemPlace root dest way).Plain := by
  intro s hs
  rcases List.mem_append.1 hs with hs | hs
  · rcases List.mem_append.1 hs with hs | hs
    · exact Placement.plain_of_mem_rootSegments hs
    · exact plain_of_mem_startSegments hs
  · obtain ⟨name, hname, rfl⟩ := List.mem_map.1 hs
    exact (hway name hname).plain

/-- Items have different names where the ways to them are different. -/
theorem itemPath_injOn (hroot : PlainRoot root) (hdest : plainDestination dest = dest)
    {way' : List String} (hway : ∀ name ∈ way, CanName name) (hway' : ∀ name ∈ way', CanName name)
    (h : itemPath root dest way = itemPath root dest way') : way = way' := by
  rw [← name_itemPlace hroot hdest, ← name_itemPlace hroot hdest] at h
  have hsegs : (itemPlace root dest way).segments = (itemPlace root dest way').segments :=
    joined_injOn (plain_itemPlace hway) (plain_itemPlace hway') (String.ofList_injective h)
  have hnames : way.map String.toList = way'.map String.toList := List.append_cancel_left hsegs
  exact List.map_injective_iff.2 (fun _ _ => String.toList_injective) hnames

/-- None of the segments below the root directory is a dot. -/
theorem ne_dot_of_mem (hdest : plainDestination dest = dest) (hway : ∀ name ∈ way, CanName name)
    {s : Segment} (hs : s ∈ startSegments dest ++ way.map String.toList) : s ≠ dot := by
  rcases List.mem_append.1 hs with hs | hs
  · by_cases hdot : dest = "."
    · rw [hdot, startSegments_dot] at hs
      cases hs
    · exact ((startSegments_of_plain hdest hdot).2.1 s hs).2
  · obtain ⟨name, hname, rfl⟩ := List.mem_map.1 hs
    intro he
    exact (hway name hname).notDot (String.toList_injective he)

theorem treeStart_eq (hdest : plainDestination dest = dest) :
    treeStart dest = String.ofList (joined (startSegments dest)) := by
  unfold treeStart
  split
  · next hdot => rw [hdot, startSegments_dot]; rfl
  · next hdot => exact (startSegments_of_plain hdest hdot).2.2

/-- An item of a tree is asked for by the text of its segments below the root
    directory. -/
theorem itemName_bytesOf (hdest : plainDestination dest = dest) (hway : ∀ name ∈ way, CanName name) :
    itemName dest (way.map bytesOf) = .ok (itemPlace none dest way).name := by
  rw [itemName, mapM_decode?_bytesOf]
  dsimp only
  rw [treeStart_eq hdest, foldl_appendSegment (fun _ hs => plain_of_mem_startSegments hs) hway]
  rfl

/-- **It is asked for at its place.** -/
theorem treeEntry_itemPlace (root : Option String) (hdest : plainDestination dest = dest)
    (hway : ∀ name ∈ way, CanName name) :
    Placement.treeEntry root (itemPlace none dest way).name = itemPlace root dest way := by
  have hplace : (itemPlace none dest way).Plain := plain_itemPlace hway
  have hplain : ∀ s ∈ startSegments dest ++ way.map String.toList, s.Plain := hplace
  have hname : (itemPlace none dest way).name =
      String.ofList (joined (startSegments dest ++ way.map String.toList)) := rfl
  have hfirst : (startSegments dest ++ way.map String.toList).head? ≠ some ['.'] := by
    intro hhead
    exact ne_dot_of_mem hdest hway (List.mem_of_mem_head? hhead) rfl
  have hdotSlash : ¬ ['.', '/'] <+: (itemPlace none dest way).name.toList := by
    rintro ⟨rest, hrest⟩
    rw [hname, String.toList_ofList] at hrest
    exact hfirst (dotSlash_eq_joined hplain hrest)
  rw [Placement.treeEntry_of_not_dotSlash hdotSlash, Placement.entry, hname, String.toList_ofList,
    segments_joined hplain hfirst, itemPlace, List.append_assoc]

end

end Tarball
