/-
  The segment that spells the root once more.

  An item of an imported tree is placed where a single entry of the same path is,
  unless the path begins with `./`.  Then there is one segment more, a dot right
  below the root directory.  The directories on the way to the item are those on
  the way to the entry, one for one: as they are down to the root directory, and
  with the dot from there on.  The dot by itself is none of them.

  * `Placement.Marks` relates a name to the one with the dot in it;
  * `Placement.markedBelow` is a place with the dot, and
    `Placement.marks_ancestors_markedBelow` compares the way to it with the way to
    the place without;
  * `Placement.treeEntry_eq_or_marked` says how the two ways to place a path differ.
-/
import Tarball.Proofs.Lineage

namespace Tarball

namespace Placement

/-- A name, and the same with a dot right below the given segments, if it leads
    further down than they do. -/
inductive Marks (top : List Segment) : String → String → Prop
  | within {segs : List Segment} : segs <+: top →
      Marks top (String.ofList (joined segs)) (String.ofList (joined segs))
  | beyond {below : List Segment} : below ≠ [] → (∀ s ∈ below, s.Plain) →
      Marks top (String.ofList (joined (top ++ below)))
        (String.ofList (joined (top ++ ['.'] :: below)))

/-- The place of segments below the root directory. -/
def placedBelow (root : Option String) (below : List Segment) : Placement :=
  { segments := rootSegments root ++ below }

/-- The same with a dot between them that spells the root once more. -/
def markedBelow (root : Option String) (below : List Segment) : Placement :=
  { segments := rootSegments root ++ ['.'] :: below, rootLength := some ((rootSegments root).length + 1) }

variable {root : Option String} {below : List Segment}

theorem child_placedBelow (s : Segment) :
    (placedBelow root below).child s = placedBelow root (below ++ [s]) := by
  simp [placedBelow, child]

theorem child_markedBelow (s : Segment) :
    (markedBelow root below).child s = markedBelow root (below ++ [s]) := by
  simp [markedBelow, child]

/-- Directly below the root directory the dot changes nothing that is on the way. -/
theorem marks_lineage_ofRoot (root : Option String) :
    List.Forall₂ (Marks (rootSegments root)) (ofRoot root).lineage (ofRoot root).lineage := by
  refine List.forall₂_same.2 fun a ha => ?_
  rw [lineage] at ha
  split at ha
  · cases ha
  rcases List.mem_append.1 ha with ha | ha
  · obtain ⟨n, -, rfl⟩ := List.mem_map.1 ha
    exact .within (List.take_prefix n _)
  · rw [List.mem_singleton.1 ha]
    exact .within List.prefix_rfl

/-- **With the dot the same directories are on the way**, marked by it below the root
    directory. -/
theorem marks_ancestors_markedBelow (hplain : ∀ s ∈ below, s.Plain) (hne : below ≠ []) :
    List.Forall₂ (Marks (rootSegments root)) (placedBelow root below).ancestors
      (markedBelow root below).ancestors := by
  induction below using List.reverseRecOn with
  | nil => exact absurd rfl hne
  | append_singleton below s ih =>
    have hupper : ∀ t ∈ below, t.Plain := fun t ht => hplain t (List.mem_append_left _ ht)
    by_cases hfirst : below = []
    · -- the first segment below the root directory, from which on the dot stands
      have hplaced : (placedBelow root ([] ++ [s])).ancestors = (ofRoot root).lineage := by
        rw [← (plain_ofRoot root).ancestors_child (by simp [ofRoot]) s]
        rfl
      have hmarked : (markedBelow root ([] ++ [s])).ancestors = (ofRoot root).lineage := by
        rw [← ancestors_child_marked root s]
        simp [markedBelow, beforeMark, child, ofRoot]
      rw [hfirst, hplaced, hmarked]
      exact marks_lineage_ofRoot root
    · -- the place above is on the way in both
      have hplaced : ¬ ((placedBelow root below).segments = [] ∨
          some (placedBelow root below).segments.length = (placedBelow root below).rootLength) := by
        simp [placedBelow, hfirst]
      have hmarked : ¬ ((markedBelow root below).segments = [] ∨
          some (markedBelow root below).segments.length = (markedBelow root below).rootLength) := by
        simp [markedBelow, hfirst]
      rw [← child_placedBelow, ← child_markedBelow, ancestors_child_eq, ancestors_child_eq,
        if_neg hplaced, if_neg hmarked]
      have hlast : Marks (rootSegments root) (placedBelow root below).name (markedBelow root below).name :=
        .beyond hfirst hupper
      exact List.rel_append (ih hupper hfirst) (.cons hlast .nil)

/-- Where the root is spelled once more there is no directory. -/
theorem Plain.rootMark_notMem_ancestors {p : Placement} (hp : p.Plain) {mark : String}
    (hmark : p.rootMark = some mark) (hlength : ∀ n, p.rootLength = some n → n ≤ p.segments.length) :
    mark ∉ p.ancestors := by
  obtain ⟨n, hn, rfl⟩ := Option.map_eq_some_iff.1 hmark
  rw [ancestors_eq]
  intro hmem
  obtain ⟨k, hk, hname⟩ := List.mem_map.1 hmem
  obtain ⟨hlt, -, hne⟩ := mem_ancestorLengths.1 hk
  have hsame : k = n := hp.eq_of_name_upTo (Nat.le_of_lt hlt) (hlength n hn) hname
  exact hne (by rw [hsame, hn])

/-- **An item of a tree is placed like a single entry**, unless its path begins with
    `./` and leads further.  It then has one more segment, a dot right below the root
    directory.  What is on the way to the one is on the way to the other, marked by
    the dot below the root directory, and the dot itself is not. -/
theorem treeEntry_eq_or_marked (root : Option String) (path : String) :
    (¬ ['.', '/'] <+: path.toList ∨ Tarball.segments path.toList = [] →
      treeEntry root path = entry root path) ∧
    (['.', '/'] <+: path.toList → Tarball.segments path.toList ≠ [] →
      (entry root path).name =
        String.ofList (joined (rootSegments root ++ Tarball.segments path.toList)) ∧
      (treeEntry root path).name =
        String.ofList (joined (rootSegments root ++ ['.'] :: Tarball.segments path.toList)) ∧
      List.Forall₂ (Marks (rootSegments root)) (entry root path).ancestors
        (treeEntry root path).ancestors ∧
      (entry root path).ancestors.Nodup ∧ (treeEntry root path).ancestors.Nodup ∧
      String.ofList (joined (rootSegments root ++ [['.']])) ∉ (treeEntry root path).ancestors) := by
  constructor
  · intro hplain
    rw [treeEntry, if_neg (by tauto), entry]
  · intro hdot hne
    have htree : treeEntry root path = markedBelow root (Tarball.segments path.toList) :=
      treeEntry_of_dotSlash hdot hne root
    have hplain := plain_treeEntry root path
    have hmark : (treeEntry root path).rootMark =
        some (String.ofList (joined (rootSegments root ++ [['.']]))) := by
      rw [htree, rootMark, markedBelow, Option.map_some, upTo, name, List.take_append,
        List.take_of_length_le (Nat.le_succ _)]
      simp
    refine ⟨rfl, by rw [htree]; rfl, ?_, (plain_entry root path).nodup_ancestors,
      hplain.nodup_ancestors, hplain.rootMark_notMem_ancestors hmark ?_⟩
    · rw [htree]
      exact marks_ancestors_markedBelow (fun s hs => plain_of_mem_segments hs) hne
    · rw [htree]
      intro n hn
      obtain rfl : (rootSegments root).length + 1 = n := Option.some.inj hn
      simp [markedBelow]

/-- A root directory of two segments, and a path with a dot of its own. -/
theorem treeEntry_eq_or_marked_dots :
    ['.', '/'] <+: "././a/b".toList ∧ Tarball.segments "././a/b".toList ≠ [] ∧
      (entry (some "/opt/pkg/") "././a/b").ancestors = ["opt", "opt/pkg", "opt/pkg/.", "opt/pkg/./a"] ∧
      (treeEntry (some "/opt/pkg/") "././a/b").ancestors =
        ["opt", "opt/pkg", "opt/pkg/./.", "opt/pkg/././a"] ∧
      "opt/pkg/." ∉ (treeEntry (some "/opt/pkg/") "././a/b").ancestors := by
  have hdot : ['.', '/'] <+: "././a/b".toList := by decide
  have hne : Tarball.segments "././a/b".toList ≠ [] := by decide
  obtain ⟨-, -, -, -, -, hmark⟩ := (treeEntry_eq_or_marked (some "/opt/pkg/") "././a/b").2 hdot hne
  exact ⟨hdot, hne, by decide, by decide, hmark⟩

end Placement

end Tarball
