/-
  References between files of arguments.

  An argument that names a file stands for the arguments in it, and these may name
  files in turn, the same ones among them.  Every argument that is met has a place:
  the number it has among the arguments given, followed by its number in each of the
  files that lead to it.  Going through what an argument stands for before the next
  argument is going through the places in the order of a dictionary.

  * `Argument.met?` is the argument at a place;
  * `Argument.Chain` says of files that each one is named in the one before it
    (`Argument.exists_place_of_chain`, `Argument.exists_chain_of_met?`: chains end at
    places that have a number for every file);
  * `Argument.fault?` is what goes wrong at a place;
  * `Argument.finite_met`: down to any depth there are only so many places, even if
    files name one another in circles.
-/
import Mathlib.Data.Set.Finite.Lattice
import Tarball.ArgumentFile

namespace Tarball

namespace Argument

variable {fs : FileSystem}

/-! ## Places -/

/-- The numbers of an argument and of those that lead to it, outermost first. -/
abbrev Place := List Nat

/-- The arguments in the file that an argument names, if it names one that can be
    read. -/
def inside (fs : FileSystem) (arg : String) : List String :=
  match file? arg with
  | none => []
  | some file =>
    match fs.readText (bytesOf file) with
    | .ok text => ofText text
    | .error _ => []

/-- What is met at a place below an argument, which is at the empty place itself. -/
def below? (fs : FileSystem) : String → Place → Option String
  | arg, [] => some arg
  | arg, i :: place => (inside fs arg)[i]?.bind fun inner => below? fs inner place

/-- What is met at a place among arguments. -/
def met? (fs : FileSystem) (args : List String) : Place → Option String
  | [] => none
  | i :: place => args[i]?.bind fun arg => below? fs arg place

theorem file?_eq_none_iff {arg : String} : file? arg = none ↔ arg.toList.head? ≠ some '@' := by
  unfold file?
  split
  · next name h => simp [h]
  · next h =>
    simp only [true_iff]
    intro hhead
    obtain ⟨name, hname⟩ := List.head?_eq_some_iff.1 hhead
    exact h name hname

theorem inside_of_file?_eq_none {arg : String} (h : file? arg = none) : inside fs arg = [] := by
  rw [inside, h]

theorem inside_of_readText {arg file text : String} (hfile : file? arg = some file)
    (hread : fs.readText (bytesOf file) = .ok text) : inside fs arg = ofText text := by
  rw [inside, hfile]
  dsimp only
  rw [hread]

theorem mem_inside {arg inner : String} : inner ∈ inside fs arg ↔
    ∃ file text, file? arg = some file ∧ fs.readText (bytesOf file) = .ok text ∧
      inner ∈ ofText text := by
  constructor
  · intro h
    unfold inside at h
    split at h
    · cases h
    · next file hfile =>
      split at h
      · next text hread => exact ⟨file, text, hfile, hread, h⟩
      · cases h
  · rintro ⟨file, text, hfile, hread, hinner⟩
    rwa [inside_of_readText hfile hread]

theorem below?_cons (arg : String) (i : Nat) (place : Place) :
    below? fs arg (i :: place) = met? fs (inside fs arg) (i :: place) := rfl

theorem below?_concat (arg : String) (place : Place) (i : Nat) :
    below? fs arg (place ++ [i]) = (below? fs arg place).bind fun inner => (inside fs inner)[i]? := by
  induction place generalizing arg with
  | nil => simp [below?]
  | cons j place ih =>
    rw [List.cons_append, below?, below?, Option.bind_assoc]
    congr 1
    funext inner
    exact ih inner

theorem met?_concat (args : List String) {place : Place} (hne : place ≠ []) (i : Nat) :
    met? fs args (place ++ [i]) = (met? fs args place).bind fun inner => (inside fs inner)[i]? := by
  obtain ⟨j, place, rfl⟩ := List.exists_cons_of_ne_nil hne
  rw [List.cons_append, met?, met?, Option.bind_assoc]
  congr 1
  funext arg
  exact below?_concat arg place i

/-! ## Chains -/

/-- Files that lead on from some arguments, the last one first: the first of all is
    named by one of the arguments, each further one in the file before it. -/
inductive Chain (fs : FileSystem) (args : List String) : List String → Prop
  | first {arg file : String} : arg ∈ args → file? arg = some file → Chain fs args [file]
  | next {file text arg inner : String} {files : List String} : Chain fs args (file :: files) →
      fs.readText (bytesOf file) = .ok text → arg ∈ ofText text → file? arg = some inner →
      Chain fs args (inner :: file :: files)

/-- A chain ends at a place with as many numbers. -/
theorem exists_place_of_chain {args files : List String} (h : Chain fs args files) :
    ∃ place arg, met? fs args place = some arg ∧ file? arg = files.head? ∧
      place.length = files.length := by
  induction h with
  | first harg hfile =>
    obtain ⟨i, hi⟩ := List.mem_iff_getElem?.1 harg
    exact ⟨[i], _, by simp [met?, hi, below?], hfile, rfl⟩
  | @next file text arg inner files _ hread harg hinner ih =>
    obtain ⟨place, upper, hmet, hupper, hlength⟩ := ih
    obtain ⟨i, hi⟩ := List.mem_iff_getElem?.1 harg
    have hne : place ≠ [] := List.ne_nil_of_length_pos (by rw [hlength]; exact Nat.succ_pos _)
    refine ⟨place ++ [i], arg, ?_, hinner, by simp [hlength]⟩
    rw [met?_concat args hne, hmet, Option.bind_some, inside_of_readText hupper hread, hi]

/-- At a place where a file is named a chain of as many files ends. -/
theorem exists_chain_of_met? {args : List String} {place : Place} {arg file : String}
    (hmet : met? fs args place = some arg) (hfile : file? arg = some file) :
    ∃ files, Chain fs args (file :: files) ∧ (file :: files).length = place.length := by
  induction place using List.reverseRecOn generalizing arg file with
  | nil => cases hmet
  | append_singleton place i ih =>
    by_cases hne : place = []
    · rw [hne] at hmet ⊢
      have harg : args[i]? = some arg := by simpa [met?, below?] using hmet
      exact ⟨[], .first (List.mem_of_getElem? harg) hfile, rfl⟩
    · rw [met?_concat args hne] at hmet
      obtain ⟨upper, hupper, hinner⟩ := Option.bind_eq_some_iff.1 hmet
      obtain ⟨outer, text, houter, hread, harg⟩ := mem_inside.1 (List.mem_of_getElem? hinner)
      obtain ⟨files, hchain, hlength⟩ := ih hupper houter
      exact ⟨outer :: files, .next hchain hread harg hfile, by
        rw [List.length_cons, hlength, List.length_append, List.length_singleton]⟩

/-! ## Faults -/

/-- What goes wrong when an argument is replaced by the file it names. -/
def refusal? (fs : FileSystem) (tooDeep : Bool) (arg : String) : Option Error :=
  match file? arg with
  | none => none
  | some file =>
    if tooDeep then some (Cause.argumentsTooDeep file)
    else
      match fs.readText (bytesOf file) with
      | .ok _ => none
      | .error e => some e

/-- What goes wrong at a place, when files can be nested so deep: the argument there
    names one file too many, or one that cannot be read. -/
def fault? (fs : FileSystem) (limit : Nat) (args : List String) (place : Place) : Option Error :=
  (met? fs args place).bind (refusal? fs (limit < place.length))

theorem refusal?_eq_none_iff {tooDeep : Bool} {arg : String} : refusal? fs tooDeep arg = none ↔
    ∀ file, file? arg = some file → ¬ tooDeep ∧ ∃ text, fs.readText (bytesOf file) = .ok text := by
  unfold refusal?
  split
  · next hfile => simp [hfile]
  · next file hfile =>
    cases tooDeep
    · cases hread : fs.readText (bytesOf file) <;> simp [hfile, hread]
    · simp [hfile]

/-- **Nothing goes wrong anywhere** just if no chain is too long, and all files they
    come to can be read. -/
theorem forall_fault?_eq_none_iff {limit : Nat} {args : List String} :
    (∀ place, fault? fs limit args place = none) ↔
      ∀ file files, Chain fs args (file :: files) → (file :: files).length ≤ limit ∧
        ∃ text, fs.readText (bytesOf file) = .ok text := by
  constructor
  · intro h file files hchain
    obtain ⟨place, arg, hmet, hfile, hlength⟩ := exists_place_of_chain hchain
    have hnone := h place
    rw [fault?, hmet, Option.bind_some, refusal?_eq_none_iff] at hnone
    obtain ⟨hshort, hread⟩ := hnone file hfile
    rw [decide_eq_true_iff, Nat.not_lt] at hshort
    exact ⟨hlength ▸ hshort, hread⟩
  · intro h place
    rw [fault?, Option.bind_eq_none_iff]
    intro arg hmet
    refine refusal?_eq_none_iff.2 fun file hfile => ?_
    obtain ⟨files, hchain, hlength⟩ := exists_chain_of_met? hmet hfile
    obtain ⟨hshort, hread⟩ := h file files hchain
    rw [decide_eq_true_iff, Nat.not_lt]
    exact ⟨hlength ▸ hshort, hread⟩

/-! ## How many places there are -/

theorem finite_met_of_finite_below {n : Nat}
    (h : ∀ arg, {place : Place | place.length ≤ n ∧ (below? fs arg place).isSome}.Finite)
    (args : List String) :
    {place : Place | place.length ≤ n + 1 ∧ (met? fs args place).isSome}.Finite := by
  have hunion : (⋃ i ∈ {i | i ∈ List.range args.length}, ⋃ arg ∈ {arg | arg ∈ args},
      (i :: ·) '' {place : Place | place.length ≤ n ∧ (below? fs arg place).isSome}).Finite :=
    (List.finite_toSet _).biUnion fun i _ => (List.finite_toSet _).biUnion fun arg _ => (h arg).image _
  refine hunion.subset ?_
  rintro place ⟨hlength, hsome⟩
  cases place with
  | nil => cases hsome
  | cons i place =>
    obtain ⟨inner, hinner⟩ := Option.isSome_iff_exists.1 hsome
    obtain ⟨arg, harg, hbelow⟩ := Option.bind_eq_some_iff.1 hinner
    obtain ⟨hlt, rfl⟩ := List.getElem?_eq_some_iff.1 harg
    simp only [Set.mem_iUnion]
    refine ⟨i, List.mem_range.2 hlt, args[i], List.getElem_mem hlt, place, ⟨Nat.le_of_succ_le_succ hlength, ?_⟩, rfl⟩
    rw [hbelow]
    rfl

theorem finite_below (fs : FileSystem) (n : Nat) (arg : String) :
    {place : Place | place.length ≤ n ∧ (below? fs arg place).isSome}.Finite := by
  induction n generalizing arg with
  | zero =>
    refine (Set.finite_singleton []).subset ?_
    rintro place ⟨hlength, -⟩
    exact List.eq_nil_of_length_eq_zero (Nat.le_zero.1 hlength)
  | succ n ih =>
    -- below an argument there are the places among those in its file
    refine ((finite_met_of_finite_below ih (inside fs arg)).insert []).subset ?_
    rintro place ⟨hlength, hsome⟩
    cases place with
    | nil => exact .inl rfl
    | cons i place => exact .inr ⟨hlength, hsome⟩

/-- **Down to any depth there are finitely many places**, whatever files there are. -/
theorem finite_met (fs : FileSystem) (n : Nat) (args : List String) :
    {place : Place | place.length ≤ n ∧ (met? fs args place).isSome}.Finite :=
  (finite_met_of_finite_below (finite_below fs n) args).subset fun _ h => ⟨Nat.le_succ_of_le h.1, h.2⟩

end Argument

end Tarball
