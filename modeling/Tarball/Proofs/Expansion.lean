/-
  What the arguments of a command line stand for.

  Expanding arguments goes through the places of all that they stand for, in the
  order of a dictionary.  It halts at the first place where something goes wrong,
  with the error of that place.  If nothing does, its result are the arguments met
  that name no file, in the order of their places.

  * `Argument.Explores` says of a result that it is what places gone through in this
    order come to (`Argument.Explores.cons`: an argument and those after it);
  * `Argument.explores_expand`: the expansion of an argument is such a result;
  * `expandArguments_explores` says what follows for a command line.
-/
import Tarball.Proofs.Decoding
import Tarball.Proofs.References

namespace Tarball

/-- What can be read as bytes of a text is read as the text. -/
theorem FileSystem.readText_of_read {fs : FileSystem} {path : Bytes} {text : String}
    (h : fs.read path = .ok (bytesOf text)) : fs.readText path = .ok text := by
  have hread : fs.readUtf8 path = .ok text := by
    unfold readUtf8
    rw [h]
    dsimp only [bind, Except.bind]
    rw [Utf8.decode?_bytesOf]
    rfl
  rw [readText, hread]
  rfl

namespace Argument

variable {fs : FileSystem} {levels : Nat} {arg : String} {rest : List String}

/-! ## Going through places -/

theorem map_eq_ok {α β ε : Type} {f : α → β} {r : Except ε α} {b : β} :
    r.map f = .ok b ↔ ∃ a, r = .ok a ∧ f a = b := by
  cases r <;> simp [Except.map]

/-- What is met at places, so far as it names no file, in the order of the places. -/
structure Lists (met : Place → Option String) (leaves : List (Place × String)) : Prop where
  ordered : leaves.Pairwise fun x y => x.1 < y.1
  mem : ∀ place leaf, (place, leaf) ∈ leaves ↔ met place = some leaf ∧ file? leaf = none

/-- The result of going through places: all that names no file, or the first thing
    that goes wrong. -/
inductive Explores (met : Place → Option String) (fault : Place → Option Error) :
    Except Error (List String) → Prop
  | all {leaves : List (Place × String)} : (∀ place, fault place = none) → Lists met leaves →
      Explores met fault (.ok (leaves.map Prod.snd))
  | first {place : Place} {e : Error} : fault place = some e →
      (∀ earlier < place, fault earlier = none) → Explores met fault (.error e)

section
variable {met met' : Place → Option String} {fault fault' : Place → Option Error}
  {r : Except Error (List String)}

/-- Only what names no file matters, and what goes wrong. -/
theorem Explores.of_same (h : Explores met fault r)
    (hmet : ∀ place leaf, met' place = some leaf ∧ file? leaf = none ↔
      met place = some leaf ∧ file? leaf = none)
    (hfault : ∀ place, fault' place = fault place) : Explores met' fault' r := by
  obtain rfl : fault' = fault := funext hfault
  cases h with
  | all hnone hlists =>
    exact .all hnone ⟨hlists.ordered, fun place leaf => (hlists.mem place leaf).trans (hmet place leaf).symm⟩
  | first hplace hearlier => exact .first hplace hearlier

/-- There is a result just if nothing goes wrong anywhere. -/
theorem Explores.exists_ok_iff (h : Explores met fault r) :
    (∃ out, r = .ok out) ↔ ∀ place, fault place = none := by
  cases h with
  | all hnone _ => exact iff_of_true ⟨_, rfl⟩ hnone
  | first hplace _ =>
    refine iff_of_false (by rintro ⟨_, h⟩; cases h) fun hnone => ?_
    rw [hnone] at hplace
    cases hplace

theorem Explores.exists_leaves {out : List String} (h : Explores met fault (.ok out)) :
    ∃ leaves, Lists met leaves ∧ out = leaves.map Prod.snd := by
  cases h with
  | all _ hlists => exact ⟨_, hlists, rfl⟩

/-- There is an error just if it is that of the first place where something goes
    wrong. -/
theorem Explores.eq_error_iff (h : Explores met fault r) (e : Error) :
    r = .error e ↔ ∃ place, fault place = some e ∧ ∀ earlier < place, fault earlier = none := by
  cases h with
  | all hnone _ =>
    refine iff_of_false (by simp) ?_
    rintro ⟨place, hplace, -⟩
    rw [hnone] at hplace
    cases hplace
  | @first place e' hplace hearlier =>
    constructor
    · intro h
      cases h
      exact ⟨place, hplace, hearlier⟩
    · rintro ⟨other, hother, hbefore⟩
      -- neither place is before the other
      have hsame : other = place := by
        rcases lt_trichotomy other place with hlt | heq | hlt
        · rw [hearlier other hlt] at hother
          cases hother
        · exact heq
        · rw [hbefore place hlt] at hplace
          cases hplace
      rw [hsame, hplace] at hother
      rw [Option.some.inj hother]

end

/-! ## An argument and those after it -/

/-- What goes wrong at a place below an argument, when files can be nested so much
    deeper. -/
def faultBelow? (fs : FileSystem) (levels : Nat) (arg : String) (place : Place) : Option Error :=
  (below? fs arg place).bind (refusal? fs (levels ≤ place.length))

theorem fault?_cons_zero (place : Place) :
    fault? fs levels (arg :: rest) (0 :: place) = faultBelow? fs levels arg place := by
  have hdeep : levels < place.length + 1 ↔ levels ≤ place.length := Nat.lt_succ_iff
  simp only [fault?, faultBelow?, met?, List.getElem?_cons_zero, Option.bind_some,
    List.length_cons, hdeep]

theorem fault?_cons_succ (i : Nat) (place : Place) :
    fault? fs levels (arg :: rest) ((i + 1) :: place) = fault? fs levels rest (i :: place) := rfl

theorem faultBelow?_cons (i : Nat) (place : Place) :
    faultBelow? fs (levels + 1) arg (i :: place) = fault? fs levels (inside fs arg) (i :: place) := rfl

/-- The place among arguments that has one more in front of them. -/
def onward : Place → Place
  | [] => []
  | i :: place => (i + 1) :: place

theorem onward_lt_onward {place place' : Place} (h : place ≠ []) (h' : place' ≠ []) :
    onward place < onward place' ↔ place < place' := by
  obtain ⟨i, place, rfl⟩ := List.exists_cons_of_ne_nil h
  obtain ⟨j, place', rfl⟩ := List.exists_cons_of_ne_nil h'
  simp [onward, List.cons_lt_cons_iff]

theorem Lists.ne_nil {leaves : List (Place × String)} (h : Lists (met? fs rest) leaves)
    {x : Place × String} (hx : x ∈ leaves) : x.1 ≠ [] := by
  intro hnil
  have hmet := ((h.mem x.1 x.2).1 hx).1
  rw [hnil] at hmet
  cases hmet

theorem Lists.cons {inner outer : List (Place × String)} (hinner : Lists (below? fs arg) inner)
    (houter : Lists (met? fs rest) outer) :
    Lists (met? fs (arg :: rest))
      (inner.map (fun x => (0 :: x.1, x.2)) ++ outer.map fun x => (onward x.1, x.2)) where
  ordered := by
    refine List.pairwise_append.2 ⟨?_, ?_, ?_⟩
    · exact List.pairwise_map.2 (hinner.ordered.imp fun h => List.cons_lt_cons_iff.2 (.inr ⟨rfl, h⟩))
    · refine List.pairwise_map.2 (houter.ordered.imp_of_mem fun hx hy h => ?_)
      exact (onward_lt_onward (houter.ne_nil hx) (houter.ne_nil hy)).2 h
    · intro x hx y hy
      obtain ⟨x, -, rfl⟩ := List.mem_map.1 hx
      obtain ⟨⟨place, leaf⟩, hmem, rfl⟩ := List.mem_map.1 hy
      obtain ⟨i, place, rfl⟩ := List.exists_cons_of_ne_nil (houter.ne_nil hmem)
      exact List.cons_lt_cons_iff.2 (.inl (Nat.succ_pos i))
  mem place leaf := by
    rw [List.mem_append, List.mem_map, List.mem_map]
    constructor
    · rintro (⟨⟨place, leaf⟩, hmem, he⟩ | ⟨⟨place, leaf⟩, hmem, he⟩)
      · cases he
        exact (hinner.mem place leaf).1 hmem
      · cases he
        obtain ⟨i, place, rfl⟩ := List.exists_cons_of_ne_nil (houter.ne_nil hmem)
        exact (houter.mem _ leaf).1 hmem
    · rintro ⟨hmet, hleaf⟩
      match place with
      | [] => cases hmet
      | 0 :: place => exact .inl ⟨(place, leaf), (hinner.mem place leaf).2 ⟨hmet, hleaf⟩, rfl⟩
      | (i + 1) :: place =>
        exact .inr ⟨(i :: place, leaf), (houter.mem _ leaf).2 ⟨hmet, hleaf⟩, rfl⟩

/-- **An argument and then those after it** are gone through in the order of places. -/
theorem Explores.cons {r r' : Except Error (List String)}
    (h : Explores (below? fs arg) (faultBelow? fs levels arg) r)
    (h' : Explores (met? fs rest) (fault? fs levels rest) r') :
    Explores (met? fs (arg :: rest)) (fault? fs levels (arg :: rest))
      (do let out ← r; let more ← r'; pure (out ++ more)) := by
  have hnil : fault? fs levels (arg :: rest) [] = none := rfl
  cases h with
  | @first place e hplace hearlier =>
    have hfound : fault? fs levels (arg :: rest) (0 :: place) = some e := by
      rw [fault?_cons_zero, hplace]
    refine .first hfound fun earlier hlt => ?_
    match earlier with
    | [] => exact hnil
    | 0 :: other =>
      have hother : other < place := by simpa [List.cons_lt_cons_iff] using hlt
      rw [fault?_cons_zero, hearlier other hother]
    | (i + 1) :: other => simp [List.cons_lt_cons_iff] at hlt
  | @all inner hnone hinner =>
    cases h' with
    | @first place e hplace hearlier =>
      match place with
      | [] => cases hplace
      | j :: place =>
        have hfound : fault? fs levels (arg :: rest) ((j + 1) :: place) = some e := hplace
        refine .first hfound fun earlier hlt => ?_
        match earlier with
        | [] => exact hnil
        | 0 :: other => rw [fault?_cons_zero, hnone]
        | (i + 1) :: other =>
          have hother : i :: other < j :: place := by simpa [List.cons_lt_cons_iff] using hlt
          rw [fault?_cons_succ, hearlier _ hother]
    | @all outer hnone' houter =>
      have hall : ∀ place, fault? fs levels (arg :: rest) place = none
        | [] => hnil
        | 0 :: place => by rw [fault?_cons_zero, hnone]
        | (i + 1) :: place => by rw [fault?_cons_succ, hnone']
      have hlisted := Explores.all hall (hinner.cons houter)
      rw [List.map_append, List.map_map, List.map_map] at hlisted
      exact hlisted

/-! ## Expanding -/

/-- What arguments stand for, one after the other. -/
def expandEach (fs : FileSystem) (levels : Nat) (args : List String) : Except Error (List String) := do
  let parts ← args.mapM (expand fs levels)
  pure parts.flatten

theorem expandEach_cons : expandEach fs levels (arg :: rest) =
    (do let out ← expand fs levels arg; let more ← expandEach fs levels rest; pure (out ++ more)) := by
  unfold expandEach
  rw [List.mapM_cons]
  cases expand fs levels arg with
  | error e => rfl
  | ok out =>
    cases rest.mapM (expand fs levels) with
    | error e => rfl
    | ok parts => rfl

theorem expand_of_file?_eq_none (h : file? arg = none) : expand fs levels arg = .ok [arg] := by
  unfold expand
  rw [h]

/-- An argument that names a file stands for the arguments in it, one level further. -/
theorem expand_of_file?_eq_some {file : String} (h : file? arg = some file) :
    expand fs (levels + 1) arg =
      fs.readText (bytesOf file) >>= fun text => expandEach fs levels (ofText text) := by
  unfold expand
  rw [h]
  rfl

theorem expand_of_readText {file content : String} (h : file? arg = some file)
    (hread : fs.readText (bytesOf file) = .ok content) :
    expand fs (levels + 1) arg = expandEach fs levels (ofText content) := by
  rw [expand_of_file?_eq_some h, hread]
  rfl

/-- Arguments that name no file stand for themselves. -/
theorem expandEach_of_file?_eq_none {args : List String} (h : ∀ arg ∈ args, file? arg = none) :
    expandEach fs levels args = .ok args := by
  induction args with
  | nil => rfl
  | cons arg rest ih =>
    rw [expandEach_cons, expand_of_file?_eq_none (h arg List.mem_cons_self),
      ih fun other hother => h other (List.mem_cons_of_mem _ hother)]
    rfl

theorem explores_expandEach
    (h : ∀ arg, Explores (below? fs arg) (faultBelow? fs levels arg) (expand fs levels arg))
    (args : List String) :
    Explores (met? fs args) (fault? fs levels args) (expandEach fs levels args) := by
  induction args with
  | nil =>
    have hmet : ∀ place, met? fs [] place = none := by
      rintro (_ | ⟨i, place⟩) <;> rfl
    have hlists : Lists (met? fs []) [] := ⟨.nil, fun place leaf => by simp [hmet]⟩
    exact .all (fun place => by rw [fault?, hmet, Option.bind_none]) hlists
  | cons arg rest ih =>
    rw [expandEach_cons]
    exact (h arg).cons ih

/-- An argument that names no file. -/
theorem explores_leaf (h : file? arg = none) :
    Explores (below? fs arg) (faultBelow? fs levels arg) (.ok [arg]) := by
  have hbelow : ∀ i place, below? fs arg (i :: place) = none := by
    intro i place
    rw [below?, inside_of_file?_eq_none h, List.getElem?_nil, Option.bind_none]
  have hnone : ∀ place, faultBelow? fs levels arg place = none := by
    rintro (_ | ⟨i, place⟩)
    · rw [faultBelow?, below?, Option.bind_some, refusal?, h]
    · rw [faultBelow?, hbelow, Option.bind_none]
  have hlists : Lists (below? fs arg) [([], arg)] := by
    refine ⟨List.pairwise_singleton _ _, fun place leaf => ?_⟩
    cases place with
    | nil =>
      have hself : leaf = arg ↔ arg = leaf ∧ file? leaf = none := by
        refine ⟨?_, fun he => he.1.symm⟩
        rintro rfl
        exact ⟨rfl, h⟩
      simpa [below?] using hself
    | cons i place => simp [hbelow]
  exact .all hnone hlists

/-- An argument that names a file which cannot be taken. -/
theorem explores_refused {e : Error} (h : refusal? fs (levels = 0) arg = some e) :
    Explores (below? fs arg) (faultBelow? fs levels arg) (.error e) := by
  have hself : faultBelow? fs levels arg [] = some e := by
    rw [faultBelow?, below?, Option.bind_some, List.length_nil, ← h]
    simp
  exact .first hself fun earlier hlt => absurd hlt (List.not_lt_nil earlier)

/-- An argument that names a file of arguments. -/
theorem explores_file {file text : String} (hfile : file? arg = some file)
    (hread : fs.readText (bytesOf file) = .ok text) {r : Except Error (List String)}
    (h : Explores (met? fs (ofText text)) (fault? fs levels (ofText text)) r) :
    Explores (below? fs arg) (faultBelow? fs (levels + 1) arg) r := by
  rw [← inside_of_readText hfile hread] at h
  refine h.of_same (fun place leaf => ?_) fun place => ?_
  · cases place with
    | nil =>
      refine iff_of_false ?_ (by simp [met?])
      rintro ⟨hself, hleaf⟩
      obtain rfl : arg = leaf := Option.some.inj hself
      rw [hfile] at hleaf
      cases hleaf
    | cons i place => rw [below?_cons]
  · cases place with
    | nil => simp [faultBelow?, fault?, below?, met?, refusal?, hfile, hread]
    | cons i place => rw [faultBelow?_cons]

/-- **Expanding an argument goes through the places below it.** -/
theorem explores_expand (fs : FileSystem) (levels : Nat) (arg : String) :
    Explores (below? fs arg) (faultBelow? fs levels arg) (expand fs levels arg) := by
  induction levels generalizing arg with
  | zero =>
    cases hfile : file? arg with
    | none =>
      rw [expand_of_file?_eq_none hfile]
      exact explores_leaf hfile
    | some file =>
      have hexpand : expand fs 0 arg = .error (Cause.argumentsTooDeep file) := by
        unfold expand
        rw [hfile]
      rw [hexpand]
      exact explores_refused (by simp [refusal?, hfile])
  | succ levels ih =>
    cases hfile : file? arg with
    | none =>
      rw [expand_of_file?_eq_none hfile]
      exact explores_leaf hfile
    | some file =>
      rw [expand_of_file?_eq_some hfile]
      cases hread : fs.readText (bytesOf file) with
      | error e => exact explores_refused (by simp [refusal?, hfile, hread])
      | ok text => exact explores_file hfile hread (explores_expandEach ih _)

end Argument

open Argument

variable {fs : FileSystem}

theorem expandArguments_eq (fs : FileSystem) (args : List String) : expandArguments fs args =
    (expandEach fs nestingLimit args.tail).map (args.take 1 ++ ·) := by
  cases args with
  | nil => rfl
  | cons program args =>
    rw [expandArguments, expandEach, List.tail_cons]
    cases args.mapM (expand fs nestingLimit) <;> rfl

/-- The first argument is kept as it is, and so are those after it that name no file. -/
theorem expandArguments_of_file?_eq_none {args : List String} (h : ∀ arg ∈ args.tail, file? arg = none) :
    expandArguments fs args = .ok args := by
  rw [expandArguments_eq, expandEach_of_file?_eq_none h]
  cases args <;> rfl

/-- **What a command line stands for.**  Down to the limit there are finitely many
    places where arguments are met.  There is a result just if no chain of files is
    longer than the limit and all of them can be read.  It is the first argument as
    it is, and then what names no file in the order of the places, so that it stands
    for itself.  An error is that of the first place where something goes wrong. -/
theorem expandArguments_explores (fs : FileSystem) (args : List String) :
    {place : Place | place.length ≤ nestingLimit + 1 ∧ (met? fs args.tail place).isSome}.Finite ∧
    ((∃ out, expandArguments fs args = .ok out) ↔
      ∀ file files, Chain fs args.tail (file :: files) → (file :: files).length ≤ nestingLimit ∧
        ∃ text, fs.readText (bytesOf file) = .ok text) ∧
    (∀ out, expandArguments fs args = .ok out →
      (∃ leaves : List (Place × String), leaves.Pairwise (fun x y => x.1 < y.1) ∧
        (∀ place leaf, (place, leaf) ∈ leaves ↔
          met? fs args.tail place = some leaf ∧ leaf.toList.head? ≠ some '@') ∧
        out = args.take 1 ++ leaves.map Prod.snd) ∧
      ∀ fs', expandArguments fs' out = .ok out) ∧
    ∀ e, expandArguments fs args = .error e ↔
      ∃ place, fault? fs nestingLimit args.tail place = some e ∧
        ∀ earlier < place, fault? fs nestingLimit args.tail earlier = none := by
  have hexplores := explores_expandEach (explores_expand fs nestingLimit) args.tail
  have hmap := expandArguments_eq fs args
  refine ⟨finite_met fs _ args.tail, ?_, fun out hout => ?_, fun e => ?_⟩
  · rw [← forall_fault?_eq_none_iff, ← hexplores.exists_ok_iff, hmap]
    cases expandEach fs nestingLimit args.tail <;> simp [Except.map]
  · obtain ⟨rest, hrest, rfl⟩ := map_eq_ok.1 (hmap.symm.trans hout)
    rw [hrest] at hexplores
    obtain ⟨leaves, hlists, rfl⟩ := hexplores.exists_leaves
    refine ⟨⟨leaves, hlists.ordered, fun place leaf => ?_, rfl⟩, fun fs' => ?_⟩
    · rw [hlists.mem, file?_eq_none_iff]
    · refine expandArguments_of_file?_eq_none fun arg harg => ?_
      have hmem : arg ∈ leaves.map Prod.snd := by
        cases args with
        | nil => exact List.mem_of_mem_tail harg
        | cons program args => exact harg
      obtain ⟨⟨place, leaf⟩, hleaf, rfl⟩ := List.mem_map.1 hmem
      exact ((hlists.mem place leaf).1 hleaf).2
  · rw [← hexplores.eq_error_iff, hmap]
    cases expandEach fs nestingLimit args.tail <;> simp [Except.map]

/-- A file that names another one, behind an empty line. -/
def nestedFiles : FileSystem where
  items := [
    ([bytesOf "a"], .file 0o644 (bytesOf "x\r\n\n@b\n")),
    ([bytesOf "b"], .file 0o644 (bytesOf "y"))]
  distinct := by decide

/-- The first argument is kept although it begins as a reference. -/
theorem expandArguments_explores_nested :
    expandArguments nestedFiles ["@p", "@a", "z"] = .ok ["@p", "x", "y", "z"] ∧
      ∀ fs', expandArguments fs' ["@p", "x", "y", "z"] = .ok ["@p", "x", "y", "z"] := by
  have houter : nestedFiles.readText (bytesOf "a") = .ok "x\r\n\n@b\n" :=
    FileSystem.readText_of_read (by decide)
  have hinner : nestedFiles.readText (bytesOf "b") = .ok "y" :=
    FileSystem.readText_of_read (by decide)
  have hb : expand nestedFiles 15 "@b" = .ok ["y"] := by
    have hlines : ofText "y" = ["y"] := by decide
    rw [expand_of_readText (by decide : file? "@b" = some "b") hinner, hlines]
    exact expandEach_of_file?_eq_none (by decide)
  have ha : expand nestedFiles 16 "@a" = .ok ["x", "y"] := by
    have hlines : ofText "x\r\n\n@b\n" = ["x", "@b"] := by decide
    rw [expand_of_readText (by decide : file? "@a" = some "a") houter, hlines, expandEach_cons,
      expand_of_file?_eq_none (by decide), expandEach_cons, hb]
    rfl
  have hout : expandArguments nestedFiles ["@p", "@a", "z"] = .ok ["@p", "x", "y", "z"] := by
    rw [expandArguments_eq, nestingLimit, List.tail_cons, expandEach_cons, ha,
      expandEach_of_file?_eq_none (by decide)]
    rfl
  obtain ⟨-, -, hresult, -⟩ := expandArguments_explores nestedFiles ["@p", "@a", "z"]
  exact ⟨hout, (hresult _ hout).2⟩

end Tarball
