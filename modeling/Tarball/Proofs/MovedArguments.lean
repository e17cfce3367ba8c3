/-
  Arguments moved into a file.

  Arguments can be written to a file, each on a line of its own, and the file named
  where they stood.  This changes nothing but how deep files are nested: a chain of
  files that starts at one of these arguments has become longer by the file they were
  moved into.

  * `Argument.Holds` says of a text that it is such a file of arguments, with empty
    lines anywhere (`Argument.ofText_of_holds`: just these arguments are in it);
  * `Argument.expandEach_eq_ok_iff`: what is allowed fewer files comes to the same as
    what is allowed more, as long as no chain is too long for it;
  * `expandArguments_file_iff` says when naming the file comes to the same as naming
    the arguments.
-/
import Tarball.Proofs.Expansion

namespace Tarball

namespace Argument

variable {fs : FileSystem} {levels : Nat} {arg : String} {block : List String} {text : List Char}

/-! ## Files of arguments -/

/-- Whether an argument can be a line: it is not empty, has no line feed in it, and
    ends in no carriage return, which would be taken for a part of the line's end. -/
def FitsLine (arg : String) : Prop :=
  arg ≠ "" ∧ '\n' ∉ arg.toList ∧ arg.toList.getLast? ≠ some '\r'

instance (arg : String) : Decidable (FitsLine arg) := inferInstanceAs (Decidable (_ ∧ _ ∧ _))

/-- The ways to end a line. -/
inductive LineEnd where
  | feed
  | returnFeed

/-- The characters that end a line. -/
def LineEnd.chars : LineEnd → List Char
  | feed => ['\n']
  | returnFeed => ['\r', '\n']

/-- A text that holds arguments, each on a line of its own, with empty lines anywhere.
    The last line can do without its end. -/
inductive Holds : List String → List Char → Prop
  | nothing : Holds [] []
  | empty (e : LineEnd) {block : List String} {text : List Char} :
      Holds block text → Holds block (e.chars ++ text)
  | line (arg : String) (e : LineEnd) {block : List String} {text : List Char} :
      Holds block text → Holds (arg :: block) (arg.toList ++ e.chars ++ text)
  | last (arg : String) : Holds [arg] arg.toList

theorem dropReturn_concat (line : List Char) : dropReturn (line ++ ['\r']) = line := by
  simp [dropReturn]

/-- Whichever way a line ends, its end is no part of it. -/
theorem textLines_line {line : List Char} (hfeed : '\n' ∉ line) (hreturn : line.getLast? ≠ some '\r')
    (e : LineEnd) (rest : List Char) :
    textLines (line ++ e.chars ++ rest) = line :: textLines rest := by
  cases e with
  | feed =>
    have hsplit : line ++ LineEnd.feed.chars ++ rest = line ++ '\n' :: rest := by
      simp [LineEnd.chars]
    rw [hsplit, textLines_append rest hfeed, dropReturn, if_neg hreturn]
  | returnFeed =>
    have hsplit : line ++ LineEnd.returnFeed.chars ++ rest = (line ++ ['\r']) ++ '\n' :: rest := by
      simp [LineEnd.chars]
    have hfeed' : '\n' ∉ line ++ ['\r'] := by simp [hfeed]
    rw [hsplit, textLines_append rest hfeed', dropReturn_concat]

theorem toList_ne_nil (h : FitsLine arg) : arg.toList ≠ [] := by
  intro hnil
  exact h.1 (String.toList_eq_nil_iff.1 hnil)

/-- **The arguments in a text** are those that it holds. -/
theorem ofText_of_holds (hholds : Holds block text) (hfits : ∀ arg ∈ block, FitsLine arg) :
    ofText (String.ofList text) = block := by
  unfold ofText
  rw [String.toList_ofList]
  induction hholds with
  | nothing => rfl
  | @empty e block text _ ih =>
    have hfeed : '\n' ∉ ([] : List Char) := List.not_mem_nil
    have hcut : textLines (e.chars ++ text) = [] :: textLines text :=
      textLines_line hfeed (by simp) e text
    rw [hcut, List.filter_cons_of_neg (by simp)]
    exact ih hfits
  | @line arg e block text _ ih =>
    obtain ⟨hthis, hothers⟩ := List.forall_mem_cons.1 hfits
    rw [textLines_line hthis.2.1 hthis.2.2, List.filter_cons_of_pos (by simpa using toList_ne_nil hthis),
      List.map_cons, String.ofList_toList, ih hothers]
  | last arg =>
    have hthis := hfits arg List.mem_cons_self
    have hcut : textLines arg.toList = [arg.toList] := by
      rw [textLines, List.splitOn_eq_singleton (by simpa using hthis.2.1), linesOfParts,
        if_neg (toList_ne_nil hthis)]
    rw [hcut, List.filter_cons_of_pos (by simpa using toList_ne_nil hthis)]
    simp

/-! ## Expanding with fewer files allowed -/

theorem expandEach_cons_eq_ok {rest out : List String} : expandEach fs levels (arg :: rest) = .ok out ↔
    ∃ first more, expand fs levels arg = .ok first ∧ expandEach fs levels rest = .ok more ∧
      first ++ more = out := by
  rw [expandEach_cons]
  cases expand fs levels arg with
  | error e => simp [bind, Except.bind]
  | ok first =>
    cases expandEach fs levels rest with
    | error e => simp [bind, Except.bind]
    | ok more => simp [bind, Except.bind, pure, Except.pure]

/-- Arguments stand for what those before some place stand for, and then those after it. -/
theorem expandEach_append_eq_ok {args rest out : List String} :
    expandEach fs levels (args ++ rest) = .ok out ↔
      ∃ first more, expandEach fs levels args = .ok first ∧ expandEach fs levels rest = .ok more ∧
        first ++ more = out := by
  induction args generalizing out with
  | nil =>
    have hnil : expandEach fs levels [] = .ok [] := rfl
    simp [hnil]
  | cons arg args ih =>
    rw [List.cons_append, expandEach_cons_eq_ok]
    constructor
    · rintro ⟨first, more, hfirst, hmore, rfl⟩
      obtain ⟨second, last, hsecond, hlast, rfl⟩ := ih.1 hmore
      exact ⟨first ++ second, last, expandEach_cons_eq_ok.2 ⟨first, second, hfirst, hsecond, rfl⟩,
        hlast, List.append_assoc _ _ _⟩
    · rintro ⟨front, last, hfront, hlast, rfl⟩
      obtain ⟨first, second, hfirst, hsecond, rfl⟩ := expandEach_cons_eq_ok.1 hfront
      exact ⟨first, second ++ last, hfirst, ih.2 ⟨second, last, hsecond, hlast, rfl⟩,
        (List.append_assoc _ _ _).symm⟩

theorem expandEach_of_expand {more : Nat}
    (h : ∀ arg out, expand fs levels arg = .ok out → expand fs more arg = .ok out)
    {args out : List String} (hout : expandEach fs levels args = .ok out) :
    expandEach fs more args = .ok out := by
  induction args generalizing out with
  | nil => exact hout
  | cons arg rest ih =>
    obtain ⟨first, others, hfirst, hothers, rfl⟩ := expandEach_cons_eq_ok.1 hout
    exact expandEach_cons_eq_ok.2 ⟨first, others, h arg first hfirst, ih hothers, rfl⟩

theorem expand_succ {out : List String} (h : expand fs levels arg = .ok out) :
    expand fs (levels + 1) arg = .ok out := by
  induction levels generalizing arg out with
  | zero =>
    cases hfile : file? arg with
    | none =>
      rw [expand_of_file?_eq_none hfile] at h ⊢
      exact h
    | some file =>
      unfold expand at h
      rw [hfile] at h
      cases h
  | succ levels ih =>
    cases hfile : file? arg with
    | none =>
      rw [expand_of_file?_eq_none hfile] at h ⊢
      exact h
    | some file =>
      rw [expand_of_file?_eq_some hfile] at h ⊢
      cases hread : fs.readText (bytesOf file) with
      | error e => rw [hread] at h; cases h
      | ok text =>
        rw [hread] at h
        exact expandEach_of_expand (fun _ _ => ih) h

/-- What goes well with some files allowed comes to the same with more. -/
theorem expandEach_more {more : Nat} (hle : levels ≤ more) {args out : List String}
    (h : expandEach fs levels args = .ok out) : expandEach fs more args = .ok out := by
  induction hle with
  | refl => exact h
  | step _ ih => exact expandEach_of_expand (fun _ _ => expand_succ) ih

/-- There is a result just if no chain of files is too long, and all can be read. -/
theorem exists_expandEach_iff (fs : FileSystem) (levels : Nat) (args : List String) :
    (∃ out, expandEach fs levels args = .ok out) ↔
      ∀ file files, Chain fs args (file :: files) → (file :: files).length ≤ levels ∧
        ∃ text, fs.readText (bytesOf file) = .ok text := by
  rw [← forall_fault?_eq_none_iff]
  exact (explores_expandEach (explores_expand fs levels) args).exists_ok_iff

theorem Chain.ne_nil {args files : List String} (h : Chain fs args files) : files ≠ [] := by
  cases h <;> exact List.cons_ne_nil _ _

/-- **With fewer files allowed** arguments stand for the same, just if no chain is too
    long. -/
theorem expandEach_eq_ok_iff {more : Nat} (hle : levels ≤ more) {args out : List String} :
    expandEach fs levels args = .ok out ↔
      expandEach fs more args = .ok out ∧ ∀ files, Chain fs args files → files.length ≤ levels := by
  constructor
  · intro h
    refine ⟨expandEach_more hle h, fun files hchain => ?_⟩
    obtain ⟨file, others, rfl⟩ := List.exists_cons_of_ne_nil hchain.ne_nil
    exact ((exists_expandEach_iff fs levels args).1 ⟨out, h⟩ file others hchain).1
  · rintro ⟨h, hshort⟩
    have hread := (exists_expandEach_iff fs more args).1 ⟨out, h⟩
    obtain ⟨out', h'⟩ := (exists_expandEach_iff fs levels args).2 fun file files hchain =>
      ⟨hshort _ hchain, (hread file files hchain).2⟩
    -- what is found with fewer files allowed is what is found with more
    rw [expandEach_more hle h'] at h
    cases h
    exact h'

/-! ## Naming a file of arguments -/

/-- An argument that names a file. -/
theorem file?_reference (file : String) : file? ("@" ++ file) = some file := by
  simp [file?]

theorem expandEach_reference {file : String} {more : List String} {content : String}
    (hread : fs.readText (bytesOf file) = .ok content) :
    expandEach fs (levels + 1) ["@" ++ file] = .ok more ↔
      expandEach fs levels (ofText content) = .ok more := by
  have hnil : expandEach fs (levels + 1) [] = .ok [] := rfl
  rw [expandEach_cons_eq_ok, expand_of_readText (file?_reference file) hread, hnil]
  simp

end Argument

open Argument

theorem expandArguments_cons_eq_ok {fs : FileSystem} {program : String} {args out : List String} :
    expandArguments fs (program :: args) = .ok out ↔
      ∃ rest, expandEach fs nestingLimit args = .ok rest ∧ program :: rest = out := by
  rw [expandArguments_eq, map_eq_ok]
  rfl

/-- **Arguments can be moved into a file.**  Naming a file that holds them comes to the
    same as naming them, just if that comes to anything and no chain of files that
    starts at one of them is as long as can be. -/
theorem expandArguments_file_iff {fs : FileSystem} {block : List String} {text : List Char}
    {file : String} (hfits : ∀ arg ∈ block, FitsLine arg) (hholds : Holds block text)
    (hfile : fs.read (bytesOf file) = .ok (bytesOf (String.ofList text)))
    (program : String) (pre post out : List String) :
    expandArguments fs (program :: (pre ++ ["@" ++ file] ++ post)) = .ok out ↔
      expandArguments fs (program :: (pre ++ block ++ post)) = .ok out ∧
        ∀ files, Chain fs block files → files.length < nestingLimit := by
  have hread := FileSystem.readText_of_read hfile
  -- the arguments inside the file may be followed through one file less
  have hnamed : ∀ more, expandEach fs nestingLimit ["@" ++ file] = .ok more ↔
      expandEach fs nestingLimit block = .ok more ∧
        ∀ files, Chain fs block files → files.length ≤ 15 := by
    intro more
    rw [nestingLimit, expandEach_reference hread, ofText_of_holds hholds hfits]
    exact expandEach_eq_ok_iff (by omega)
  have hlength : ∀ n, n < nestingLimit ↔ n ≤ 15 := fun n => Nat.lt_succ_iff
  simp only [expandArguments_cons_eq_ok, expandEach_append_eq_ok, hnamed, hlength]
  constructor
  · rintro ⟨_, ⟨_, last, ⟨first, more, hfirst, ⟨hmore, hshort⟩, rfl⟩, hlast, rfl⟩, rfl⟩
    exact ⟨⟨_, ⟨_, last, ⟨first, more, hfirst, hmore, rfl⟩, hlast, rfl⟩, rfl⟩, hshort⟩
  · rintro ⟨⟨_, ⟨_, last, ⟨first, more, hfirst, hmore, rfl⟩, hlast, rfl⟩, rfl⟩, hshort⟩
    exact ⟨_, ⟨_, last, ⟨first, more, hfirst, ⟨hmore, hshort⟩, rfl⟩, hlast, rfl⟩, rfl⟩

/-- Of the arguments in a file one names another file, which is followed all the same. -/
theorem expandArguments_file_iff_nested :
    (∀ arg ∈ ["x", "@" ++ "b"], FitsLine arg) ∧ Holds ["x", "@" ++ "b"] "x\r\n\n@b\n".toList ∧
      expandArguments nestedFiles ("p" :: (["-v"] ++ ["@" ++ "a"] ++ ["z"])) =
        .ok ["p", "-v", "x", "y", "z"] ∧
      expandArguments nestedFiles ("p" :: (["-v"] ++ ["x", "@" ++ "b"] ++ ["z"])) =
        .ok ["p", "-v", "x", "y", "z"] := by
  have hfits : ∀ arg ∈ ["x", "@" ++ "b"], FitsLine arg := by decide
  have hholds : Holds ["x", "@" ++ "b"] "x\r\n\n@b\n".toList := by
    have htext : "x\r\n\n@b\n".toList = "x".toList ++ LineEnd.returnFeed.chars ++
        (LineEnd.feed.chars ++ (("@" ++ "b").toList ++ LineEnd.feed.chars ++ [])) := by decide
    rw [htext]
    exact .line "x" .returnFeed (.empty .feed (.line ("@" ++ "b") .feed .nothing))
  have houter : nestedFiles.read (bytesOf "a") =
      .ok (bytesOf (String.ofList "x\r\n\n@b\n".toList)) := by decide
  have hinner : nestedFiles.readText (bytesOf "b") = .ok "y" :=
    FileSystem.readText_of_read (by decide)
  have hleaf : ∀ arg ∈ ["-v", "x", "y", "z"], file? arg = none := by decide
  have hplain : ∀ levels, ∀ arg ∈ ["-v", "x", "y", "z"],
      expandEach nestedFiles levels [arg] = .ok [arg] := by
    intro levels arg harg
    refine expandEach_of_file?_eq_none fun other hother => ?_
    rw [List.mem_singleton.1 hother]
    exact hleaf arg harg
  have hb : expandEach nestedFiles 15 ["@" ++ "b"] = .ok ["y"] := by
    rw [expandEach_reference hinner]
    exact hplain 14 "y" (by decide)
  have ha : expandEach nestedFiles 16 ["@" ++ "a"] = .ok ["x", "y"] := by
    rw [expandEach_reference (FileSystem.readText_of_read houter), ofText_of_holds hholds hfits]
    exact expandEach_append_eq_ok.2 ⟨["x"], ["y"], hplain 15 "x" (by decide), hb, rfl⟩
  have hnamed : expandArguments nestedFiles ("p" :: (["-v"] ++ ["@" ++ "a"] ++ ["z"])) =
      .ok ["p", "-v", "x", "y", "z"] := by
    have hfront := expandEach_append_eq_ok.2 ⟨_, _, hplain 16 "-v" (by decide), ha, rfl⟩
    have hall := expandEach_append_eq_ok.2 ⟨_, _, hfront, hplain 16 "z" (by decide), rfl⟩
    exact expandArguments_cons_eq_ok.2 ⟨_, hall, rfl⟩
  exact ⟨hfits, hholds, hnamed,
    ((expandArguments_file_iff hfits hholds houter "p" ["-v"] ["z"] _).1 hnamed).1⟩

end Tarball
