/-
  Where a path leads.

  A path is followed name by name from the working directory, or from the root
  if it starts with a slash.  Every name but the last has to lead to a
  directory; an empty name and `.` stay where they are and `..` goes up.  A
  symbolic link is replaced by its target, at most forty times for one path.

  * `FileSystem.stride` goes on by one name, and `FileSystem.follow` by all the
    names given and tells how many links may still be met (`follow_induct` is
    induction along such a way, and by `follow_append` going by the names of two
    lists is going by those of the first and then by those of the second);
  * `FileSystem.resolve` is the location of a path, `FileSystem.resolveFrom`
    that of a name in a directory that was reached before.
-/
import Tarball.FileSystem.Basic
import Tarball.Error

namespace Tarball

/-- The byte between the names of a path. -/
def slashByte : UInt8 := 0x2F

/-- The name for this directory. -/
def dotName : Bytes := [0x2E]

/-- The name for the directory around this one. -/
def dotDotName : Bytes := [0x2E, 0x2E]

/-- The names in a path.  There is an empty one for each slash that stands
    first, last or beside another. -/
def pathNames (path : Bytes) : List Bytes :=
  path.splitOn slashByte

namespace FileSystem

/-- The longest name that an item can have. -/
def maxName : Nat := 255

/-- A path has to be shorter than this. -/
def maxPath : Nat := 4096

/-- Whether a path is too long to be followed. -/
def isTooLong (path : Bytes) : Bool :=
  maxPath ≤ path.length

/-- How many links can be met on the way along one path. -/
def maxLinks : Nat := 40

/-- Where a path starts. -/
def start (here : Location) (path : Bytes) : Location :=
  if path.head? = some slashByte then [] else here

/-- What going on by one name comes to: a place, or a link with its target. -/
inductive Stride
  | place (loc : Location)
  | link (target : Bytes)

/-- Going on by one name. -/
def stride (fs : FileSystem) (here : Location) (name : Bytes) : Except SystemFailure Stride :=
  match fs.node? here with
  | some (.directory _) =>
    if name = [] ∨ name = dotName then .ok (.place here)
    else if name = dotDotName then .ok (.place here.tail)
    else if maxName < name.length then .error .nameTooLong
    else
      match fs.node? (name :: here) with
      | none => .error .missing
      | some (.link target) => .ok (.link target)
      | some _ => .ok (.place (name :: here))
  | _ => .error .notDirectory

section
variable {fs : FileSystem} {here : Location} {name : Bytes} {mode : UInt32}

theorem stride_stay (hdir : fs.node? here = some (.directory mode))
    (hstay : name = [] ∨ name = dotName) : fs.stride here name = .ok (.place here) := by
  rw [stride, hdir]
  exact if_pos hstay

theorem stride_up (hdir : fs.node? here = some (.directory mode)) (hup : name = dotDotName) :
    fs.stride here name = .ok (.place here.tail) := by
  subst hup
  rw [stride, hdir]
  rfl

/-- The name of an item leads to the item. -/
theorem stride_eq (hdir : fs.node? here = some (.directory mode))
    (hstay : ¬ (name = [] ∨ name = dotName)) (hup : name ≠ dotDotName)
    (hlong : ¬ maxName < name.length) :
    fs.stride here name =
      match fs.node? (name :: here) with
      | none => .error .missing
      | some (.link target) => .ok (.link target)
      | some _ => .ok (.place (name :: here)) := by
  rw [stride, hdir]
  simp only [hstay, hup, hlong, if_false]

end

/-- The way on from a place by names as far as the first link, and from there as
    `atLink` tells, when so many links may still be met. -/
def followWith (fs : FileSystem) (links : Nat)
    (atLink : Location → List Bytes → Except SystemFailure (Location × Nat)) :
    Location → List Bytes → Except SystemFailure (Location × Nat)
  | here, [] => .ok (here, links)
  | here, name :: rest =>
    match fs.stride here name with
    | .error failure => .error failure
    | .ok (.place loc) => fs.followWith links atLink loc rest
    | .ok (.link target) => atLink (start here target) (pathNames target ++ rest)

/-- The way on from a place by names, when so many links may still be met: where
    it leads, and how many links may be met from there on. -/
def follow (fs : FileSystem) : Nat → Location → List Bytes → Except SystemFailure (Location × Nat)
  | 0 => fs.followWith 0 fun _ _ => .error .linkLoop
  | links + 1 => fs.followWith (links + 1) (fs.follow links)

theorem follow_nil (fs : FileSystem) (links : Nat) (here : Location) :
    fs.follow links here [] = .ok (here, links) := by
  cases links <;> rfl

theorem follow_cons (fs : FileSystem) (links : Nat) (here : Location) (name : Bytes)
    (rest : List Bytes) :
    fs.follow links here (name :: rest) =
      match fs.stride here name with
      | .error failure => .error failure
      | .ok (.place loc) => fs.follow links loc rest
      | .ok (.link target) =>
        match links with
        | 0 => .error .linkLoop
        | links + 1 => fs.follow links (start here target) (pathNames target ++ rest) := by
  cases links <;> rfl

section
variable {fs : FileSystem} {links : Nat} {here loc : Location} {name target : Bytes}
  {rest : List Bytes} {failure : SystemFailure}

theorem follow_stop (h : fs.stride here name = .error failure) :
    fs.follow links here (name :: rest) = .error failure := by
  rw [follow_cons, h]

theorem follow_place (h : fs.stride here name = .ok (.place loc)) :
    fs.follow links here (name :: rest) = fs.follow links loc rest := by
  rw [follow_cons, h]

theorem follow_loop (h : fs.stride here name = .ok (.link target)) :
    fs.follow 0 here (name :: rest) = .error .linkLoop := by
  rw [follow_cons, h]

theorem follow_link (h : fs.stride here name = .ok (.link target)) :
    fs.follow (links + 1) here (name :: rest) =
      fs.follow links (start here target) (pathNames target ++ rest) := by
  rw [follow_cons, h]

end

/-- What is so at the end of a way and where it breaks off, and before a name if it
    is so after it, is so all along.  From a link fewer links may be met, by
    whatever names its target has. -/
theorem follow_induct (fs : FileSystem) {motive : Nat → Location → List Bytes → Prop}
    (done : ∀ links here, motive links here [])
    (stop : ∀ links here name rest failure, fs.stride here name = .error failure →
      motive links here (name :: rest))
    (place : ∀ links here name rest loc, fs.stride here name = .ok (.place loc) →
      motive links loc rest → motive links here (name :: rest))
    (loop : ∀ here name rest target, fs.stride here name = .ok (.link target) →
      motive 0 here (name :: rest))
    (link : ∀ links here name rest target, fs.stride here name = .ok (.link target) →
      motive links (start here target) (pathNames target ++ rest) →
      motive (links + 1) here (name :: rest))
    (links : Nat) (here : Location) (names : List Bytes) : motive links here names := by
  -- the names may grow only where the links get fewer
  induction links generalizing here names with
  | zero =>
    induction names generalizing here with
    | nil => exact done 0 here
    | cons name rest ih =>
      match h : fs.stride here name with
      | .error failure => exact stop 0 here name rest failure h
      | .ok (.place loc) => exact place 0 here name rest loc h (ih loc)
      | .ok (.link target) => exact loop here name rest target h
  | succ links fewer =>
    induction names generalizing here with
    | nil => exact done (links + 1) here
    | cons name rest ih =>
      match h : fs.stride here name with
      | .error failure => exact stop (links + 1) here name rest failure h
      | .ok (.place loc) => exact place (links + 1) here name rest loc h (ih loc)
      | .ok (.link target) => exact link links here name rest target h (fewer _ _)

/-- Going by the names of two lists is going by those of the first and then by
    those of the second. -/
theorem follow_append (fs : FileSystem) (links : Nat) (here : Location) (names more : List Bytes) :
    fs.follow links here (names ++ more) =
      (fs.follow links here names).bind fun p => fs.follow p.2 p.1 more := by
  induction links, here, names using follow_induct fs with
  | done links here => rw [follow_nil]; rfl
  | stop links here name rest failure h =>
    rw [List.cons_append, follow_stop h, follow_stop h]
    rfl
  | place links here name rest loc h ih => rw [List.cons_append, follow_place h, follow_place h, ih]
  | loop here name rest target h =>
    rw [List.cons_append, follow_loop h, follow_loop h]
    rfl
  | link links here name rest target h ih =>
    rw [List.cons_append, follow_link h, follow_link h, ← List.append_assoc, ih]

/-- Where a path leads, and how many links may be met from there on. -/
def resolveLinks (fs : FileSystem) (path : Bytes) : Except Cause (Location × Nat) :=
  if 0 ∈ path then .error .pathHasNul
  else if isTooLong path then .error (.system .nameTooLong)
  else if path = [] then .error (.system .missing)
  else (fs.follow maxLinks (start fs.workingDirectory path) (pathNames path)).mapError .system

/-- Where a path leads. -/
def resolve (fs : FileSystem) (path : Bytes) : Except Cause Location :=
  (fs.resolveLinks path).map Prod.fst

/-- What a path leads to. -/
def status (fs : FileSystem) (path : Bytes) : Except Cause Node := do
  let loc ← fs.resolve path
  match fs.node? loc with
  | some node => pure node
  | none => throw (.system .missing)

end FileSystem

end Tarball
