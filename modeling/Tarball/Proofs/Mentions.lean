/-
  The directories that requests mention.

  A request mentions the directories on the way to its place, and one for a
  directory mentions that as well.  Where all requests succeed there is a directory
  of a name just if one of them mentions it, whatever became of that request
  itself; and what is said about the directory is what the first of them says.  So
  the order of requests tells which one speaks for a directory, but not which
  directories there are.

  * `directory?` is what is said about the directory of a name among members;
  * `Asked.Mentions` are the names that a request mentions, `Builder.mention` is
    what it says about one of them;
  * `Step.calls` are the requests of a step, whatever content they come with;
  * `Builder.Tells` says of a step which requests speak for directories in it
    (`Builder.Ran.tells`: of steps one after the other);
  * `Builder.first_mention_counts` and `Builder.directories_of_perm`: what follows
    for whole archives.
-/
import Mathlib.Data.List.Nodup
import Tarball.Proofs.Duplicates
import Tarball.Proofs.Inputs
import Tarball.Proofs.RootDirectory

namespace Tarball

/-! ## What is said about a directory -/

/-- What is said about the directory of a name, if there is one among members. -/
def directory? (ms : List Member) (name : String) : Option Entry :=
  (ms.find? fun m => m.entry.kind = .directory ∧ m.entry.name = name).map (·.entry)

theorem directory?_append (ms ms' : List Member) (name : String) :
    directory? (ms ++ ms') name = (directory? ms name).or (directory? ms' name) := by
  rw [directory?, List.find?_append, Option.map_or]
  rfl

theorem directory?_eq_none_iff {ms : List Member} {name : String} :
    directory? ms name = none ↔ name ∉ directoryNames ms := by
  rw [directory?, Option.map_eq_none_iff, List.find?_eq_none, mem_directoryNames]
  simp

theorem directory?_of_notMem {ms : List Member} {name : String} (h : name ∉ directoryNames ms) :
    directory? ms name = none :=
  directory?_eq_none_iff.2 h

theorem exists_of_directory? {ms : List Member} {name : String} {e : Entry}
    (h : directory? ms name = some e) : ∃ m ∈ ms, m.entry = e ∧ e.kind = .directory ∧ e.name = name := by
  obtain ⟨m, hfind, rfl⟩ := Option.map_eq_some_iff.1 h
  have hm : m.entry.kind = .directory ∧ m.entry.name = name := by simpa using List.find?_some hfind
  exact ⟨m, List.mem_of_find?_eq_some hfind, rfl, hm⟩

/-- Where no name comes twice, what is said about a directory is what its member
    says. -/
theorem directory?_of_mem {ms : List Member} (hnodup : (directoryNames ms).Nodup) {m : Member}
    (hm : m ∈ ms) (hk : m.entry.kind = .directory) : directory? ms m.entry.name = some m.entry := by
  cases hfound : directory? ms m.entry.name with
  | none =>
    have hin : m.entry.name ∈ directoryNames ms := mem_directoryNames.2 ⟨m, hm, hk, rfl⟩
    exact absurd hin (directory?_eq_none_iff.1 hfound)
  | some e =>
    obtain ⟨m', hm', rfl, hk', hname⟩ := exists_of_directory? hfound
    have hmem : m ∈ ms.filter (·.entry.kind = .directory) := by simp [hm, hk]
    have hmem' : m' ∈ ms.filter (·.entry.kind = .directory) := by simp [hm', hk']
    rw [List.inj_on_of_nodup_map hnodup hmem' hmem hname]

/-! ## Mentions -/

/-- A request mentions the directories on the way to its place, and one for a
    directory also that one, unless it is the root. -/
def Asked.Mentions (a : Asked) (name : String) : Prop :=
  name ∈ a.place.ancestors ∨
    a.request.kind = .directory ∧ a.place.isRoot = false ∧ name = a.place.name

instance (a : Asked) (name : String) : Decidable (a.Mentions name) :=
  inferInstanceAs (Decidable (_ ∨ _))

namespace Builder

/-- What a request says about a directory, if it mentions it: of one on the way
    nothing but the owner, and of the one asked for all that it says at all. -/
def mention (b : Builder) (name : String) (a : Asked) : Option Entry :=
  if name ∈ a.place.ancestors then some (b.directoryEntry (a.request.owner.getD b.owner) name)
  else if a.Mentions name then some (b.entryFor a.request (a.request.owner.getD b.owner) name)
  else none

theorem mention_of_mem {b : Builder} {name : String} {a : Asked} (h : name ∈ a.place.ancestors) :
    b.mention name a = some (b.directoryEntry (a.request.owner.getD b.owner) name) :=
  if_pos h

theorem mention_eq_none_iff {b : Builder} {name : String} {a : Asked} :
    b.mention name a = none ↔ ¬ a.Mentions name := by
  unfold mention
  split
  · next hway => simp [Asked.Mentions, hway]
  split
  · next hmentions => simp [hmentions]
  · next hmentions => simp [hmentions]

theorem Like.mention {b b' : Builder} (h : b.Like b') (name : String) :
    b.mention name = b'.mention name := by
  funext a
  unfold Builder.mention directoryEntry entryFor
  rw [h.mtime, h.owner]

section
variable {b : Builder} {r : Request} {p : Placement} {name : String}

/-- The directories on the way that are missing are told of by the request. -/
theorem directory?_missing (b : Builder) (written : List String) (r : Request) (p : Placement)
    (name : String) : directory? (b.missing written r p) name =
      if name ∈ p.ancestors ∧ name ∉ written then
        some (b.directoryEntry (r.owner.getD b.owner) name)
      else none := by
  by_cases hin : name ∈ directoryNames (b.missing written r p)
  · obtain ⟨m, hm, hk, rfl⟩ := mem_directoryNames.1 hin
    have hway : m.entry.name ∈ p.ancestors ∧ m.entry.name ∉ written := by
      rw [directoryNames_missing] at hin
      simpa using hin
    rw [if_pos hway]
    cases hfound : directory? (b.missing written r p) m.entry.name with
    | none => exact absurd hin (directory?_eq_none_iff.1 hfound)
    | some e =>
      obtain ⟨m', hm', rfl, -, hname⟩ := exists_of_directory? hfound
      obtain ⟨way, -, rfl⟩ := List.mem_map.1 hm'
      rw [← hname]
      rfl
  · rw [directory?_of_notMem hin]
    rw [directoryNames_missing, List.mem_filter] at hin
    rw [if_neg (by simpa using hin)]

/-- What is at the place itself is told of by the request if it is for a directory,
    and there is none of the name. -/
theorem directory?_placed {written : List Member} (hnew : name ∉ directoryNames written)
    (hway : name ∉ p.ancestors) :
    directory? (b.placed written r p) name = b.mention name ⟨r, p⟩ := by
  rw [mention, if_neg hway]
  by_cases hself : r.kind = .directory ∧ name = p.name
  · obtain ⟨hk, rfl⟩ := hself
    by_cases hroot : p.isRoot
    · rw [placed, if_pos (.inl hroot), if_neg (by simp [Asked.Mentions, hway, hroot])]
      rfl
    · have htaken : ¬ b.Taken written r.kind p := by simp [Taken, hroot, hnew, hk]
      rw [placed, if_neg htaken, if_pos (.inr ⟨hk, by simpa using hroot, rfl⟩)]
      simp [directory?, memberFor, entryFor, hk]
  · have hmentions : ¬ (Asked.mk r p).Mentions name := by
      rintro (hin | ⟨hk, -, hname⟩)
      · exact hway hin
      · exact hself ⟨hk, hname⟩
    rw [if_neg hmentions]
    refine directory?_of_notMem ?_
    unfold placed
    split
    · simp [directoryNames]
    · simp only [directoryNames, memberFor, entryFor]
      by_cases hk : r.kind = .directory
      · simpa [hk] using fun hname => hself ⟨hk, hname⟩
      · simp [hk]

/-- **What is said about a directory after a request** was said before, or it is
    what the request says. -/
theorem directory?_added (b : Builder) (written : List Member) (r : Request) (p : Placement)
    (name : String) : directory? (written ++ b.added written r p) name =
      (directory? written name).or (b.mention name ⟨r, p⟩) := by
  rw [directory?_append]
  by_cases hin : name ∈ directoryNames written
  · obtain ⟨e, he⟩ := Option.ne_none_iff_exists'.1 (mt directory?_eq_none_iff.1 (not_not.2 hin))
    rw [he, Option.some_or, Option.some_or]
  rw [directory?_of_notMem hin, Option.none_or, Option.none_or, added, directory?_append,
    directory?_missing]
  by_cases hway : name ∈ p.ancestors
  · rw [if_pos ⟨hway, hin⟩, mention_of_mem hway, Option.some_or]
  · rw [if_neg fun h => hway h.1, Option.none_or, directory?_placed hin hway]

end

/-- What is said about a directory after some requests is what the first of them
    says that mentions it, unless there was one of the name before. -/
theorem directory?_adding (b : Builder) (written : List Member) (asked : List Asked) (name : String) :
    directory? (b.adding written asked) name =
      (directory? written name).or (asked.findSome? (b.mention name)) := by
  induction asked generalizing written with
  | nil => simp [adding]
  | cons a asked ih =>
    have hrest := ih (written ++ b.added written a.request a.place)
    rw [directory?_added, Option.or_assoc] at hrest
    rw [List.findSome?_cons]
    refine hrest.trans (congrArg _ ?_)
    cases b.mention name a <;> rfl

end Builder

/-! ## The requests of steps -/

/-- What a step asks for, but for the content of imported files: that is read when
    its turn comes. -/
def Step.calls (fs : FileSystem) (root : Option String) : Step → List Asked
  | .add r => [⟨r, .entry root r.name⟩]
  | .importFile name _ mode => [⟨Builder.storedFile name .empty mode, .entry root name⟩]
  | .importTree dest source mode =>
    if fs.isDirectory source then
      match fs.walk source with
      | .ok walk => walk.spots.flatMap (itemRequest fs root dest mode)
      | .error _ => []
    else [⟨Builder.storedFile dest .empty mode, .entry root dest⟩]
  | .close | .finish => []

namespace Builder

/-- All that is asked of an archive: its root directory, if there is to be one, and
    what the steps ask for. -/
def called (root : Option String) (history : List (FileSystem × Step)) : List Asked :=
  rootRequest root ++ history.flatMap fun x => x.2.calls x.1 root

/-- From one builder to another without a failure before: what is said about
    directories is what the requests say, as far as nothing was said before. -/
structure Tells (asked : List Asked) (b b' : Builder) : Prop where
  said : ∀ name, directory? b'.members name =
    (directory? b.members name).or (asked.findSome? (b.mention name))
  like : b'.Like b
  tallied : b'.Tallied

section
variable {fs : FileSystem} {asked more : List Asked} {b b' b'' : Builder}

theorem Tells.refl (hb : b.Tallied) : Tells [] b b :=
  ⟨fun _ => (Option.or_none).symm, .refl b, hb⟩

theorem Tells.trans (h : Tells asked b b') (h' : Tells more b' b'') : Tells (asked ++ more) b b'' := by
  refine ⟨fun name => ?_, h'.like.trans h.like, h'.tallied⟩
  rw [h'.said, h.said, h.like.mention, List.findSome?_append, Option.or_assoc]

theorem Adds.tells (h : Adds asked b b') : Tells asked b b' := by
  refine ⟨fun name => ?_, h.like, h.tallied⟩
  rw [h.members, directory?_adding]

theorem addAt_tells {r : Request} {p : Placement} (hp : p.Plain) (hb : b.Tallied)
    (h : addAt r p b = .ok () b') : Tells [⟨r, p⟩] b b' :=
  (addAt_adds hp hb h).tells

/-- The content of a file has no part in what is said about directories. -/
theorem mention_storedFile (b : Builder) (directory name : String) (p : Placement)
    (content other : Content) (mode : Option UInt32) :
    b.mention directory ⟨storedFile name content mode, p⟩ =
      b.mention directory ⟨storedFile name other mode, p⟩ := by
  have hmentions : ∀ content, (Asked.mk (storedFile name content mode) p).Mentions directory ↔
      directory ∈ p.ancestors := by
    intro content
    simp [Asked.Mentions, storedFile, Request.file]
  unfold mention
  simp only [hmentions]
  split <;> rfl

theorem storedFile_tells {name : String} {p : Placement} {content other : Content}
    {mode : Option UInt32} (h : Tells [⟨storedFile name content mode, p⟩] b b') :
    Tells [⟨storedFile name other mode, p⟩] b b' := by
  refine ⟨fun directory => ?_, h.like, h.tallied⟩
  rw [h.said, List.findSome?_cons, List.findSome?_cons,
    mention_storedFile b directory name p content other mode]

theorem start_tells {o : Options} {sink : Sink} (h : start o sink = .ok () b) :
    Tells (rootRequest (fresh o sink).root) (fresh o sink) b :=
  (start_adds h).tells

theorem importFile_tells {name : String} {source : Bytes} {mode : Option UInt32} (hb : b.Tallied)
    (h : importFile fs name source mode b = .ok () b') :
    Tells [⟨storedFile name .empty mode, .entry b.root name⟩] b b' := by
  obtain ⟨loc, content, -, -, hadd⟩ := importFile_ok h
  exact storedFile_tells (addAt_tells (Placement.plain_entry _ _) hb hadd)

theorem importItem_tells {dest : String} {mode : Option UInt32} {spot : Spot} (hb : b.Tallied)
    (h : importItem fs dest mode spot b = .ok () b') :
    Tells (itemRequest fs b.root dest mode spot) b b' := by
  obtain ⟨name, hname, ⟨m, hnode, hadd⟩ | ⟨m, bytes, content, hnode, -, hadd⟩ | ⟨hnone, htell⟩⟩ :=
    importItem_ok h
  · rw [itemRequest, hname, hnode]
    exact (addInTree_adds hb hadd).tells
  · rw [itemRequest, hname, hnode]
    exact storedFile_tells (addInTree_adds hb hadd).tells
  · rw [hnone]
    exact (tell_adds hb htell).tells

theorem importWalk_tells {dest : String} {mode : Option UInt32} {walk : Walk} (hb : b.Tallied)
    (h : importWalk fs dest mode walk b = .ok () b') :
    Tells (walk.spots.flatMap (itemRequest fs b.root dest mode)) b b' := by
  have hkeep : ∀ {asked b₁ b₂}, b₁.Tallied ∧ b₁.Like b → Tells asked b₁ b₂ →
      b₂.Tallied ∧ b₂.Like b := fun hb₁ h => ⟨h.tallied, h.like.trans hb₁.2⟩
  refine forM_gathers (R := Tells) (fun hb => .refl hb.1) Tells.trans hkeep ?_ ⟨hb, .refl b⟩ (importWalk_ok h).2
  intro spot _ b₁ b₂ ⟨hb₁, hlike⟩ hitem
  rw [← hlike.root]
  exact importItem_tells hb₁ hitem

theorem importTree_tells {dest : String} {source : Bytes} {mode : Option UInt32} (hb : b.Tallied)
    (h : importTree fs dest source mode b = .ok () b') :
    Tells ((Step.importTree dest source mode).calls fs b.root) b b' := by
  rw [Step.calls]
  rcases importTree_ok h with ⟨hdir, walk, hwalk, hitems⟩ | ⟨hdir, hfile⟩
  · rw [if_pos hdir, hwalk]
    exact importWalk_tells hb hitems
  · rw [if_neg (Bool.eq_false_iff.1 hdir)]
    exact importFile_tells hb hfile

/-- **A step that succeeds tells what is asked of it.** -/
theorem step_tells {s : Step} (hb : b.Tallied) (h : s.run fs b = .ok () b') :
    Tells (s.calls fs b.root) b b' := by
  cases s with
  | add r => exact addAt_tells (Placement.plain_entry _ _) hb h
  | importFile name source mode => exact importFile_tells hb h
  | importTree dest source mode => exact importTree_tells hb h
  | close => exact (close_adds hb h).tells
  | finish => exact (finish_adds hb h).tells

/-- **Steps that succeed, one after the other.** -/
theorem Ran.tells {history : List (FileSystem × Step)} (h : Ran b history b') (hb : b.Tallied) :
    Tells (history.flatMap fun x => x.2.calls x.1 b.root) b b' := by
  induction h with
  | nil => exact .refl hb
  | cons first _ ih =>
    have hfirst := step_tells hb first
    have hrest := ih hfirst.tallied
    rw [hfirst.like.root] at hrest
    exact hfirst.trans hrest

end

/-! ## Archives -/

section
variable {o : Options} {sink : Sink} {begun b : Builder} {history : List (FileSystem × Step)}

/-- What is said about a directory of an archive is what the first of all requests
    says that mentions it. -/
theorem directory?_of_ran (hstart : start o sink = .ok () begun) (hrun : Ran begun history b)
    (name : String) : directory? b.members name =
      (called begun.root history).findSome? ((fresh o sink).mention name) := by
  have hroot := start_tells hstart
  rw [← hroot.like.root] at hroot
  have hall : Tells (called begun.root history) (fresh o sink) b :=
    hroot.trans (hrun.tells hroot.tallied)
  exact (hall.said name).trans (Option.none_or)

theorem tallied_of_ran (hstart : start o sink = .ok () begun) (hrun : Ran begun history b) :
    b.Tallied :=
  (hrun.tells (start_tells hstart).tallied).tallied

/-- **There is a directory of a name just if a request mentions it.** -/
theorem mem_directoryNames_of_ran (hstart : start o sink = .ok () begun) (hrun : Ran begun history b)
    {name : String} :
    name ∈ directoryNames b.members ↔ ∃ a ∈ called begun.root history, a.Mentions name := by
  rw [← not_iff_not, ← directory?_eq_none_iff, directory?_of_ran hstart hrun,
    List.findSome?_eq_none_iff]
  simp only [mention_eq_none_iff, not_exists, not_and]

theorem Ran.members_prefix (h : Ran begun history b) : begun.members <+: b.members := by
  induction h with
  | nil => exact List.prefix_rfl
  | @cons fs s _ b₁ _ _ first _ ih =>
    have hmoves : Moves _ b₁ _ := (s.does fs b₁).ok first
    exact hmoves.members_prefix.trans ih

end

end Builder

/-- What a request says about a directory that it mentions, where an archive says
    the rest. -/
inductive Asked.Says (o : Options) (a : Asked) (e : Entry) : Prop
  /-- A directory on the way is as usual, and belongs to the owner of the request. -/
  | onTheWay (above : e.name ∈ a.place.ancestors) (mode : e.mode = 0o755)
      (mtime : e.mtime = o.mtime.seconds) (owner : e.owner = a.request.owner.getD o.owner)
  /-- The directory asked for is as usual where the request leaves it open. -/
  | itself (kind : a.request.kind = .directory) (name : e.name = a.place.name)
      (mode : e.mode = a.request.mode.getD 0o755)
      (mtime : e.mtime = a.request.mtime.getD o.mtime.seconds)
      (owner : e.owner = a.request.owner.getD o.owner)

namespace Builder

theorem says_of_mention {o : Options} {sink : Sink} {name : String} {a : Asked} {e : Entry}
    (h : (fresh o sink).mention name a = some e) : a.Says o e := by
  unfold mention at h
  split at h
  · next hway =>
    cases h
    exact .onTheWay hway rfl rfl rfl
  split at h
  · next hway hmentions =>
    obtain ⟨hk, -, rfl⟩ := hmentions.resolve_left hway
    cases h
    refine .itself hk rfl ?_ rfl rfl
    simp only [entryFor, hk]
    rfl
  · cases h

section
variable {o : Options} {sink sink' : Sink} {begun begun' b b' : Builder}
  {history history' : List (FileSystem × Step)}

/-- **The first mention of a directory counts.**  Where an archive can be opened and
    all steps succeed, each of its directories is there once and is what the first
    of all requests says that mentions it, and every directory that is mentioned is
    there.  What is written stays as it is whatever comes after it. -/
theorem first_mention_counts (hstart : start o sink = .ok () begun) (hrun : Ran begun history b) :
    (directoryNames b.members).Nodup ∧
      (∀ m ∈ b.members, m.entry.kind = .directory → ∃ before a later,
        called begun.root history = before ++ a :: later ∧
          (∀ a' ∈ before, ¬ a'.Mentions m.entry.name) ∧ a.Mentions m.entry.name ∧
          a.Says o m.entry) ∧
      (∀ a ∈ called begun.root history, ∀ name, a.Mentions name →
        name ∈ directoryNames b.members) ∧
      (∀ done rest now, history = done ++ rest → Ran begun done now → Ran now rest b →
        now.members <+: b.members) ∧
      (sink.room = none → sink.contents = [] → b.sink.contents =
        b.members.flatMap Member.encode ++ if b.isOpen then [] else endMarker) := by
  have hnodup := nodup_directoryNames (tallied_of_ran hstart hrun).orderly.follow
  refine ⟨hnodup, fun m hm hk => ?_, fun a ha name hmentions => ?_, ?_, fun hroom hempty => ?_⟩
  · have hsaid := directory?_of_mem hnodup hm hk
    rw [directory?_of_ran hstart hrun] at hsaid
    obtain ⟨before, a, later, hsplit, hmention, hbefore⟩ := List.findSome?_eq_some_iff.1 hsaid
    refine ⟨before, a, later, hsplit, fun a' ha' => mention_eq_none_iff.1 (hbefore a' ha'), ?_,
      says_of_mention hmention⟩
    by_contra hnone
    rw [mention_eq_none_iff.2 hnone] at hmention
    cases hmention
  · exact (mem_directoryNames_of_ran hstart hrun).2 ⟨a, ha, hmentions⟩
  · exact fun done rest now _ _ hrest => hrest.members_prefix
  · exact (hrun.sound (sound_start hroom hempty hstart)).contents

end

/-- A file in a directory, which is then asked for itself. -/
def lateDirectory : List (FileSystem × Step) :=
  withoutFiles [.add { Request.file "d/x" .empty with owner := some { userId := 7 } },
    .add { Request.directory "d" with mode := some 0o700 }]

/-- The file is the first to mention the directory, so its owner has it. -/
theorem first_mention_counts_lateDirectory :
    let b := (opened packageRoot {}).after lateDirectory
    Ran (opened packageRoot {}) lateDirectory b ∧
      ∃ m ∈ b.members, m.entry.name = "opt/pkg/d" ∧ m.entry.kind = .directory ∧
        ∃ before a later, called (some "opt/pkg") lateDirectory = before ++ a :: later ∧
          (∀ a' ∈ before, ¬ a'.Mentions "opt/pkg/d") ∧ a.Says packageRoot m.entry ∧
          m.entry.mode = 0o755 ∧ m.entry.owner.userId = 7 := by
  intro b
  have hstart : start packageRoot {} = .ok () (opened packageRoot {}) :=
    Outcome.ofResult_succeeds (by decide)
  have hrun : Ran (opened packageRoot {}) lateDirectory b :=
    .cons (Outcome.ofResult_succeeds (by decide)) <|
      .cons (Outcome.ofResult_succeeds (by decide)) (.nil _)
  have hroot : (opened packageRoot {}).root = some "opt/pkg" := by decide
  have hwritten : ∃ m ∈ b.members, m.entry.name = "opt/pkg/d" ∧ m.entry.kind = .directory ∧
      m.entry.mode = 0o755 ∧ m.entry.owner.userId = 7 := by decide
  obtain ⟨m, hm, hname, hk, hmode, howner⟩ := hwritten
  obtain ⟨before, a, later, hsplit, hbefore, -, hsays⟩ :=
    (first_mention_counts hstart hrun).2.1 m hm hk
  rw [hroot] at hsplit
  rw [hname] at hbefore
  exact ⟨hrun, m, hm, hname, hk, before, a, later, hsplit, hbefore, hsays, hmode, howner⟩

/-! ## Another order -/

/-- The directories that an archive begins with: its root directory, as it is read
    with every request, after those on the way to it. -/
def rootNames : Option String → List String
  | none => []
  | some r =>
    let name := (Placement.ofRoot (some r)).name
    if name = "" then [] else upperNames name ++ [name]

theorem mem_rootNames {root : Option String} {name : String} :
    name ∈ rootNames root ↔ ∃ a ∈ rootRequest root, a.Mentions name := by
  cases root with
  | none => simp [rootNames, rootRequest]
  | some r =>
    have hplain := Placement.plain_ofRoot (some r)
    have hmentions : (∃ a ∈ rootRequest (some r), a.Mentions name) ↔
        (Asked.mk (.directory "") (.ofRoot (some r))).Mentions name := by
      simp [rootRequest, Placement.entry_empty]
    rw [hmentions, Asked.Mentions, Placement.ancestors_eq_upperNames hplain rfl, rootNames]
    by_cases hempty : (Placement.ofRoot (some r)).name = ""
    · have hroot := (Placement.name_eq_empty_iff hplain).1 hempty
      simp [hempty, hroot, upperNames]
    · have hroot := mt (Placement.name_eq_empty_iff hplain).2 hempty
      simp [hempty, hroot, Request.directory]

/-- They are the root directory under its own name and those on the way to it, just
    if the name does not begin with a dot. -/
theorem rootNames_eq_iff {o : Options} {sink : Sink} {begun : Builder} {r : String}
    (hstart : start o sink = .ok () begun) (hroot : begun.root = some r) :
    rootNames (some r) = upperNames r ++ [r] ↔ ¬ (r = "." ∨ IsAbove "." r) := by
  obtain ⟨segs, hne, hplain, rfl⟩ := exists_segments_of_root hstart hroot
  rw [← head?_eq_dot_iff hplain, ← Ne, ← Placement.name_ofRoot_joined_iff hne hplain, rootNames]
  constructor
  · intro hnames
    split at hnames
    · simp at hnames
    · simpa using congrArg List.getLast? hnames
  · intro hname
    have hwritten : String.ofList (joined segs) ≠ "" :=
      fun hnone => hne (joined_injOn hplain (by simp) (String.ofList_injective hnone))
    simp only [hname, hwritten, if_false]

section
variable {o : Options} {sink sink' : Sink} {begun begun' b b' : Builder}
  {history history' : List (FileSystem × Step)}

/-- **The directories do not depend on the order.**  Where archives can be opened
    with the same options, and the same steps succeed in one order and in another,
    both hold the same directories, each once: those that an archive begins with
    and those that a request of the steps mentions.  The former are the root
    directory and those on the way to it just if its name does not begin with a
    dot. -/
theorem directories_of_perm (hstart : start o sink = .ok () begun) (hrun : Ran begun history b)
    (hstart' : start o sink' = .ok () begun') (hrun' : Ran begun' history' b')
    (hperm : history.Perm history') :
    (directoryNames b.members).Perm (directoryNames b'.members) ∧
      (directoryNames b.members).Nodup ∧ (directoryNames b'.members).Nodup ∧
      (∀ name, name ∈ directoryNames b.members ↔ name ∈ rootNames begun.root ∨
        ∃ x ∈ history, ∃ a ∈ x.2.calls x.1 begun.root, a.Mentions name) ∧
      (∀ r, begun.root = some r →
        (rootNames (some r) = upperNames r ++ [r] ↔ ¬ (r = "." ∨ IsAbove "." r))) := by
  have hnodup := nodup_directoryNames (tallied_of_ran hstart hrun).orderly.follow
  have hnodup' := nodup_directoryNames (tallied_of_ran hstart' hrun').orderly.follow
  have hroot : begun'.root = begun.root :=
    (start_adds hstart').like.root.trans (start_adds hstart).like.root.symm
  have hcalled : (called begun.root history).Perm (called begun'.root history') := by
    rw [hroot]
    exact (hperm.flatMap_right _).append_left _
  refine ⟨(List.perm_ext_iff_of_nodup hnodup hnodup').2 fun name => ?_, hnodup, hnodup',
    fun name => ?_, fun r hr => rootNames_eq_iff hstart hr⟩
  · rw [mem_directoryNames_of_ran hstart hrun, mem_directoryNames_of_ran hstart' hrun']
    simp only [hcalled.mem_iff]
  · rw [mem_directoryNames_of_ran hstart hrun, mem_rootNames]
    simp only [called, List.mem_append, List.mem_flatMap, or_and_right, exists_or]
    refine or_congr_right ⟨?_, ?_⟩
    · rintro ⟨a, ⟨x, hx, ha⟩, hmentions⟩
      exact ⟨x, hx, a, ha, hmentions⟩
    · rintro ⟨x, hx, a, ha, hmentions⟩
      exact ⟨a, ⟨x, hx, ha⟩, hmentions⟩

end

/-- Files in two directories. -/
def twoDirectories : List (FileSystem × Step) :=
  withoutFiles [.add (.file "d/x" .empty), .add (.file "e/x" .empty)]

theorem directories_of_perm_twoDirectories :
    let b := (opened packageRoot {}).after twoDirectories
    let b' := (opened packageRoot {}).after twoDirectories.reverse
    Ran (opened packageRoot {}) twoDirectories b ∧
      Ran (opened packageRoot {}) twoDirectories.reverse b' ∧
      directoryNames b.members = ["opt", "opt/pkg", "opt/pkg/d", "opt/pkg/e"] ∧
      directoryNames b'.members = ["opt", "opt/pkg", "opt/pkg/e", "opt/pkg/d"] ∧
      (directoryNames b.members).Perm (directoryNames b'.members) := by
  intro b b'
  have hstart : start packageRoot {} = .ok () (opened packageRoot {}) :=
    Outcome.ofResult_succeeds (by decide)
  have hrun : Ran (opened packageRoot {}) twoDirectories b :=
    .cons (Outcome.ofResult_succeeds (by decide)) <|
      .cons (Outcome.ofResult_succeeds (by decide)) (.nil _)
  have hrun' : Ran (opened packageRoot {}) twoDirectories.reverse b' :=
    .cons (Outcome.ofResult_succeeds (by decide)) <|
      .cons (Outcome.ofResult_succeeds (by decide)) (.nil _)
  refine ⟨hrun, hrun', by decide, by decide, ?_⟩
  exact (directories_of_perm hstart hrun hstart hrun' twoDirectories.reverse_perm.symm).1

/-- An archive below `/./x` has no directory `./x`, though that is the name of its
    root directory. -/
theorem dottedRoot_unlisted :
    let b := (opened dottedRoot {}).after (withoutFiles [.finish])
    start dottedRoot {} = .ok () (opened dottedRoot {}) ∧
      Ran (opened dottedRoot {}) (withoutFiles [.finish]) b ∧
      (opened dottedRoot {}).root = some "./x" ∧ directoryNames b.members = ["x"] ∧
      ¬ ∀ name, name ∈ directoryNames b.members ↔ name ∈ upperNames "./x" ++ ["./x"] := by
  intro b
  have hnames : directoryNames b.members = ["x"] := by decide
  refine ⟨Outcome.ofResult_succeeds (by decide),
    .cons (Outcome.ofResult_succeeds (by decide)) (.nil _), by decide, hnames, ?_⟩
  intro hall
  have hlisted : "./x" ∈ directoryNames b.members := (hall "./x").2 (by simp)
  rw [hnames] at hlisted
  simp at hlisted

end Builder

end Tarball
