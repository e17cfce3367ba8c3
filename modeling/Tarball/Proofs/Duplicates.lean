/-
  Two archives, one of them without repeats.

  The same steps are done for two archives that are to be alike but for this: in
  the one every member counts, in the other only the first one of a name.  Where
  the former goes through, so does the latter, and it holds what the former holds
  but for the members that repeat one before them.  Each of those is told about.

  * `firsts` are the members that repeat none, `repeats` those that do;
  * `Follows` says that a step succeeds wherever another one does, and keeps a
    relation between their states;
  * `Builder.Thinned` is the relation between the two archives at all times
    (`Step.run_follows`);
  * `Builder.keepFirst_eq_firsts`: what the two archives are after any steps.
-/
import Tarball.Proofs.RoundTrip

namespace Tarball

/-! ## First ones and repeats -/

section
variable {α : Type} (test : List α → α → Bool)

/-- The items of a list that pass a test against all that comes before them. -/
def filterSince (before : List α) : List α → List α
  | [] => []
  | a :: rest =>
    if test before a then a :: filterSince (before ++ [a]) rest
    else filterSince (before ++ [a]) rest

theorem filterSince_append (before l l' : List α) : filterSince test before (l ++ l') =
    filterSince test before l ++ filterSince test (before ++ l) l' := by
  induction l generalizing before with
  | nil => simp [filterSince]
  | cons a l ih =>
    simp only [List.cons_append, filterSince, ih, List.append_assoc, List.nil_append]
    split
    · rfl
    · rfl

end

/-- Whether a member repeats one before it: neither is a directory, and they have
    one name. -/
def Member.Repeats (m : Member) (before : List Member) : Prop :=
  m.entry.kind ≠ .directory ∧ m.entry.name ∈ otherNames before

instance (m : Member) (before : List Member) : Decidable (m.Repeats before) :=
  inferInstanceAs (Decidable (_ ∧ _))

/-- The members that repeat none before them. -/
def firsts (ms : List Member) : List Member :=
  filterSince (fun before m => ¬ m.Repeats before) [] ms

/-- The members that repeat one before them. -/
def repeats (ms : List Member) : List Member :=
  filterSince (fun before m => m.Repeats before) [] ms

theorem firsts_concat (ms : List Member) (m : Member) :
    firsts (ms ++ [m]) = firsts ms ++ if m.Repeats ms then [] else [m] := by
  simp [firsts, filterSince_append, filterSince]

theorem repeats_concat (ms : List Member) (m : Member) :
    repeats (ms ++ [m]) = repeats ms ++ if m.Repeats ms then [m] else [] := by
  simp [repeats, filterSince_append, filterSince]

/-- The name that a notice tells to be there more than once. -/
def Notice.repeated? : Notice → Option String
  | duplicate name => some name
  | special _ | closingFailed _ => none

/-- The names that were told to be there more than once, in that order. -/
def Builder.passedOver (b : Builder) : List String :=
  b.notices.filterMap Notice.repeated?

/-! ## Steps that follow others -/

section
variable {ε δ σ τ α β : Type}

/-- A step that succeeds wherever another one does, with the same value and a
    state that is related to the other one. -/
def Follows (R : σ → τ → Prop) (x : EStateM ε σ α) (y : EStateM δ τ α) : Prop :=
  ∀ s t a s', R s t → x s = .ok a s' → ∃ t', y t = .ok a t' ∧ R s' t'

variable {R : σ → τ → Prop}

theorem Follows.bind {x : EStateM ε σ α} {y : EStateM δ τ α} {f : α → EStateM ε σ β}
    {g : α → EStateM δ τ β} (h : Follows R x y) (hf : ∀ a, Follows R (f a) (g a)) :
    Follows R (x >>= f) (y >>= g) := by
  intro s t b s' hst hrun
  obtain ⟨a, s₁, hx, hrest⟩ := bind_eq_ok.1 hrun
  obtain ⟨t₁, hy, hst₁⟩ := h s t a s₁ hst hx
  obtain ⟨t', hg, hst'⟩ := hf a s₁ t₁ b s' hst₁ hrest
  exact ⟨t', bind_eq_ok.2 ⟨a, t₁, hy, hg⟩, hst'⟩

theorem Follows.forM {ι : Type} {f : ι → EStateM ε σ Unit} {g : ι → EStateM δ τ Unit} {l : List ι}
    (h : ∀ i ∈ l, Follows R (f i) (g i)) : Follows R (l.forM f) (l.forM g) := by
  induction l with
  | nil =>
    intro s t _ s' hst hrun
    cases hrun
    exact ⟨t, rfl, hst⟩
  | cons i l ih =>
    exact (h i List.mem_cons_self).bind fun _ => ih fun j hj => h j (List.mem_cons_of_mem _ hj)

theorem throw_follows (e : ε) (y : EStateM δ τ α) : Follows R (throw e : EStateM ε σ α) y := by
  intro s t a s' _ hrun
  cases hrun

theorem ofExcept_bind_follows {x : Except ε α} {f : α → EStateM ε σ β} {g : α → EStateM ε τ β}
    (h : ∀ a, x = .ok a → Follows R (f a) (g a)) :
    Follows R ((MonadExcept.ofExcept x : EStateM ε σ α) >>= f)
      ((MonadExcept.ofExcept x : EStateM ε τ α) >>= g) := by
  intro s t b s' hst hrun
  cases x with
  | ok a => exact h a rfl s t b s' hst hrun
  | error e => cases hrun

end

/-- Two sinks in one place, neither with a limit. -/
structure Sink.Boundless (place : Option Location) (s t : Sink) : Prop where
  left : s.room = none
  right : t.room = none
  leftPlace : s.place = place
  rightPlace : t.place = place

section
variable {place : Option Location}

theorem Sink.write_follows (bytes : Bytes) :
    Follows (Boundless place) (write bytes) (write bytes) := by
  intro s t _ s' hst hrun
  obtain ⟨s₁, hs, hroom, -⟩ := write_of_room_eq_none hst.left bytes
  obtain ⟨t₁, ht, hroom', -⟩ := write_of_room_eq_none hst.right bytes
  obtain rfl : s₁ = s' := by rw [hs] at hrun; cases hrun; rfl
  exact ⟨t₁, ht, hroom, hroom', (Builder.place_of_write hs).trans hst.leftPlace,
    (Builder.place_of_write ht).trans hst.rightPlace⟩

theorem Entry.write_follows (e : Entry) (content : Reading) :
    Follows (Sink.Boundless place) (e.write content) (e.write content) := by
  intro s t _ s' hst hrun
  obtain ⟨howner, hsize⟩ := write_ok hst.left hrun
  obtain ⟨s₁, hs, hroom, -⟩ := write_of_le hst.left howner hsize
  obtain ⟨t₁, ht, hroom', -⟩ := write_of_le hst.right howner hsize
  obtain rfl : s₁ = s' := by rw [hs] at hrun; cases hrun; rfl
  exact ⟨t₁, ht, hroom, hroom', (Builder.place_of_entry hs).trans hst.leftPlace,
    (Builder.place_of_entry ht).trans hst.rightPlace⟩

end

/-! ## Every member, or the first of a name -/

namespace Builder

/-- An archive where every member counts, and one without repeats: both are the
    same for the rest, and of each repeat there has been told. -/
structure Thinned (place : Option Location) (a k : Builder) : Prop where
  mtime : a.mtime = k.mtime
  root : a.root = k.root
  owner : a.owner = k.owner
  isOpen : a.isOpen = k.isOpen
  directories : a.directories = k.directories
  allow : a.duplicates = .allow
  keep : k.duplicates = .keepFirst
  sinks : a.sink.Boundless place k.sink
  members : k.members = firsts a.members
  claimed : ∀ name, name ∈ k.claimed ↔ name ∈ otherNames a.members
  silent : a.passedOver = []
  told : k.passedOver = (repeats a.members).map (·.entry.name)

variable {fs : FileSystem} {place : Option Location} {a k : Builder}

theorem Thinned.entryFor (h : Thinned place a k) (r : Request) (owner : Owner) (name : String) :
    a.entryFor r owner name = k.entryFor r owner name := by
  rw [Builder.entryFor, Builder.entryFor, h.mtime]

theorem members_written (m : Member) (b : Builder) (claimed : List String) (s : Sink) :
    (record m { b with claimed, sink := s }).members = b.members ++ [m] :=
  members_record m _

/-- A member that repeats none is written to both. -/
theorem Thinned.record_first (h : Thinned place a k) {m : Member} (hm : ¬ m.Repeats a.members)
    {claimed : List String} {s t : Sink} (hst : s.Boundless place t)
    (hclaimed : ∀ name, name ∈ claimed ↔ name ∈ otherNames (a.members ++ [m])) :
    Thinned place (record m { a with sink := s }) (record m { k with claimed, sink := t }) where
  mtime := h.mtime
  root := h.root
  owner := h.owner
  isOpen := h.isOpen
  directories := by
    unfold record
    dsimp only
    rw [h.directories]
  allow := h.allow
  keep := h.keep
  sinks := hst
  members := by rw [members_written, members_written, firsts_concat, if_neg hm, h.members]
  claimed := by
    rw [members_written]
    exact hclaimed
  silent := h.silent
  told := by
    rw [members_written, repeats_concat, if_neg hm, List.append_nil]
    exact h.told

/-- A repeat is written to one of them, and told about in the other. -/
theorem Thinned.record_repeat (h : Thinned place a k) {m : Member} (hm : m.Repeats a.members) {s : Sink}
    (hst : s.Boundless place k.sink) : Thinned place (record m { a with sink := s })
      { k with noticeLog := .duplicate m.entry.name :: k.noticeLog } where
  mtime := h.mtime
  root := h.root
  owner := h.owner
  isOpen := h.isOpen
  directories := by
    unfold record
    dsimp only
    rw [if_neg hm.1, h.directories]
  allow := h.allow
  keep := h.keep
  sinks := hst
  members := by
    rw [members_written, firsts_concat, if_pos hm, List.append_nil]
    exact h.members
  claimed := by
    intro name
    have hthere : name ∈ otherNames [m] → name ∈ otherNames a.members := by
      intro hname
      obtain ⟨m', hm', -, rfl⟩ := mem_otherNames.1 hname
      obtain rfl := List.mem_singleton.1 hm'
      exact hm.2
    rw [members_written, otherNames_append, List.mem_append]
    exact (h.claimed name).trans ⟨.inl, fun hname => hname.elim id hthere⟩
  silent := h.silent
  told := by
    have htold : k.passedOver = (repeats a.members).map (·.entry.name) := h.told
    unfold passedOver notices at htold ⊢
    rw [members_written, repeats_concat, if_pos hm, List.map_append, List.reverse_cons,
      List.filterMap_append, htold]
    rfl

/-- A member that is written is written as a first one, whatever the names claimed
    then are. -/
theorem store_follows {e : Entry} {content : Reading} {claimed : List String} {a' : Builder}
    (h : Thinned place a k) (hfree : e.kind = .directory ∨ e.name ∉ otherNames a.members)
    (hclaimed : claimed = if e.kind = .directory then k.claimed else e.name :: k.claimed)
    (hrun : store e content a = .ok () a') :
    ∃ k', store e content { k with claimed } = .ok () k' ∧ Thinned place a' k' := by
  obtain ⟨s, hwrite, rfl⟩ := store_ok hrun
  obtain ⟨t, hwrite', hst⟩ := e.write_follows content _ _ _ _ h.sinks hwrite
  have hstore : store e content { k with claimed } = .ok ()
      (record ⟨e, content.bytes.take e.size.toNat⟩ { k with claimed, sink := t }) := by
    rw [store_eq]
    simp only [hwrite']
  refine ⟨_, hstore, h.record_first ?_ hst ?_⟩
  · rintro ⟨hk, hname⟩
    exact hfree.elim hk fun hnew => hnew hname
  · intro name
    rw [hclaimed, otherNames_append, List.mem_append, ← h.claimed name]
    by_cases hk : e.kind = .directory
    · simp [hk, otherNames]
    · simp [hk, otherNames, or_comm]

theorem addMissing_follows (owner : Owner) (name : String) :
    Follows (Thinned place) (addMissing owner name) (addMissing owner name) := by
  intro a k _ a' h hrun
  rw [addMissing_eq] at hrun ⊢
  rw [← h.directories]
  split at hrun
  · next hin =>
    cases hrun
    exact ⟨k, if_pos hin, h⟩
  · next hin =>
    have hentry : k.directoryEntry owner name = a.directoryEntry owner name := by
      rw [directoryEntry, directoryEntry, h.mtime]
    rw [if_neg hin, hentry]
    exact store_follows h (.inl rfl) (if_pos rfl).symm hrun

/-- What becomes of a request where the directories on the way are there: under a
    name that was taken it is written to one of the archives only. -/
theorem settle_follows (r : Request) (owner : Owner) (p : Placement) :
    Follows (Thinned place) (settle r owner p) (settle r owner p) := by
  intro a k _ a' h hrun
  unfold settle at hrun ⊢
  have hkeep : k.duplicates ≠ .allow := by rw [h.keep]; exact Duplicates.noConfusion
  by_cases hroot : p.isRoot
  · rw [if_pos hroot] at hrun ⊢
    by_cases hk : r.kind = .directory
    · rw [if_pos hk] at hrun ⊢
      cases hrun
      exact ⟨k, rfl, h⟩
    · rw [if_neg hk] at hrun
      cases hrun
  rw [if_neg hroot] at hrun ⊢
  by_cases hin : p.name ∈ a.directories
  · rw [if_pos hin] at hrun
    rw [if_pos (h.directories ▸ hin)]
    cases hrun
    exact ⟨k, rfl, h⟩
  rw [if_neg hin, if_pos (.inr h.allow)] at hrun
  rw [if_neg (h.directories ▸ hin), ← h.entryFor]
  by_cases hk : r.kind = .directory
  · rw [if_pos (.inl hk)]
    exact store_follows h (.inl hk) (if_pos hk).symm hrun
  rw [if_neg (not_or.2 ⟨hk, hkeep⟩)]
  by_cases hname : p.name ∈ otherNames a.members
  · rw [if_pos ((h.claimed p.name).2 hname)]
    obtain ⟨s, hwrite, rfl⟩ := store_ok hrun
    obtain ⟨t, -, hst⟩ := Entry.write_follows _ _ _ _ _ _ h.sinks hwrite
    have hsinks : s.Boundless place k.sink :=
      ⟨hst.left, h.sinks.right, hst.leftPlace, h.sinks.rightPlace⟩
    exact ⟨_, rfl, h.record_repeat ⟨hk, hname⟩ hsinks⟩
  · rw [if_neg fun hclaimed => hname ((h.claimed p.name).1 hclaimed)]
    exact store_follows h (.inr hname) (if_neg hk).symm hrun

/-- **An addition** that goes through where every member counts does so where the
    first one counts. -/
theorem addAt_follows (r : Request) (p : Placement) :
    Follows (Thinned place) (addAt r p) (addAt r p) := by
  intro a k _ a' h hrun
  rw [addAt_eq] at hrun ⊢
  rw [← h.isOpen, ← h.owner]
  split at hrun
  · next ho =>
    rw [if_pos ho]
    have hfill : Follows (Thinned place) (p.ancestors.forM (addMissing (r.owner.getD a.owner)))
        (p.ancestors.forM (addMissing (r.owner.getD a.owner))) :=
      .forM fun name _ => addMissing_follows _ name
    exact hfill.bind (fun _ => settle_follows r _ p) a k () a' h hrun
  · cases hrun

theorem add_follows (r : Request) : Follows (Thinned place) (add r) (add r) := by
  intro a k _ a' h hrun
  have hadd : addAt r (.entry a.root r.name) a = .ok () a' := hrun
  rw [h.root] at hadd
  exact addAt_follows r _ a k () a' h hadd

theorem addInTree_follows (r : Request) : Follows (Thinned place) (addInTree r) (addInTree r) := by
  intro a k _ a' h hrun
  have hadd : addAt r (.treeEntry a.root r.name) a = .ok () a' := hrun
  rw [h.root] at hadd
  exact addAt_follows r _ a k () a' h hadd

theorem tell_follows {notice : Notice} (hnotice : notice.repeated? = none) :
    Follows (Thinned place) (tell notice) (tell notice) := by
  intro a k _ a' h hrun
  cases hrun
  have htell : ∀ b : Builder,
      passedOver { b with noticeLog := notice :: b.noticeLog } = b.passedOver := by
    intro b
    simp [passedOver, notices, hnotice]
  exact ⟨_, rfl, h.mtime, h.root, h.owner, h.isOpen, h.directories, h.allow, h.keep, h.sinks,
    h.members, h.claimed, (htell a).trans h.silent, (htell k).trans h.told⟩

theorem requireOpen_follows : Follows (Thinned place) requireOpen requireOpen := by
  intro a k _ a' h hrun
  rw [requireOpen_eq] at hrun ⊢
  rw [← h.isOpen]
  split at hrun
  · next ho => cases hrun; exact ⟨k, if_pos ho, h⟩
  · cases hrun

theorem close_follows : Follows (Thinned place) close close := by
  intro a k _ a' h hrun
  rw [close_eq] at hrun ⊢
  rw [← h.isOpen]
  split at hrun
  · next ho =>
    unfold writing at hrun ⊢
    dsimp only at hrun ⊢
    split at hrun
    · next s hs =>
      cases hrun
      obtain ⟨t, ht, hst⟩ := Sink.write_follows endMarker _ _ _ _ h.sinks hs
      rw [if_pos ho, ht]
      exact ⟨_, rfl, h.mtime, h.root, h.owner, rfl, h.directories, h.allow, h.keep, hst, h.members,
        h.claimed, h.silent, h.told⟩
    · cases hrun
  · next ho => cases hrun; exact ⟨k, if_neg ho, h⟩

theorem finish_follows : Follows (Thinned place) finish finish :=
  requireOpen_follows.bind fun _ => close_follows

/-! ## Imports -/

/-- What lies elsewhere than the archive gives the same to both. -/
theorem openNow_follows {loc : Location} (happart : place ≠ some loc) :
    Follows (Thinned place) (openNow fs loc) (openNow fs loc) := by
  intro a k content a' h hrun
  have hsame : fs.openDuring k.sink loc = fs.openDuring a.sink loc := by
    rw [openDuring_of_ne (h.sinks.rightPlace ▸ happart),
      openDuring_of_ne (h.sinks.leftPlace ▸ happart)]
  unfold openNow at hrun ⊢
  rw [bind_get] at hrun ⊢
  rw [hsame]
  cases hopen : fs.openDuring a.sink loc with
  | ok c => rw [hopen] at hrun; cases hrun; exact ⟨k, rfl, h⟩
  | error cause => rw [hopen] at hrun; cases hrun

theorem importFile_follows {name : String} {source : Bytes} {mode : Option UInt32}
    (happart : fs.Apart place source) :
    Follows (Thinned place) (importFile fs name source mode) (importFile fs name source mode) :=
  ofExcept_bind_follows fun loc hloc =>
    (openNow_follows (happart.top loc hloc)).bind fun _ => add_follows _

theorem importItem_follows {dest : String} {mode : Option UInt32} {spot : Spot}
    (happart : place ≠ some spot.location) :
    Follows (Thinned place) (importItem fs dest mode spot) (importItem fs dest mode spot) := by
  refine ofExcept_bind_follows fun name _ => ?_
  cases fs.node? spot.location with
  | none => exact tell_follows rfl
  | some node =>
    cases node with
    | directory => exact addInTree_follows _
    | file =>
      refine Follows.bind ?_ fun _ => addInTree_follows _
      unfold openSpot
      split
      · exact throw_follows _ _
      · exact openNow_follows happart
    | link | socket | nullDevice | fullDevice => exact tell_follows rfl

theorem importWalk_follows {dest : String} {mode : Option UInt32} {walk : Walk}
    (happart : ∀ spot ∈ walk.spots, place ≠ some spot.location) :
    Follows (Thinned place) (importWalk fs dest mode walk) (importWalk fs dest mode walk) := by
  refine (Follows.forM fun spot hspot => importItem_follows (happart spot hspot)).bind fun _ => ?_
  split
  · exact throw_follows _ _
  · intro a k _ a' h hrun
    cases hrun
    exact ⟨k, rfl, h⟩

theorem importTree_follows {dest : String} {source : Bytes} {mode : Option UInt32}
    (happart : fs.Apart place source) :
    Follows (Thinned place) (importTree fs dest source mode) (importTree fs dest source mode) := by
  refine requireOpen_follows.bind fun _ => ofExcept_bind_follows fun node _ => ?_
  split
  · exact ofExcept_bind_follows fun walk hwalk => importWalk_follows (happart.items walk hwalk)
  · exact importFile_follows happart

end Builder

/-! ## Steps -/

/-- Whether a step reads nothing that lies in a place. -/
def Step.Apart (fs : FileSystem) (place : Option Location) : Step → Prop
  | importFile _ source _ | importTree _ source _ => fs.Apart place source
  | add _ | close | finish => True

/-- **A step that goes through where every member counts does so where the first
    one counts**, and leaves the two archives related. -/
theorem Step.run_follows {fs : FileSystem} {place : Option Location} {s : Step}
    (h : s.Apart fs place) : Follows (Builder.Thinned place) (s.run fs) (s.run fs) := by
  cases s with
  | add r => exact Builder.add_follows r
  | importFile name source mode => exact Builder.importFile_follows h
  | importTree dest source mode => exact Builder.importTree_follows h
  | close => exact Builder.close_follows
  | finish => exact Builder.finish_follows

namespace Builder

/-- Steps that succeed, one after the other, each in the file system as it is by
    then. -/
inductive Ran : Builder → List (FileSystem × Step) → Builder → Prop
  | nil (b : Builder) : Ran b [] b
  | cons {fs : FileSystem} {s : Step} {history : List (FileSystem × Step)} {b b₁ b' : Builder}
      (first : s.run fs b = .ok () b₁) (rest : Ran b₁ history b') : Ran b ((fs, s) :: history) b'

theorem Ran.sound {b b' : Builder} {history : List (FileSystem × Step)} (h : Ran b history b')
    (hb : b.Sound) : b'.Sound := by
  induction h with
  | nil => exact hb
  | @cons fs s _ b _ _ first _ ih =>
    have hmoves : Moves _ b _ := (s.does fs b).ok first
    exact ih (hmoves.sound hb)

/-- **Steps that go through where every member counts do so where the first one
    counts.** -/
theorem Ran.thinned {place : Option Location} {a a' k : Builder}
    {history : List (FileSystem × Step)} (hrun : Ran a history a')
    (happart : ∀ x ∈ history, x.2.Apart x.1 place) (h : Thinned place a k) :
    ∃ k', Ran k history k' ∧ Thinned place a' k' := by
  induction hrun generalizing k with
  | nil => exact ⟨k, .nil k, h⟩
  | cons first _ ih =>
    obtain ⟨k₁, hfirst, h₁⟩ := Step.run_follows (happart _ List.mem_cons_self) _ _ _ _ h first
    obtain ⟨k', hrest, h'⟩ := ih (fun x hx => happart x (List.mem_cons_of_mem _ hx)) h₁
    exact ⟨k', .cons hfirst hrest, h'⟩

theorem thinned_fresh (o : Options) {sink : Sink} (hroom : sink.room = none) :
    Thinned sink.place (fresh { o with duplicates := .allow } sink)
      (fresh { o with duplicates := .keepFirst } sink) :=
  ⟨rfl, rfl, rfl, rfl, rfl, rfl, rfl, ⟨hroom, hroom, rfl, rfl⟩, rfl, fun _ => Iff.rfl, rfl, rfl⟩

theorem addRoot_follows {place : Option Location} : Follows (Thinned place) addRoot addRoot := by
  intro a k _ a' h hrun
  rw [addRoot_eq] at hrun ⊢
  rw [← h.root]
  split at hrun
  · next hroot => rw [if_pos hroot]; exact add_follows _ a k () a' h hrun
  · next hroot => cases hrun; exact ⟨k, if_neg hroot, h⟩

/-- **Keeping the first of a name is leaving out the repeats.**  Where an archive in
    which every member counts can be opened and all steps succeed, the same can
    be done where the first of a name counts.  That archive holds the same members
    in the same order but for those that repeat one before them.  There it is told
    of each of these once, and of none in the other archive. -/
theorem keepFirst_eq_firsts {o : Options} {sink : Sink} {begun a : Builder}
    {history : List (FileSystem × Step)} (hroom : sink.room = none)
    (happart : ∀ x ∈ history, x.2.Apart x.1 sink.place)
    (hstart : start { o with duplicates := .allow } sink = .ok () begun)
    (hrun : Ran begun history a) :
    ∃ begun' k, start { o with duplicates := .keepFirst } sink = .ok () begun' ∧
      Ran begun' history k ∧
      k.members = firsts a.members ∧
      k.passedOver = (repeats a.members).map (·.entry.name) ∧ a.passedOver = [] ∧
      (sink.contents = [] → k.sink.contents = (firsts a.members).flatMap Member.encode ++
        if a.isOpen then [] else endMarker) := by
  obtain ⟨begun', hstart', hbegun⟩ := addRoot_follows _ _ _ _ (thinned_fresh o hroom) hstart
  obtain ⟨k, hrun', h⟩ := hrun.thinned happart hbegun
  refine ⟨begun', k, hstart', hrun', h.members, h.told, h.silent, fun hempty => ?_⟩
  have hsound : k.Sound := hrun'.sound (sound_start hroom hempty hstart')
  rw [hsound.contents, h.members, h.isOpen]

/-- A file added once more, with other content. -/
def repeatedSteps : List (FileSystem × Step) :=
  withoutFiles [.add (.file "f" (.bytes [1])), .add (.file "f" (.bytes [2])), .finish]

theorem keepFirst_eq_firsts_repeated :
    let a := (opened {} {}).after repeatedSteps
    Ran (opened {} {}) repeatedSteps a ∧ a.members.map (·.content) = [[1], [2]] ∧
      ∃ begun k, start { duplicates := .keepFirst } {} = .ok () begun ∧
        Ran begun repeatedSteps k ∧ k.members.map (·.content) = [[1]] ∧ k.passedOver = ["f"] := by
  intro a
  have hstart : start {} {} = .ok () (opened {} {}) := Outcome.ofResult_succeeds (by decide)
  have hrun : Ran (opened {} {}) repeatedSteps a :=
    .cons (Outcome.ofResult_succeeds (by decide)) <|
      .cons (Outcome.ofResult_succeeds (by decide)) <|
        .cons (Outcome.ofResult_succeeds (by decide)) (.nil _)
  have hcontents : (firsts a.members).map (·.content) = [[1]] := by decide
  have htold : (repeats a.members).map (·.entry.name) = ["f"] := by decide
  have happart : ∀ x ∈ repeatedSteps, x.2.Apart x.1 ({} : Sink).place := by
    simp [repeatedSteps, withoutFiles, Step.Apart]
  obtain ⟨begun, k, hbegun, hrun', hmembers, hpassed, -, -⟩ :=
    keepFirst_eq_firsts (o := {}) rfl happart hstart hrun
  rw [htold] at hpassed
  exact ⟨hrun, by decide, begun, k, hbegun, hrun', hmembers ▸ hcontents, hpassed⟩

end Builder

end Tarball
