/-
  Files whose content is read.

  Content that is read while a file is written is bounded by the size announced for it.
  With enough of it there is no difference to a file whose bytes were at hand; with too
  little, what there is has been written, and the addition fails.

  * `Builder.merged` is a builder that does not show the single writes to its sink;
  * `Builder.addAt_alike`: readings that are the same as far as the announced size goes
    lead to the same archive;
  * `Builder.preamble` is what is written for a request before its content
    (`Builder.add_of_le` and `Builder.add_of_lt`: what is written in all);
  * `Builder.add_stream`: what is written of content that is read, and what is taken of it.
-/
import Tarball.Proofs.Additions
import Tarball.Proofs.Metering

namespace Tarball

/-- Readings that are the same as far as the size of an entry goes are written alike. -/
theorem Entry.write_alike {e : Entry} {r r' : Reading} (h : r.Alike e.size.toNat r') {s t : Sink}
    (hst : s.merged = t.merged) :
    seenAs Sink.merged (e.write r s) = seenAs Sink.merged (e.write r' t) := by
  refine seenAs_bind (Sink.write_congr hst _) fun _ s t hst => ?_
  cases howner : e.owner.fault with
  | some fault => exact congrArg (EStateM.Result.error fault) hst
  | none =>
    refine seenAs_bind (Sink.write_congr hst _) fun _ s t hst => ?_
    have hcopy : seenAs Sink.merged (Sink.copy r.failure e.size.toNat r.chunks s) =
        seenAs Sink.merged (Sink.copy r'.failure e.size.toNat r'.chunks t) := by
      rw [Sink.copy_merged, Sink.copy_merged, ← Sink.fill_eq_of_alike h, Sink.fill_congr hst]
    exact seenAs_bind hcopy fun _ s t hst => Sink.write_congr hst _

/-- A request with other content. -/
def Request.withContent (q : Request) (c : Content) : Request := { q with content := c }

/-- What is stored for a request with other content of the same size. -/
theorem Request.stored_withContent {q : Request} {c : Content} (hsize : q.content.size = c.size)
    (h : q.content.reading.Alike q.content.size.toNat c.reading) :
    (q.withContent c).stored.size = q.stored.size ∧
      q.stored.reading.Alike q.stored.size.toNat (q.withContent c).stored.reading := by
  unfold Request.withContent Request.stored
  cases q.kind with
  | file => exact ⟨hsize.symm, h⟩
  | directory => exact ⟨rfl, rfl, rfl⟩
  | symlink => exact ⟨rfl, rfl, rfl⟩

namespace Builder

/-! ## Content that is the same -/

/-- A builder as it would be had its sink been filled by a single write. -/
def merged (b : Builder) : Builder := { b with sink := b.sink.merged }

/-- Builders that look the same differ in their sinks only, and these look the same. -/
theorem eq_of_merged {b b' : Builder} (h : b.merged = b'.merged) :
    ∃ t, b' = { b with sink := t } ∧ b.sink.merged = t.merged := by
  refine ⟨b'.sink, ?_, congrArg sink h⟩
  cases b
  cases b'
  simp_all [merged]

section
variable {b b' : Builder} {q : Request} {c : Content} {owner : Owner} {p : Placement}

theorem store_alike {e : Entry} {r r' : Reading} (h : r.Alike e.size.toNat r')
    (hb : b.merged = b'.merged) : seenAs merged (store e r b) = seenAs merged (store e r' b') := by
  obtain ⟨t, rfl, hst⟩ := eq_of_merged hb
  rw [store_eq, store_eq, h.bytes]
  obtain ⟨_, s₁, t₁, hs, ht, hst⟩ | ⟨cause, s₁, t₁, hs, ht, hst⟩ :=
    seenAs_cases (Entry.write_alike h hst)
  · simp only [hs, ht, seenAs, merged, record, hst]
  · simp only [hs, ht, seenAs, merged, hst]

theorem addMissing_alike (hb : b.merged = b'.merged) (name : String) :
    seenAs merged (addMissing owner name b) = seenAs merged (addMissing owner name b') := by
  obtain ⟨t, rfl, hst⟩ := eq_of_merged hb
  rw [addMissing_eq, addMissing_eq]
  split
  · exact congrArg (EStateM.Result.ok ()) hb
  · exact store_alike ⟨rfl, rfl⟩ hb

theorem backfill_alike (hb : b.merged = b'.merged) (names : List String) :
    seenAs merged (names.forM (addMissing owner) b) =
      seenAs merged (names.forM (addMissing owner) b') := by
  induction names generalizing b b' with
  | nil => exact congrArg (EStateM.Result.ok ()) hb
  | cons name names ih => exact seenAs_bind (addMissing_alike hb name) fun _ _ _ hb => ih hb

theorem settle_alike (hsize : q.content.size = c.size)
    (h : q.content.reading.Alike q.content.size.toNat c.reading) (hb : b.merged = b'.merged) :
    seenAs merged (settle q owner p b) = seenAs merged (settle (q.withContent c) owner p b') := by
  obtain ⟨hstored, halike⟩ := Request.stored_withContent hsize h
  obtain ⟨t, rfl, hst⟩ := eq_of_merged hb
  have hentry : b.entryFor (q.withContent c) owner p.name = b.entryFor q owner p.name := by
    rw [entryFor, entryFor, hstored]
    rfl
  have hstore : ∀ claimed, seenAs merged (store (b.entryFor q owner p.name) q.stored.reading
        { b with claimed := claimed }) =
      seenAs merged (store (b.entryFor (q.withContent c) owner p.name)
        (q.withContent c).stored.reading { b with claimed := claimed, sink := t }) := by
    intro claimed
    have hclaimed : merged { b with claimed := claimed } =
        merged { b with claimed := claimed, sink := t } := by simp only [merged, hst]
    rw [hentry]
    exact store_alike halike hclaimed
  have hkind : (q.withContent c).kind = q.kind := rfl
  have hname : (q.withContent c).name = q.name := rfl
  unfold settle
  rw [hkind, hname]
  split
  · split
    · exact congrArg (EStateM.Result.ok ()) hb
    · exact congrArg (EStateM.Result.error _) hb
  split
  · exact congrArg (EStateM.Result.ok ()) hb
  split
  · exact hstore b.claimed
  split
  · refine congrArg (EStateM.Result.ok ()) ?_
    simp only [merged, hst]
  · exact hstore (p.name :: b.claimed)

/-- **Content that is the same as far as its size goes** makes the same archive, whatever
    stands in the way. -/
theorem addAt_alike (hsize : q.content.size = c.size)
    (h : q.content.reading.Alike q.content.size.toNat c.reading) (hb : b.merged = b'.merged) :
    seenAs merged (addAt q p b) = seenAs merged (addAt (q.withContent c) p b') := by
  have hsettle : ∀ b b', b.merged = b'.merged → ∀ owner,
      seenAs merged (settle q owner p b) = seenAs merged (settle (q.withContent c) owner p b') :=
    fun _ _ hb _ => settle_alike hsize h hb
  obtain ⟨t, rfl, -⟩ := eq_of_merged hb
  rw [addAt_eq, addAt_eq]
  split
  · exact seenAs_bind (backfill_alike hb _) fun _ b b' hb => hsettle b b' hb _
  · exact congrArg (EStateM.Result.error Cause.closed) hb

theorem add_alike (hsize : q.content.size = c.size)
    (h : q.content.reading.Alike q.content.size.toNat c.reading) (hb : b.merged = b'.merged) :
    seenAs merged (add q b) = seenAs merged (add (q.withContent c) b') := by
  obtain ⟨t, rfl, -⟩ := eq_of_merged hb
  exact addAt_alike hsize h hb

end

/-! ## Around the content -/

section
variable {b : Builder} {q : Request} {owner : Owner} {p : Placement}

/-- A directory that is missing is written. -/
theorem addMissing_eq_record {name : String} (howner : owner.fault = none)
    (hroom : b.sink.room = none) (hname : name ∉ b.directories) :
    ∃ s, addMissing owner name b =
        .ok () (record (b.directoryMember owner name) { b with sink := s }) ∧
      s.room = none ∧ s.contents = b.sink.contents ++ (b.directoryMember owner name).encode := by
  obtain ⟨s, hwrite, hroom', hcontents⟩ :=
    Entry.write_of_le (e := b.directoryEntry owner name) (r := {}) hroom howner (Nat.le_refl 0)
  refine ⟨s, ?_, hroom', hcontents⟩
  rw [addMissing_eq, if_neg hname, store_eq, hwrite]
  rfl

/-- The directories on the way are written one after the other, where they are missing. -/
theorem backfill_eq (howner : owner.fault = none) {names : List String} (hnodup : names.Nodup)
    (hroom : b.sink.room = none) :
    ∃ s log, names.forM (addMissing owner) b = .ok () { b with
        sink := s, log := log,
        directories := (names.filter (· ∉ b.directories)).reverse ++ b.directories } ∧
      s.room = none ∧ s.contents = b.sink.contents ++
        ((names.filter (· ∉ b.directories)).map (b.directoryMember owner)).flatMap Member.encode := by
  induction names generalizing b with
  | nil => exact ⟨b.sink, b.log, rfl, hroom, (List.append_nil _).symm⟩
  | cons name names ih =>
    obtain ⟨hnotin, hnodup⟩ := List.nodup_cons.1 hnodup
    have hsteps : ∀ b₁, addMissing owner name b = .ok () b₁ →
        (name :: names).forM (addMissing owner) b = names.forM (addMissing owner) b₁ :=
      fun b₁ h => bind_of_ok h
    by_cases hin : name ∈ b.directories
    · have hfirst : addMissing owner name b = .ok () b := by rw [addMissing_eq, if_pos hin]
      rw [List.filter_cons_of_neg (by simpa using hin), hsteps b hfirst]
      exact ih hnodup hroom
    · obtain ⟨s₁, hfirst, hroom₁, hcontents₁⟩ := addMissing_eq_record howner hroom hin
      obtain ⟨s, log, hfill, hroom', hcontents⟩ :=
        ih (b := record (b.directoryMember owner name) { b with sink := s₁ }) hnodup hroom₁
      have hdirectories : (record (b.directoryMember owner name) { b with sink := s₁ }).directories =
          name :: b.directories := rfl
      rw [hdirectories, filter_notMem_cons hnotin] at hfill hcontents
      rw [List.filter_cons_of_pos (by simpa using hin)]
      refine ⟨s, log, ?_, hroom', ?_⟩
      · rw [hsteps _ hfirst, hfill, List.reverse_cons, List.append_assoc]
        rfl
      · rw [hcontents, List.map_cons, List.flatMap_cons, ← List.append_assoc, ← hcontents₁]
        rfl

end

/-- The entry that is written for a request. -/
def entryOf (b : Builder) (q : Request) : Entry :=
  b.entryFor q (q.owner.getD b.owner) (Placement.entry b.root q.name).name

/-- What is written for a request before its content: the directories on the way that are
    missing, and the records and the header of its entry. -/
def preamble (b : Builder) (q : Request) : Bytes :=
  (b.missing b.directories q (Placement.entry b.root q.name)).flatMap Member.encode ++
    ((b.entryOf q).longRecords ++ (b.entryOf q).header.block)

section
variable {b : Builder} {q : Request}

/-- **An addition that is not skipped** writes the directories on the way that are missing,
    and then its entry. -/
theorem add_eq_store (ho : b.isOpen) (hroom : b.sink.room = none)
    (howner : (q.owner.getD b.owner).fault = none)
    (hskips : ¬ b.Skips q.kind (Placement.entry b.root q.name)) :
    ∃ b₁, add q b = store (b.entryOf q) q.stored.reading b₁ ∧ b₁.sink.room = none ∧
      b₁.sink.contents = b.sink.contents ++
        (b.missing b.directories q (Placement.entry b.root q.name)).flatMap Member.encode := by
  have hplain := Placement.plain_entry b.root q.name
  rw [add_eq]
  generalize hp : Placement.entry b.root q.name = p at hskips hplain ⊢
  obtain ⟨s, log, hfill, hroom', hcontents⟩ := backfill_eq howner hplain.nodup_ancestors hroom
  let b₁ : Builder := { b with
    sink := s, log := log
    directories := (p.ancestors.filter (· ∉ b.directories)).reverse ++ b.directories }
  have hname : p.name ∈ b₁.directories ↔ p.name ∈ b.directories := by
    refine List.mem_append.trans (or_iff_right fun hin => ?_)
    exact hplain.name_notMem_ancestors (List.mem_filter.1 (List.mem_reverse.1 hin)).1
  have hskips₁ : ¬ b₁.Skips q.kind p := by
    rw [Skips, hname]
    exact hskips
  obtain ⟨claimed, hsettle⟩ := settle_eq_store (q.owner.getD b.owner) hskips₁
  refine ⟨{ b₁ with claimed := claimed }, ?_, hroom', hcontents⟩
  rw [addAt_eq, if_pos ho, bind_of_ok hfill, entryOf, hp]
  exact hsettle

/-- With enough content all of the member is written. -/
theorem add_of_le (ho : b.isOpen) (hroom : b.sink.room = none)
    (howner : (q.owner.getD b.owner).fault = none)
    (hskips : ¬ b.Skips q.kind (Placement.entry b.root q.name))
    (h : q.stored.size.toNat ≤ q.stored.reading.bytes.length) :
    ∃ b', add q b = .ok () b' ∧ b'.sink.contents = b.sink.contents ++ b.preamble q ++
      q.stored.reading.bytes.take q.stored.size.toNat ++ padding q.stored.size.toNat := by
  obtain ⟨b₁, hadd, hroom₁, hcontents₁⟩ := add_eq_store ho hroom howner hskips
  obtain ⟨s, hwrite, -, hcontents⟩ := Entry.write_of_le (e := b.entryOf q) hroom₁ howner h
  refine ⟨_, by rw [hadd, store_eq, hwrite], ?_⟩
  show s.contents = _
  rw [hcontents, hcontents₁, preamble, Member.encode]
  simp only [List.append_assoc]
  rfl

/-- With too little content the addition fails after what there is, and nothing is filled up. -/
theorem add_of_lt (ho : b.isOpen) (hroom : b.sink.room = none)
    (howner : (q.owner.getD b.owner).fault = none)
    (hskips : ¬ b.Skips q.kind (Placement.entry b.root q.name))
    (h : q.stored.reading.bytes.length < q.stored.size.toNat) :
    ∃ b', add q b = .error (q.stored.reading.failure.getD
        (.contentShort (q.stored.size.toNat - q.stored.reading.bytes.length))) b' ∧
      b'.sink.contents = b.sink.contents ++ b.preamble q ++ q.stored.reading.bytes := by
  obtain ⟨b₁, hadd, hroom₁, hcontents₁⟩ := add_eq_store ho hroom howner hskips
  obtain ⟨s, hwrite, -, hcontents⟩ := Entry.write_of_lt (e := b.entryOf q) howner hroom₁ h
  refine ⟨{ b₁ with sink := s }, ?_, ?_⟩
  · rw [hadd, store_eq, hwrite]
    rfl
  · show s.contents = _
    rw [hcontents, hcontents₁, preamble]
    simp only [List.append_assoc]

/-- **Content that is read is bounded by its size**, and the pieces it comes in do not
    matter.  A file that is not skipped is written to a sink without a limit: after a
    header that announces its size come the first bytes of the content, as many as that.
    With enough of them zeros fill up the last block, whatever failure there may be later,
    and all is as with these bytes at hand; with too few of them it is the failure of
    reading that is told, or how many are missing.  Copied through a meter, in portions of
    any size, the content comes to the same, and no more of it is taken than its size. -/
theorem add_stream {b : Builder} {q : Request} {r : Reading} {n : UInt64} (hkind : q.kind = .file)
    (hcontent : q.content = .stream r n) (ho : b.isOpen) (hroom : b.sink.room = none)
    (howner : (q.owner.getD b.owner).fault = none)
    (hskips : ¬ b.Skips .file (Placement.entry b.root q.name)) :
    (Reader.header? (b.entryOf q).header.block).map (·.size) = some n.toNat ∧
      (n.toNat ≤ r.bytes.length → ∃ b' k, add q b = .ok () b' ∧
        b'.sink.contents = b.sink.contents ++ b.preamble q ++ r.bytes.take n.toNat ++ Header.zeros k ∧
        k < 512 ∧ 512 ∣ n.toNat + k) ∧
      (r.bytes.length < n.toNat → ∃ b',
        add q b = .error (r.failure.getD (.contentShort (n.toNat - r.bytes.length))) b' ∧
        b'.sink.contents = b.sink.contents ++ b.preamble q ++ r.bytes ∧
        (Cause.contentShort (n.toNat - r.bytes.length)).message = some ("content ended " ++
          toString (n.toNat - r.bytes.length) ++ " bytes short of its declared size")) ∧
      (n.toNat ≤ r.bytes.length → seenAs merged (add q b) =
        seenAs merged (add (q.withContent (.bytes (r.bytes.take n.toNat))) b)) ∧
      (∀ r' : Reading, r'.bytes = r.bytes → r'.failure = r.failure →
        seenAs merged (add q b) = seenAs merged (add (q.withContent (.stream r' n)) b)) ∧
      ∀ room : Metered → Nat, (∀ m, 0 < room m) → ∀ s,
        seenAs (fun state => state.2.merged) (Sink.pour room ⟨r, n.toNat⟩ s) =
          seenAs Sink.merged (Sink.copy r.failure n.toNat r.chunks s) ∧
        ∃ taken, r.bytes = taken ++ (stateOf (Sink.pour room ⟨r, n.toNat⟩ s)).1.source.bytes ∧
          taken.length ≤ n.toNat ∧
          (stateOf (Sink.pour room ⟨r, n.toNat⟩ s)).2.merged = (s.push taken).merged := by
  have hstored : q.stored = .stream r n := by rw [Request.stored, hkind, hcontent]
  have hreading : q.content.reading = r := by rw [hcontent]; rfl
  have hsize : q.content.size = n := by rw [hcontent]; rfl
  rw [← hkind] at hskips
  refine ⟨?_, fun h => ?_, fun h => ?_, fun h => ?_, fun r' hbytes hfailure => ?_,
    fun room hpos s => ?_⟩
  · rw [Reader.header?_found, Option.map_some]
    show some q.stored.size.toNat = _
    rw [hstored]
    rfl
  · obtain ⟨b', hadd, hcontents⟩ :=
      add_of_le ho hroom howner hskips (by rw [hstored]; exact h)
    rw [hstored] at hcontents
    refine ⟨b', (512 - n.toNat % 512) % 512, hadd, hcontents, by omega, by omega⟩
  · obtain ⟨b', hadd, hcontents⟩ :=
      add_of_lt ho hroom howner hskips (by rw [hstored]; exact h)
    rw [hstored] at hadd hcontents
    exact ⟨b', hadd, hcontents, rfl⟩
  · have hlength : (r.bytes.take n.toNat).length = n.toNat := by
      rw [List.length_take, Nat.min_eq_left h]
    refine add_alike ?_ ?_ rfl
    · rw [hsize, Content.size, hlength, UInt64.ofNat_toNat]
    · rw [hsize, hreading]
      exact .of_le h
  · refine add_alike hsize ?_ rfl
    rw [hsize, hreading]
    exact .of_bytes hbytes.symm hfailure.symm
  · obtain ⟨houtcome, taken, htook, hpush⟩ := Sink.pours_pour hpos ⟨r, n.toNat⟩ s
    exact ⟨houtcome.trans (Sink.copy_merged r n.toNat s).symm, taken, htook.bytes,
      Nat.le.intro htook.remaining, hpush⟩

/-- A file whose content comes in pieces, is more than was announced and fails later. -/
def overlong : Request where
  name := "d/f"
  kind := .file
  content := .stream { chunks := [[1], [], [2, 3]], failure := some (.contentFailed "lost") } 2

theorem add_stream_overlong : ∃ b', add overlong (fresh {} {}) = .ok () b' ∧
    b'.sink.contents = (fresh {} {}).preamble overlong ++ [1, 2] ++ Header.zeros 510 := by
  have hskips : ¬ (fresh {} {}).Skips .file (Placement.entry none "d/f") := by
    unfold Skips
    decide
  have hstream := add_stream (b := fresh {} {}) (q := overlong) rfl rfl rfl rfl (by decide) hskips
  obtain ⟨b', k, hadd, hcontents, hlt, hdvd⟩ := hstream.2.1 (by decide)
  obtain rfl : k = 510 := by
    change 512 ∣ 2 + k at hdvd
    omega
  exact ⟨b', hadd, hcontents⟩

end

end Builder

end Tarball
