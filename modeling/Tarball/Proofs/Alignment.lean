/-
  Where headers start.

  A member is whole blocks, and so a header starts where a block does.  Content
  that falls short is not filled up, and all that is written after it is out of
  place by as much.

  * `Attempt.loose` is what an attempt leaves that is not filled up, and
    `Attempt.blockLength_dvd_front_iff` says where the header after some attempts
    starts;
  * `Reader.read?_header`: a reader takes for content whatever follows a header,
    as much as that announces;
  * `Builder.aligned_and_read?`: where the headers of an archive start, and what a
    reader makes of it if content fell short.
-/
import Mathlib.Data.Nat.ModEq
import Tarball.Proofs.StrayRecords

namespace Tarball

open Header (blockLength)

/-! ## Whole blocks -/

theorem Written.blockLength_dvd_encode (w : Written) : blockLength ∣ w.encode.length := by
  rw [Written.encode, List.append_assoc, List.length_append, List.length_append,
    Header.length_block]
  exact Nat.dvd_add (Nat.dvd_refl _) (blockLength_dvd_add_padding _)

theorem LongRecord.blockLength_dvd_encodeIfLong (field : LongRecord) (text : Bytes) :
    blockLength ∣ (field.encodeIfLong text).length := by
  unfold LongRecord.encodeIfLong
  split
  · exact Written.blockLength_dvd_encode ⟨field.header text, content text⟩
  · exact Nat.dvd_zero _

theorem Entry.blockLength_dvd_longRecords (e : Entry) : blockLength ∣ e.longRecords.length := by
  rw [Entry.longRecords, List.length_append]
  exact Nat.dvd_add (LongRecord.blockLength_dvd_encodeIfLong _ _)
    (LongRecord.blockLength_dvd_encodeIfLong _ _)

namespace Attempt

/-- How much an attempt leaves that is not filled up: all the content there was,
    if there was too little of it. -/
def loose (a : Attempt) : Nat :=
  if a.Fits ∧ ¬ a.Delivers then a.content.bytes.length else 0

theorem loose_of_delivers {a : Attempt} (h : a.Delivers) : a.loose = 0 :=
  if_neg fun hshort => hshort.2 h

/-- **But for what is not filled up an attempt leaves whole blocks.** -/
theorem length_bytes_modEq (a : Attempt) : a.bytes.length ≡ a.loose [MOD blockLength] := by
  have hrecords := a.entry.blockLength_dvd_longRecords
  by_cases hsucceeds : a.Succeeds
  · have hsize : a.member.content.length = a.entry.size.toNat := (whole_of_succeeds hsucceeds).size
    have hwhole := (Written.mk a.entry.header a.member.content).blockLength_dvd_encode
    rw [Written.encode, hsize] at hwhole
    rw [loose_of_delivers hsucceeds.2, Nat.modEq_zero_iff_dvd, bytes, if_pos hsucceeds.1,
      if_pos hsucceeds.2, List.length_append]
    exact Nat.dvd_add hrecords hwhole
  by_cases hfits : a.Fits
  · have hshort : ¬ a.Delivers := fun hdelivers => hsucceeds ⟨hfits, hdelivers⟩
    have hblocks : blockLength ∣ a.entry.longRecords.length + a.entry.header.block.length :=
      Nat.dvd_add hrecords (by rw [Header.length_block])
    rw [loose, if_pos ⟨hfits, hshort⟩, bytes_of_short hfits hshort, List.length_append,
      List.length_append, ← Nat.add_assoc]
    simpa using ((Nat.modEq_zero_iff_dvd.2 hblocks).add_right a.content.bytes.length)
  · rw [loose, if_neg fun h => hfits h.1, Nat.modEq_zero_iff_dvd, bytes, if_neg hfits,
      List.append_nil]
    exact hrecords

theorem length_flatMap_bytes_modEq (attempts : List Attempt) :
    (attempts.flatMap bytes).length ≡ (attempts.map loose).sum [MOD blockLength] := by
  induction attempts with
  | nil => exact Nat.ModEq.refl _
  | cons a rest ih =>
    rw [List.flatMap_cons, List.length_append, List.map_cons, List.sum_cons]
    exact a.length_bytes_modEq.add ih

/-- **A header starts where a block does just if what has not been filled up
    before it makes up whole blocks.** -/
theorem blockLength_dvd_front_iff (before : List Attempt) (e : Entry) :
    blockLength ∣ (before.flatMap bytes ++ e.longRecords).length ↔
      blockLength ∣ (before.map loose).sum := by
  rw [List.length_append, ← Nat.dvd_add_iff_left e.blockLength_dvd_longRecords]
  exact (length_flatMap_bytes_modEq before).dvd_iff (Nat.dvd_refl _)

/-- Attempts that all succeed are read back as their members, and then whatever
    follows them. -/
theorem read?_flatMap_bytes {attempts : List Attempt} (h : ∀ a ∈ attempts, a.Succeeds)
    (hr : ∀ a ∈ attempts, a.entry.Readable) (tail : Bytes) :
    Reader.read? (attempts.flatMap bytes ++ tail) =
      (Reader.read? tail).map fun p => (attempts.map (·.member.item) ++ p.1, p.2) := by
  have hbytes : attempts.flatMap bytes = (attempts.map member).flatMap Member.encode := by
    rw [List.flatMap_map]
    exact List.flatMap_congr fun a ha => bytes_of_succeeds (h a ha)
  have hwhole : ∀ m ∈ attempts.map member, m.Whole := by
    intro m hm
    obtain ⟨a, ha, rfl⟩ := List.mem_map.1 hm
    exact whole_of_succeeds (h a ha)
  have hreadable : ∀ m ∈ attempts.map member, m.entry.Readable := by
    intro m hm
    obtain ⟨a, ha, rfl⟩ := List.mem_map.1 hm
    exact hr a ha
  rw [hbytes, Reader.read?_append hwhole hreadable, List.map_map]
  rfl

end Attempt

/-! ## Content that falls short -/

namespace Reader

/-- **Whatever follows a header is its content**, as much as it announces. -/
theorem record_block {h : Header} (hh : h.Readable) {tail rest : Bytes} {r : Record}
    (hread : record (h.block ++ tail) = some (r, rest)) :
    r = ⟨h.fields, tail.take h.size.toNat⟩ := by
  have hblock : h.block.length = 512 := Header.length_block _
  have hheader : accept (header? h.block) tail = some (h.fields, tail) := by
    rw [accept, header?_block hh]; rfl
  rw [record, bind_apply (take_append hblock _), bind_apply hheader, bind_eq_some] at hread
  obtain ⟨content, after, hcontent, hread⟩ := hread
  obtain ⟨_, _, -, hr⟩ := bind_eq_some.1 hread
  have hr : some (Record.mk h.fields content, _) = some (r, rest) := hr
  unfold take at hcontent
  split at hcontent
  · cases hcontent; cases hr; rfl
  · cases hcontent

theorem records?_block {h : Header} (hh : h.Readable) {tail left : Bytes} {rs : List Record}
    (hread : records? (h.block ++ tail) = some (rs, left)) :
    ∃ more, rs = ⟨h.fields, tail.take h.size.toNat⟩ :: more := by
  have hne := take_ne_ending h tail
  cases hrecord : record (h.block ++ tail) with
  | none => rw [records?_eq_none hne hrecord] at hread; cases hread
  | some p =>
    obtain ⟨r, rest⟩ := p
    rw [records?_of_record hne hrecord, Option.map_eq_some_iff] at hread
    obtain ⟨⟨more, after⟩, -, hpair⟩ := hread
    cases hpair
    exact ⟨more, by rw [record_block hh hrecord]⟩

/-- **Whatever follows the header of a member is its content**, as much as it
    announces. -/
theorem read?_header {e : Entry} (howner : e.owner.fault = none) (hr : e.Readable)
    {tail left : Bytes} {items : List Item}
    (hread : read? (e.longRecords ++ (e.header.block ++ tail)) = some (items, left)) :
    ∃ more, items = Member.item ⟨e, tail.take e.size.toNat⟩ :: more := by
  have hbefore : ∀ w ∈ e.longWritten, w.Readable := fun w hw => hr.longWritten hw
  rw [read?, ← e.flatMap_longWritten, records?_append hbefore] at hread
  simp only [Option.bind_eq_bind, Option.bind_eq_some_iff, Option.map_eq_some_iff] at hread
  obtain ⟨_, ⟨⟨rs, after⟩, hrecords, rfl⟩, found, hfound, hpair⟩ := hread
  cases hpair
  obtain ⟨more, rfl⟩ := records?_block (hr.header howner) hrecords
  have hwritten : e.longWritten.map Written.record ++
      ⟨e.header.fields, tail.take e.header.size.toNat⟩ :: more =
        (Member.mk e (tail.take e.size.toNat)).written.map Written.record ++ more := by
    rw [Member.written_eq, List.map_append, List.append_assoc]
    rfl
  rw [hwritten, items?_written (m := ⟨e, tail.take e.size.toNat⟩) howner, itemAs_own,
    Option.map_eq_some_iff] at hfound
  obtain ⟨rest, -, rfl⟩ := hfound
  exact ⟨rest, rfl⟩

end Reader

/-! ## Archives -/

namespace Builder

section
variable {attempts : List Attempt} {b : Builder}

theorem Traced.contents_of_closed (h : b.Traced attempts) (hclosed : b.isOpen = false) :
    b.sink.contents = attempts.flatMap Attempt.bytes ++ endMarker := by
  rw [h.contents, hclosed, if_neg Bool.false_ne_true]

/-- Where content never falls short, the members are read back. -/
theorem Traced.read?_of_delivers (h : b.Traced attempts) (hclosed : b.isOpen = false)
    (hsucceeds : ∀ a ∈ attempts, a.Succeeds) (hr : ∀ a ∈ attempts, a.entry.Readable) :
    Reader.read? b.sink.contents = some (b.members.map Member.item, []) := by
  have hmembers : b.members.map Member.item = attempts.map (·.member.item) := by
    rw [h.members, List.filter_eq_self.2 (by simpa using hsucceeds), List.map_map]
    rfl
  rw [h.contents_of_closed hclosed, Attempt.read?_flatMap_bytes hsucceeds hr,
    Reader.read?_endMarker, hmembers, Option.map_some, List.append_nil]

/-- The first member whose content fell short is found all the same, with what
    was written after it for the rest of its content. -/
theorem Traced.read?_of_short {before later : List Attempt} {last : Attempt}
    (h : b.Traced (before ++ last :: later)) (hclosed : b.isOpen = false)
    (hsucceeds : ∀ a ∈ before, a.Succeeds) (hfits : last.Fits) (hshort : ¬ last.Delivers)
    (hr : ∀ a ∈ before ++ last :: later, a.entry.Readable) {items : List Item} {left : Bytes}
    (hread : Reader.read? b.sink.contents = some (items, left)) :
    ∃ more, items = before.map (·.member.item) ++
      Member.item ⟨last.entry, (last.content.bytes ++ later.flatMap Attempt.bytes ++
        endMarker).take last.entry.size.toNat⟩ :: more := by
  have hsplit : b.sink.contents = before.flatMap Attempt.bytes ++ (last.entry.longRecords ++
      (last.entry.header.block ++
        (last.content.bytes ++ later.flatMap Attempt.bytes ++ endMarker))) := by
    rw [h.contents_of_closed hclosed, List.flatMap_append, List.flatMap_cons,
      Attempt.bytes_of_short hfits hshort]
    simp only [List.append_assoc]
  rw [hsplit, Attempt.read?_flatMap_bytes hsucceeds fun a ha => hr a (List.mem_append_left _ ha),
    Option.map_eq_some_iff] at hread
  obtain ⟨⟨found, after⟩, hfound, hpair⟩ := hread
  cases hpair
  obtain ⟨more, rfl⟩ := Reader.read?_header hfits (hr last (by simp)) hfound
  exact ⟨more, rfl⟩

end

/-- **Where headers start, and what is read where content fell short.**  A header
    starts where a block does just if what has not been filled up before it makes
    up whole blocks.  Where content never falls short, this is so, and the members
    are read back; where it does, a reader finds the member that broke off all the
    same, with what was written after it for the rest of its content. -/
theorem aligned_and_read? {o : Options} {sink : Sink} {begun : Builder}
    {history : List (FileSystem × Step)} (hroom : sink.room = none) (hempty : sink.contents = [])
    (hstart : start o sink = .ok () begun) (hclosed : (begun.after history).isOpen = false) :
    (∃ attempts, begun.Account history attempts ∧ (begun.after history).Traced attempts) ∧
      ∀ attempts, (begun.after history).Traced attempts →
        (∀ a ∈ attempts, a.Fits ∧ a.entry.Readable) →
        (∀ before a later, attempts = before ++ a :: later →
          (before.flatMap Attempt.bytes ++ a.entry.longRecords ++ a.entry.header.block <+:
            (begun.after history).sink.contents) ∧
          (blockLength ∣ (before.flatMap Attempt.bytes ++ a.entry.longRecords).length ↔
            blockLength ∣ (before.map Attempt.loose).sum)) ∧
        ((∀ a ∈ attempts, a.Delivers) →
          Reader.read? (begun.after history).sink.contents =
            some ((begun.after history).members.map Member.item, [])) ∧
        ∀ before last later, attempts = before ++ last :: later → (∀ a ∈ before, a.Delivers) →
          ¬ last.Delivers → ∀ items left,
          Reader.read? (begun.after history).sink.contents = some (items, left) →
          ∃ more, items = before.map (·.member.item) ++
            Member.item ⟨last.entry, (last.content.bytes ++ later.flatMap Attempt.bytes ++
              endMarker).take last.entry.size.toNat⟩ :: more := by
  refine ⟨exists_account hroom hempty hstart history, fun attempts htraced hattempts =>
    ⟨?_, ?_, ?_⟩⟩
  · rintro before a later rfl
    refine ⟨?_, Attempt.blockLength_dvd_front_iff before a.entry⟩
    have hfits : a.Fits := (hattempts a (by simp)).1
    rw [htraced.contents_of_closed hclosed, List.flatMap_append, List.flatMap_cons, Attempt.bytes,
      if_pos hfits]
    simp only [List.append_assoc, List.prefix_append_right_inj]
    exact List.prefix_append _ _
  · intro hdelivers
    exact htraced.read?_of_delivers hclosed (fun a ha => ⟨(hattempts a ha).1, hdelivers a ha⟩)
      fun a ha => (hattempts a ha).2
  · rintro before last later rfl hbefore hshort items left hread
    have hsucceeds : ∀ a ∈ before, a.Succeeds := fun a ha =>
      ⟨(hattempts a (List.mem_append_left _ ha)).1, hbefore a ha⟩
    exact htraced.read?_of_short hclosed hsucceeds (hattempts last (by simp)).1 hshort
      (fun a ha => (hattempts a ha).2) hread

/-! ## A file out of place -/

/-- A file with a byte less than announced, and another file after it. -/
def fellShort : List (FileSystem × Step) :=
  withoutFiles
    [.add (.file "a" (.stream { chunks := [[1]] } 2)), .add (.file "b" (.bytes [2])), .close]

/-- The first of them. -/
def shortAttempt : Attempt :=
  ⟨{ name := "a", kind := .file, size := 2, mode := Kind.file.mode, mtime := 0 },
    { chunks := [[1]] }⟩

/-- The one after it. -/
def nextAttempt : Attempt :=
  ⟨{ name := "b", kind := .file, size := 1, mode := Kind.file.mode, mtime := 0 },
    { chunks := [[2]] }⟩

theorem isOpen_fellShort : ((opened {} {}).after fellShort).isOpen = false := by decide

theorem traced_fellShort :
    ((opened {} {}).after fellShort).Traced [shortAttempt, nextAttempt] := by
  refine ⟨by decide, ?_, by decide⟩
  rw [isOpen_fellShort, if_neg Bool.false_ne_true]
  decide +kernel

theorem aligned_and_read?_fellShort :
    ([shortAttempt].flatMap Attempt.bytes ++ nextAttempt.entry.longRecords ++
        nextAttempt.entry.header.block <+: ((opened {} {}).after fellShort).sink.contents) ∧
      (blockLength ∣
          ([shortAttempt].flatMap Attempt.bytes ++ nextAttempt.entry.longRecords).length ↔
        blockLength ∣ ([shortAttempt].map Attempt.loose).sum) := by
  have hroom : Sink.room {} = none := rfl
  have hstart : start {} {} = .ok () (opened {} {}) := Outcome.ofResult_succeeds (by decide)
  exact ((aligned_and_read? hroom rfl hstart isOpen_fellShort).2 _ traced_fellShort
    (by decide)).1 [shortAttempt] nextAttempt [] rfl

/-- The file that was added starts a byte late, and nothing is read. -/
theorem out_of_place :
    ((opened {} {}).after fellShort).members = [nextAttempt.member] ∧
      (shortAttempt.bytes ++ nextAttempt.entry.header.block <+:
        ((opened {} {}).after fellShort).sink.contents) ∧
      shortAttempt.bytes.length = blockLength + 1 ∧
      Reader.read? ((opened {} {}).after fellShort).sink.contents = none := by
  rw [traced_fellShort.contents_of_closed isOpen_fellShort]
  refine ⟨traced_fellShort.members, by decide +kernel, by decide +kernel, ?_⟩
  -- the second block that is read starts with the last byte of the header that is out of place
  have hrecord : Reader.record ([shortAttempt, nextAttempt].flatMap Attempt.bytes ++ endMarker) =
      some (⟨shortAttempt.entry.header.fields, [1, 0x62]⟩,
        ([shortAttempt, nextAttempt].flatMap Attempt.bytes ++ endMarker).drop 1024) := by
    decide +kernel
  have hnext : Reader.record
      (([shortAttempt, nextAttempt].flatMap Attempt.bytes ++ endMarker).drop 1024) = none := by
    decide +kernel
  rw [Reader.read?, Reader.records?_of_record (by decide) hrecord,
    Reader.records?_eq_none (by decide +kernel) hnext]
  rfl

end Builder

end Tarball
