/-
  Records without a header.

  An owner that does not fit a header is found after the records before the
  header have been written.  They stay, and a reader takes them for what is said
  about the next member, unless that has a record of the same kind itself.

  * `Attempt.records` are the records that an attempt leaves, and `Reader.heard`
    is what a reader makes of those of attempts (`Reader.items?_records`);
  * `Reader.OwnWords` says that no member is taken for anything but what its own
    records say (`Reader.heard_eq_some_iff`);
  * `Builder.read?_iff_ownWords`: where content never falls short, an archive reads
    back as its members just if this is so.
-/
import Mathlib.Data.List.Basic
import Tarball.Proofs.Attempts

namespace Tarball

namespace Attempt

/-- The records that are left of an attempt with enough content. -/
def records (a : Attempt) : List Written :=
  a.entry.longWritten ++ if a.Fits then [⟨a.entry.header, a.member.content⟩] else []

theorem flatMap_records {a : Attempt} (h : a.Delivers) :
    a.records.flatMap Written.encode = a.bytes := by
  rw [records, List.flatMap_append, Entry.flatMap_longWritten, bytes]
  by_cases hfits : a.Fits
  · have hsize : a.member.content.length = a.entry.size.toNat := (whole_of_succeeds ⟨hfits, h⟩).size
    rw [if_pos hfits, if_pos hfits, if_pos h, List.flatMap_singleton, Written.encode, hsize]
  · rw [if_neg hfits, if_neg hfits, List.flatMap_nil]

theorem readable_of_mem {a : Attempt} (h : a.Delivers) (hr : a.entry.Readable) {w : Written}
    (hw : w ∈ a.records) : w.Readable := by
  rcases List.mem_append.1 hw with hw | hw
  · exact hr.longWritten hw
  · by_cases hfits : a.Fits
    · rw [if_pos hfits, List.mem_singleton] at hw
      subst hw
      exact ⟨hr.header hfits, (whole_of_succeeds ⟨hfits, h⟩).size.symm⟩
    · rw [if_neg hfits] at hw
      cases hw

end Attempt

namespace Reader

/-! ## What a reader hears -/

/-- What a reader makes of the records of attempts: a member has what was said
    last, and nothing may be left that was said of none. -/
def heard (pending : Pending) : List Attempt → Option (List Item)
  | [] => if pending = {} then some [] else none
  | a :: rest =>
    if a.Fits then (heard {} rest).map (a.member.itemAs (pending.hear a.entry) :: ·)
    else heard (pending.hear a.entry) rest

/-- Whether nothing is said of a member but by its own records, and nothing is
    left that was said of none. -/
def OwnWords (pending : Pending) : List Attempt → Prop
  | [] => pending = {}
  | a :: rest =>
    if a.Fits then pending.hear a.entry = Pending.hear {} a.entry ∧ OwnWords {} rest
    else OwnWords (pending.hear a.entry) rest

theorem items?_records (pending : Pending) (attempts : List Attempt) :
    items? pending ((attempts.flatMap Attempt.records).map Written.record) =
      heard pending attempts := by
  induction attempts generalizing pending with
  | nil => rfl
  | cons a rest ih =>
    rw [List.flatMap_cons, List.map_append, heard]
    by_cases hfits : a.Fits
    · have hrecords : a.records = a.member.written := by
        rw [Attempt.records, if_pos hfits, Member.written_eq]
        rfl
      rw [hrecords, items?_written (m := a.member) hfits, ih, if_pos hfits]
      rfl
    · rw [Attempt.records, if_neg hfits, List.append_nil, items?_longRecords, ih, if_neg hfits]

/-- What is pending is too long for a header. -/
structure Pending.Long (pending : Pending) : Prop where
  name : ∀ text ∈ pending.name, Header.nameWidth < text.length
  target : ∀ text ∈ pending.target, Header.nameWidth < text.length

theorem Pending.long_empty : Pending.Long {} := ⟨by simp, by simp⟩

theorem length_of_mem_told {text other : Bytes} (h : other ∈ told text) :
    other = text ∧ Header.nameWidth < text.length := by
  unfold told at h
  split at h
  · next hlong => exact ⟨(Option.mem_some_iff.1 h).symm, hlong⟩
  · cases h

theorem Pending.Long.hear {pending : Pending} (h : pending.Long) (e : Entry) :
    (pending.hear e).Long := by
  constructor
  · intro text htext
    rcases Option.or_eq_some_iff.1 htext with hown | ⟨-, hbefore⟩
    · obtain ⟨rfl, hlong⟩ := length_of_mem_told hown
      exact hlong
    · exact h.name text hbefore
  · intro text htext
    rcases Option.or_eq_some_iff.1 htext with hown | ⟨-, hbefore⟩
    · obtain ⟨rfl, hlong⟩ := length_of_mem_told hown
      exact hlong
    · exact h.target text hbefore

/-- A text that was said before, and is too long for a header, is not that of an
    entry whose own text was not said. -/
theorem told_or_eq_of_getD {before : Option Bytes} {text : Bytes}
    (hlong : ∀ other ∈ before, Header.nameWidth < other.length)
    (h : ((told text).or before).getD (text.take Header.nameWidth) = text) :
    (told text).or before = told text := by
  cases hbefore : before with
  | none => exact Option.or_none
  | some other =>
    unfold told at h ⊢
    split
    · rfl
    · next hshort =>
      rw [if_neg hshort, hbefore] at h
      obtain rfl : other = text := h
      exact absurd (hlong other hbefore) hshort

theorem eq_of_present_eq {text other : Bytes} (h : present text = present other) :
    text = other := by
  unfold present at h
  split_ifs at h with htext hother
  · rw [htext, hother]
  · exact Option.some.inj h

/-- **A member is found as it is just if only its own records speak of it.** -/
theorem itemAs_eq_item_iff {pending : Pending} (hlong : pending.Long) (m : Member) :
    m.itemAs (pending.hear m.entry) = m.item ↔
      pending.hear m.entry = Pending.hear {} m.entry := by
  constructor
  · intro h
    have hname : (pending.hear m.entry).name.getD
        ((bytesOf m.entry.storedName).take Header.nameWidth) = bytesOf m.entry.storedName :=
      congrArg Item.name h
    have htarget : (pending.hear m.entry).target.getD
        ((bytesOf m.entry.linkName).take Header.nameWidth) = bytesOf m.entry.linkName := by
      refine eq_of_present_eq ?_
      rw [present_linkName]
      exact congrArg Item.target h
    have hname' := told_or_eq_of_getD hlong.name hname
    have htarget' := told_or_eq_of_getD hlong.target htarget
    simp only [Pending.hear, Option.or_none, hname', htarget']
  · intro h
    rw [h, itemAs_own]

/-- **Every member is found as it is just if no other's records speak of it**, and
    none are left over. -/
theorem heard_eq_some_iff {pending : Pending} (hlong : pending.Long) (attempts : List Attempt) :
    heard pending attempts = some ((attempts.filter (·.Fits)).map (·.member.item)) ↔
      OwnWords pending attempts := by
  induction attempts generalizing pending with
  | nil =>
    simp only [heard, OwnWords, List.filter_nil, List.map_nil]
    split
    · next h => exact iff_of_true rfl h
    · next h => exact iff_of_false (by simp) h
  | cons a rest ih =>
    rw [heard, OwnWords]
    by_cases hfits : a.Fits
    · have hitem : a.member.itemAs (pending.hear a.entry) = a.member.item ↔
          pending.hear a.entry = Pending.hear {} a.entry := itemAs_eq_item_iff hlong a.member
      rw [if_pos hfits, if_pos hfits, List.filter_cons_of_pos (by simpa using hfits), List.map_cons,
        ← ih Pending.long_empty, ← hitem, Option.map_eq_some_iff]
      constructor
      · rintro ⟨items, hrest, hcons⟩
        obtain ⟨hitem, rfl⟩ := List.cons.inj hcons
        exact ⟨hitem, hrest⟩
      · rintro ⟨hitem, hrest⟩
        exact ⟨_, hrest, by rw [hitem]⟩
    · rw [if_neg hfits, if_neg hfits, List.filter_cons_of_neg (by simpa using hfits),
        ih (hlong.hear a.entry)]

theorem told_eq_none {field : LongRecord} {text : Bytes} (h : field.encodeIfLong text = []) :
    told text = none := by
  unfold LongRecord.encodeIfLong at h
  unfold told
  split
  · next hlong =>
    have hlength := congrArg List.length h
    simp [if_pos hlong, LongRecord.encode, Header.blockLength] at hlength
  · rfl

/-- Where no entry whose owner does not fit has records before its header, no
    member is taken for anything else. -/
theorem ownWords_of_longRecords {attempts : List Attempt}
    (h : ∀ a ∈ attempts, ¬ a.Fits → a.entry.longRecords = []) : OwnWords {} attempts := by
  induction attempts with
  | nil => rfl
  | cons a rest ih =>
    have hrest := ih fun a ha => h a (List.mem_cons_of_mem _ ha)
    rw [OwnWords]
    by_cases hfits : a.Fits
    · rw [if_pos hfits]
      exact ⟨rfl, hrest⟩
    · obtain ⟨hname, htarget⟩ := List.append_eq_nil_iff.1 (h a List.mem_cons_self hfits)
      have hsilent : Pending.hear {} a.entry = {} := by
        simp only [Pending.hear, told_eq_none hname, told_eq_none htarget, Option.or_none]
      rw [if_neg hfits, hsilent]
      exact hrest

end Reader

/-! ## Archives -/

namespace Builder

/-- What a reader makes of a closed archive, from what was tried to be written. -/
theorem Traced.read?_eq_heard {attempts : List Attempt} {b : Builder} (h : b.Traced attempts)
    (hclosed : b.isOpen = false) (hattempts : ∀ a ∈ attempts, a.Delivers ∧ a.entry.Readable) :
    Reader.read? b.sink.contents = (Reader.heard {} attempts).map (·, []) := by
  have hreadable : ∀ w ∈ attempts.flatMap Attempt.records, w.Readable := by
    intro w hw
    obtain ⟨a, ha, hw⟩ := List.mem_flatMap.1 hw
    exact Attempt.readable_of_mem (hattempts a ha).1 (hattempts a ha).2 hw
  have hcontents : b.sink.contents =
      (attempts.flatMap Attempt.records).flatMap Written.encode ++ (Reader.ending ++ []) := by
    have hbytes : attempts.flatMap Attempt.bytes =
        attempts.flatMap fun a => a.records.flatMap Written.encode :=
      List.flatMap_congr fun a ha => (Attempt.flatMap_records (hattempts a ha).1).symm
    rw [h.contents, hclosed, if_neg Bool.false_ne_true, hbytes, List.flatMap_assoc,
      List.append_nil]
    rfl
  rw [Reader.read?, hcontents, Reader.records?_append hreadable, Reader.records?_ending,
    Option.map_some, List.append_nil]
  simp only [Option.bind_eq_bind, Option.bind_some, Reader.items?_records]
  cases Reader.heard {} attempts <;> rfl

/-- **An archive reads back as its members just if they are told by their own
    records.**  Content never falls short, but owners may not fit: what they leave
    does no harm if none of their entries has a name or a link target that is
    too long for a header. -/
theorem read?_iff_ownWords {o : Options} {sink : Sink} {begun : Builder}
    {history : List (FileSystem × Step)} (hroom : sink.room = none) (hempty : sink.contents = [])
    (hstart : start o sink = .ok () begun) (hclosed : (begun.after history).isOpen = false) :
    (∃ attempts, begun.Account history attempts ∧ (begun.after history).Traced attempts) ∧
      ∀ attempts, (begun.after history).Traced attempts →
        (∀ a ∈ attempts, a.Delivers ∧ a.entry.Readable) →
        (Reader.read? (begun.after history).sink.contents =
            some ((begun.after history).members.map Member.item, []) ↔
          Reader.OwnWords {} attempts) ∧
        ((∀ a ∈ attempts, ¬ a.Fits → a.entry.longRecords = []) → Reader.OwnWords {} attempts) := by
  refine ⟨exists_account hroom hempty hstart history, fun attempts htraced hattempts =>
    ⟨?_, Reader.ownWords_of_longRecords⟩⟩
  have hmembers : (begun.after history).members.map Member.item =
      (attempts.filter (·.Fits)).map (·.member.item) := by
    have hfits : attempts.filter (·.Succeeds) = attempts.filter (·.Fits) := by
      refine List.filter_congr fun a ha => ?_
      simp only [Attempt.Succeeds, (hattempts a ha).1, and_true]
    rw [htraced.members, hfits, List.map_map]
    rfl
  rw [htraced.read?_eq_heard hclosed hattempts, hmembers,
    ← Reader.heard_eq_some_iff Reader.Pending.long_empty attempts, Option.map_eq_some_iff]
  constructor
  · rintro ⟨items, hitems, hpair⟩
    cases hpair
    exact hitems
  · intro hitems
    exact ⟨_, hitems, rfl⟩

/-! ## A name for another file -/

/-- A name that is too long for a header. -/
def longName : String := String.ofList (List.replicate 101 'n')

/-- A file of that name, whose owner does not fit, and another file after it. -/
def strayName : List (FileSystem × Step) :=
  withoutFiles
    [.add { Request.file longName (.bytes [1]) with
        owner := some { groupName := String.ofList (List.replicate 33 'g') } },
      .add (.file "b" (.bytes [2])), .close]

/-- What was tried to be written. -/
def strayAttempts : List Attempt :=
  let entry : Entry := { name := "b", kind := .file, size := 1, mode := Kind.file.mode, mtime := 0 }
  [⟨{ entry with
      name := longName, owner := { groupName := String.ofList (List.replicate 33 'g') } },
      { chunks := [[1]] }⟩, ⟨entry, { chunks := [[2]] }⟩]

theorem isOpen_strayName : ((opened {} {}).after strayName).isOpen = false := by decide +kernel

theorem traced_strayName : ((opened {} {}).after strayName).Traced strayAttempts := by
  refine ⟨by decide +kernel, ?_, by decide +kernel⟩
  rw [isOpen_strayName, if_neg Bool.false_ne_true]
  decide +kernel

theorem read?_iff_ownWords_strayName :
    Reader.read? ((opened {} {}).after strayName).sink.contents =
        some (((opened {} {}).after strayName).members.map Member.item, []) ↔
      Reader.OwnWords {} strayAttempts := by
  have hroom : Sink.room {} = none := rfl
  have hstart : start {} {} = .ok () (opened {} {}) := Outcome.ofResult_succeeds (by decide)
  exact ((read?_iff_ownWords hroom rfl hstart isOpen_strayName).2 strayAttempts traced_strayName
    (by decide)).1

/-- The only member is read under the name of the file that was refused. -/
theorem name_of_refused_file :
    ((opened {} {}).after strayName).members.map (·.entry.name) = ["b"] ∧
      (Reader.read? ((opened {} {}).after strayName).sink.contents).map
        (fun p => p.1.map Item.name) = some [bytesOf longName] := by
  refine ⟨by decide +kernel, ?_⟩
  rw [traced_strayName.read?_eq_heard isOpen_strayName (by decide)]
  decide

end Builder

end Tarball
