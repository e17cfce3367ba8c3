/-
  What is written is read back.

  * `Reader.number?_number`, `Reader.upToNul_textField`: the fields of a header;
  * `Reader.header?_found` and `Reader.header?_block`: any header block, and one
    that has room for all that it says;
  * `Reader.records?_append`: any records, one after the other, and what follows
    them;
  * `Reader.read?_append` and `Reader.read?_encode`: the members of an archive, if
    their names have no NUL in them and their numbers fit the fields
    (`Entry.Readable`).
-/
import Mathlib.Algebra.GroupWithZero.Nat
import Mathlib.Tactic.SplitIfs
import Tarball.Builder.Basic
import Tarball.Proofs.Reader

namespace Tarball

namespace Reader

/-! ## Numbers -/

theorem value_append_singleton (base : Nat) (digit : UInt8 → Nat) (bytes : Bytes) (b : UInt8) :
    value base digit (bytes ++ [b]) = value base digit bytes * base + digit b := by
  simp only [value, List.foldl_append, List.foldl_cons, List.foldl_nil]

/-- The byte that shows an octal digit. -/
theorem octalDigit_ofNat (n : Nat) :
    octalDigit (UInt8.ofNat (48 + n % 8)) = n % 8 ∧ isOctalDigit (UInt8.ofNat (48 + n % 8)) := by
  have hall : ∀ d < 8, octalDigit (UInt8.ofNat (48 + d)) = d ∧
      isOctalDigit (UInt8.ofNat (48 + d)) := by decide
  exact hall (n % 8) (Nat.mod_lt _ (by decide))

theorem value_digits (width n : Nat) :
    value 8 octalDigit (Header.digits width n) = n % 8 ^ width := by
  induction width generalizing n with
  | zero => simp [Header.digits, value, Nat.mod_one]
  | succ width ih =>
    rw [Header.digits, value_append_singleton, ih, (octalDigit_ofNat n).1, Nat.pow_succ,
      Nat.mul_comm (8 ^ width), Nat.mod_mul]
    omega

theorem isOctalDigit_of_mem_digits {width n : Nat} {b : UInt8} (h : b ∈ Header.digits width n) :
    isOctalDigit b := by
  induction width generalizing n with
  | zero => cases h
  | succ width ih =>
    rcases List.mem_append.1 h with h | h
    · exact ih h
    · rw [List.mem_singleton.1 h]
      exact (octalDigit_ofNat n).2

theorem value_bigEndian (width n : Nat) :
    value 256 UInt8.toNat (Header.bigEndian width n) = n % 256 ^ width := by
  induction width generalizing n with
  | zero => simp [Header.bigEndian, value, Nat.mod_one]
  | succ width ih =>
    have hn : (UInt8.ofNat n).toNat = n % 256 := by simp
    rw [Header.bigEndian, value_append_singleton, ih, hn, Nat.pow_succ, Nat.mul_comm (256 ^ width),
      Nat.mod_mul]
    omega

/-- The digits of a field are those in front of its NUL. -/
theorem octal?_octal {width : Nat} (hw : 1 < width) (n : Nat) :
    octal? (Header.octal width n) = some (n % 8 ^ (width - 1)) := by
  have hall : ∀ b ∈ Header.digits (width - 1) n, isOctalDigit b = true :=
    fun b hb => isOctalDigit_of_mem_digits hb
  have hne : Header.digits (width - 1) n ≠ [] := by
    rw [Ne, ← List.length_eq_zero_iff, Header.length_digits]; omega
  have hbody : (Header.octal width n).dropWhile (· = 0x20) = Header.octal width n := by
    obtain ⟨d, ds, hds⟩ := List.exists_cons_of_ne_nil hne
    have hd : isOctalDigit d := hall d (by simp [hds])
    have hblank : d ≠ 0x20 := by rintro rfl; exact absurd hd (by decide)
    rw [Header.octal, hds, List.cons_append, List.dropWhile_cons_of_neg (by simpa using hblank)]
  have hlast : isOctalDigit 0 = false := by decide
  have htake : (Header.octal width n).takeWhile isOctalDigit = Header.digits (width - 1) n := by
    rw [Header.octal, List.takeWhile_append_of_pos hall, List.takeWhile_cons_of_neg (by simp [hlast]),
      List.append_nil]
  have hdrop : (Header.octal width n).dropWhile isOctalDigit = [0] := by
    rw [Header.octal, List.dropWhile_append_of_pos hall, List.dropWhile_cons_of_neg (by simp [hlast])]
  rw [octal?]
  simp only [hbody, htake, hdrop, value_digits]
  rw [if_pos ⟨hne, by decide⟩]

/-- A flagged byte says that it is one, and but for its highest bit it is what it
    was. -/
theorem flagged_ofNat (n : Nat) : 0x80 ≤ Header.flagged (UInt8.ofNat n) ∧
    Header.flagged (UInt8.ofNat n) - 0x80 = UInt8.ofNat (n % 128) := by
  have hall : ∀ d < 256, 0x80 ≤ Header.flagged (UInt8.ofNat d) ∧
      Header.flagged (UInt8.ofNat d) - 0x80 = UInt8.ofNat (d % 128) := by decide +kernel
  have hn : UInt8.ofNat n = UInt8.ofNat (n % 256) := by rw [← UInt8.toNat_inj]; simp
  have hmod : n % 256 % 128 = n % 128 := Nat.mod_mod_of_dvd n (by decide)
  rw [hn, ← hmod]
  exact hall (n % 256) (Nat.mod_lt _ (by decide))

/-- Without the highest bit of its first byte a number is written as what it is
    without it. -/
theorem bigEndian_eq_cons (width n : Nat) :
    ∃ b rest, Header.bigEndian (width + 1) n = b :: rest ∧ 0x80 ≤ Header.flagged b ∧
      Header.bigEndian (width + 1) (n % 2 ^ (8 * width + 7)) =
        (Header.flagged b - 0x80) :: rest := by
  induction width generalizing n with
  | zero =>
    obtain ⟨hge, hsub⟩ := flagged_ofNat n
    exact ⟨UInt8.ofNat n, [], rfl, hge, by rw [hsub]; rfl⟩
  | succ width ih =>
    obtain ⟨b, rest, hb, hge, hsub⟩ := ih (n / 256)
    have hpow : 2 ^ (8 * (width + 1) + 7) = 256 * 2 ^ (8 * width + 7) := by
      rw [show 8 * (width + 1) + 7 = 8 + (8 * width + 7) by omega, Nat.pow_add]
    have hlast : UInt8.ofNat (n % 2 ^ (8 * (width + 1) + 7)) = UInt8.ofNat n := by
      rw [← UInt8.toNat_inj, hpow]
      simp
    refine ⟨b, rest ++ [UInt8.ofNat n], by rw [Header.bigEndian, hb, List.cons_append], hge, ?_⟩
    rw [Header.bigEndian, hlast, hpow, Nat.mod_mul_right_div_self, hsub, List.cons_append]

/-- A number in base 256 loses what the highest bit and more would say. -/
theorem number?_binary (width n : Nat) :
    number? (Header.binary (width + 1) n) = some (n % 2 ^ (8 * width + 7)) := by
  obtain ⟨b, rest, hb, hge, hsub⟩ := bigEndian_eq_cons width n
  have hfull : n % 2 ^ (8 * width + 7) < 256 ^ (width + 1) :=
    calc n % 2 ^ (8 * width + 7) < 2 ^ (8 * width + 7) := Nat.mod_lt _ (Nat.two_pow_pos _)
      _ ≤ 2 ^ (8 * (width + 1)) := Nat.pow_le_pow_right (by decide) (by omega)
      _ = 256 ^ (width + 1) := by rw [Nat.pow_mul]
  rw [Header.binary, hb, List.modifyHead_cons, number?, if_pos hge, ← hsub, value_bigEndian,
    Nat.mod_eq_of_lt hfull]

/-- A number in octal digits loses what more digits would say. -/
theorem number?_octal (width n : Nat) :
    number? (Header.octal (width + 2) n) = some (n % 8 ^ (width + 1)) := by
  have hoct : octal? (Header.octal (width + 2) n) = some (n % 8 ^ (width + 1)) :=
    octal?_octal (by omega) n
  have hne : Header.octal (width + 2) n ≠ [] := by
    rw [Ne, ← List.length_eq_zero_iff, Header.length_octal (by omega)]; omega
  obtain ⟨d, ds, hds⟩ := List.exists_cons_of_ne_nil hne
  have hd : ¬ 0x80 ≤ d := by
    have hmem : d ∈ Header.octal (width + 2) n := by simp [hds]
    rcases List.mem_append.1 hmem with hmem | hmem
    · have hd := isOctalDigit_of_mem_digits hmem
      simp only [isOctalDigit, Bool.and_eq_true, decide_eq_true_eq, UInt8.le_iff_toNat_le] at hd ⊢
      have h37 : (0x37 : UInt8).toNat = 55 := rfl
      have h80 : (0x80 : UInt8).toNat = 128 := rfl
      omega
    · rw [List.mem_singleton.1 hmem]; decide
  rw [hds, number?, if_neg hd, ← hds, hoct]

/-- **Both ways to write a number are read as that number**, as far as the field
    can hold it. -/
theorem number?_number (width n : Nat) :
    number? (Header.number (width + 2) n) = some (n % 2 ^ (8 * (width + 1) + 7)) := by
  unfold Header.number
  split
  · next hlt =>
    have hlt : n < 8 ^ (width + 1) := hlt
    have hle : 8 ^ (width + 1) ≤ 2 ^ (8 * (width + 1) + 7) :=
      calc 8 ^ (width + 1) = 2 ^ (3 * (width + 1)) := by rw [Nat.pow_mul]
        _ ≤ 2 ^ (8 * (width + 1) + 7) := Nat.pow_le_pow_right (by decide) (by omega)
    rw [number?_octal, Nat.mod_eq_of_lt hlt, Nat.mod_eq_of_lt (Nat.lt_of_lt_of_le hlt hle)]
  · exact number?_binary (width + 1) n

/-! ## Headers -/

/-- A text is read up to the NUL that fills its field, or in full. -/
theorem upToNul_textField {text : Bytes} (width : Nat) (h : 0 ∉ text) :
    upToNul (Header.textField width text) = text.take width := by
  have hall : ∀ b ∈ text.take width, decide (b ≠ 0) = true := by
    intro b hb
    have : b ≠ 0 := by rintro rfl; exact h (List.mem_of_mem_take hb)
    simpa using this
  have hzeros : (Header.zeros (width - text.length)).takeWhile (· ≠ 0) = [] := by
    cases hn : width - text.length <;> simp [Header.zeros, List.replicate_succ]
  rw [upToNul, Header.textField, List.takeWhile_append_of_pos hall, hzeros, List.append_nil]

theorem bind_apply {α β : Type} {x : Scan α} {bytes rest : Bytes} {a : α}
    (h : x bytes = some (a, rest)) (f : α → Scan β) : (x >>= f) bytes = f a rest := by
  simp only [bind, StateT.bind, h, Option.bind_some]

theorem take_append {n : Nat} {f : Bytes} (h : f.length = n) (rest : Bytes) :
    take n (f ++ rest) = some (f, rest) := by
  subst h
  rw [take, if_pos (by simp), List.take_left, List.drop_left]

theorem text_append (width : Nat) (t rest : Bytes) :
    text width (Header.textField width t ++ rest) =
      some (upToNul (Header.textField width t), rest) := by
  rw [text, bind_apply (take_append (Header.length_textField width t) rest)]
  rfl

theorem number_append {width n : Nat} {field : Bytes} (hl : field.length = width)
    (h : number? field = some n) (rest : Bytes) :
    number width (field ++ rest) = some (n, rest) := by
  rw [number, bind_apply (take_append hl rest), accept, h]
  rfl

/-- Bytes add up to less than 256 each. -/
theorem sum_le (bytes : Bytes) : Header.sum bytes ≤ 255 * bytes.length := by
  induction bytes with
  | nil => simp [Header.sum]
  | cons b rest ih =>
    have := b.toNat_lt
    simp only [Header.sum, List.foldr_cons, List.length_cons] at ih ⊢
    omega

theorem checksum_lt (h : Header) : h.checksum < 8 ^ 7 := by
  have hsum := sum_le (h.front ++ Header.blankSum ++ h.back)
  have hlen : (h.front ++ Header.blankSum ++ h.back).length = 512 := by simp [Header.blankSum]
  rw [hlen] at hsum
  exact Nat.lt_of_le_of_lt hsum (by decide)

/-- The sum that a reader takes is the one that stands in the block. -/
theorem blockSum_block (h : Header) : blockSum h.block = h.checksum := by
  have hfront : h.block.take 148 = h.front := by
    rw [Header.block, List.append_assoc, List.take_append_of_le_length (by simp),
      List.take_of_length_le (by simp)]
  have hback : h.block.drop 156 = h.back := by
    rw [Header.block, List.drop_append_of_le_length (by simp), List.drop_of_length_le (by simp),
      List.nil_append]
  rw [blockSum, hfront, hback, Header.checksum]

end Reader

/-- A header whose texts have no NUL in them and whose numbers have room. -/
structure Header.Readable (h : Header) : Prop where
  name : 0 ∉ h.name
  linkName : 0 ∉ h.linkName
  userName : 0 ∉ h.userName
  groupName : 0 ∉ h.groupName
  mode : h.mode.toNat < 2 ^ 21
  userId : h.userId.toNat < 2 ^ 63
  groupId : h.groupId.toNat < 2 ^ 63

/-- What a reader finds in a header: texts up to their first NUL, and numbers as
    far as their fields can hold them. -/
def Header.found (h : Header) : Reader.Fields where
  name := Reader.upToNul (Header.textField Header.nameWidth h.name)
  mode := h.mode.toNat % 2 ^ 21
  userId := h.userId.toNat % 2 ^ 63
  groupId := h.groupId.toNat % 2 ^ 63
  size := h.size.toNat
  mtime := h.mtime.toNat
  checksum := h.checksum
  typeFlag := h.typeFlag
  linkName := Reader.upToNul (Header.textField Header.nameWidth h.linkName)
  magic := Header.magic
  userName := Reader.upToNul (Header.textField Header.ownerWidth h.userName)
  groupName := Reader.upToNul (Header.textField Header.ownerWidth h.groupName)

/-- What a reader finds in a header that has room for all that it says. -/
def Header.fields (h : Header) : Reader.Fields where
  name := h.name.take Header.nameWidth
  mode := h.mode.toNat
  userId := h.userId.toNat
  groupId := h.groupId.toNat
  size := h.size.toNat
  mtime := h.mtime.toNat
  checksum := h.checksum
  typeFlag := h.typeFlag
  linkName := h.linkName.take Header.nameWidth
  magic := Header.magic
  userName := h.userName.take Header.ownerWidth
  groupName := h.groupName.take Header.ownerWidth

theorem Header.Readable.found_eq_fields {h : Header} (hr : h.Readable) : h.found = h.fields := by
  simp only [found, fields, Reader.upToNul_textField _ hr.name,
    Reader.upToNul_textField _ hr.linkName, Reader.upToNul_textField _ hr.userName,
    Reader.upToNul_textField _ hr.groupName, Nat.mod_eq_of_lt hr.mode, Nat.mod_eq_of_lt hr.userId,
    Nat.mod_eq_of_lt hr.groupId]

namespace Reader

theorem number_word (n : UInt64) (rest : Bytes) :
    number 12 (Header.number 12 n.toNat ++ rest) = some (n.toNat, rest) := by
  have hlt : n.toNat < 2 ^ (8 * (10 + 1) + 7) := Nat.lt_trans n.toNat_lt (by decide)
  refine number_append (Header.length_number (by decide) _) ?_ rest
  rw [number?_number, Nat.mod_eq_of_lt hlt]

theorem number_id (n : UInt64) (rest : Bytes) :
    number 8 (Header.number 8 n.toNat ++ rest) = some (n.toNat % 2 ^ 63, rest) :=
  number_append (Header.length_number (by decide) _) (number?_number 6 n.toNat) rest

theorem number_octal (n : Nat) (rest : Bytes) :
    number 8 (Header.octal 8 n ++ rest) = some (n % 2 ^ 21, rest) :=
  number_append (Header.length_octal (by decide) _) (number?_octal 6 n) rest

/-- **Any header block is read.** -/
theorem header?_found (h : Header) : header? h.block = some h.found := by
  have hchecksum : h.checksum % 2 ^ 21 = h.checksum := Nat.mod_eq_of_lt (checksum_lt h)
  have hfields : fields h.block = some (h.found, Header.zeros 183) := by
    simp only [Header.block, Header.front, Header.back, List.append_assoc, Header.nameWidth,
      Header.ownerWidth]
    rw [fields, bind_apply (text_append _ _ _), bind_apply (number_octal _ _),
      bind_apply (number_id _ _), bind_apply (number_id _ _),
      bind_apply (number_word _ _), bind_apply (number_word _ _),
      bind_apply (number_octal _ _),
      bind_apply (take_append (n := 1) (f := [h.typeFlag]) rfl _),
      bind_apply (text_append _ _ _),
      bind_apply (take_append (n := 8) (f := Header.magic) rfl _),
      bind_apply (text_append _ _ _), bind_apply (text_append _ _ _), hchecksum]
    rfl
  have hsum : h.found.checksum = blockSum h.block := (blockSum_block h).symm
  simp only [header?, StateT.run', hfields, Functor.map, Option.map_some, Option.bind_eq_bind,
    Option.bind_some]
  exact if_pos ⟨rfl, hsum⟩

/-- **A header block is read back.** -/
theorem header?_block {h : Header} (hr : h.Readable) : header? h.block = some h.fields := by
  rw [header?_found, hr.found_eq_fields]

end Reader

/-! ## Records -/

/-- A record as it is written: a header and the content after it. -/
structure Written where
  header : Header
  content : Bytes

namespace Written

/-- All bytes of a record. -/
def encode (w : Written) : Bytes :=
  w.header.block ++ w.content ++ padding w.content.length

/-- The record that a reader finds. -/
def record (w : Written) : Reader.Record := ⟨w.header.fields, w.content⟩

/-- A record that says how much content it has. -/
structure Readable (w : Written) : Prop where
  header : w.header.Readable
  size : w.header.size.toNat = w.content.length

end Written

namespace Reader

theorem length_padding (size : Nat) : (padding size).length = fill size := by
  rw [padding, Header.length_zeros, fill, Header.blockLength]

/-- **A record is read back**, whatever follows it. -/
theorem record_append {w : Written} (hw : w.Readable) (rest : Bytes) :
    record (w.encode ++ rest) = some (w.record, rest) := by
  have hsize : w.header.fields.size = w.content.length := hw.size
  have hblock : w.header.block.length = 512 := Header.length_block _
  have hheader : accept (header? w.header.block) (w.content ++ (padding w.content.length ++ rest)) =
      some (w.header.fields, w.content ++ (padding w.content.length ++ rest)) := by
    rw [accept, header?_block hw.header]; rfl
  rw [Written.encode, List.append_assoc, List.append_assoc, record,
    bind_apply (take_append hblock _), bind_apply hheader,
    bind_apply (take_append hsize.symm _),
    bind_apply (take_append ((length_padding _).trans (by rw [hsize])) _)]
  rfl

/-- A header is not the end of an archive. -/
theorem take_ne_ending (h : Header) (rest : Bytes) :
    (h.block ++ rest).take 1024 ≠ ending := by
  intro he
  have hblock : h.block = (ending).take 512 := by
    rw [← he, List.take_take, List.take_append_of_le_length (by simp [Header.blockLength]),
      List.take_of_length_le (by simp [Header.blockLength])]
  have hread := header?_found h
  have hnone : header? (ending.take 512) = none := by decide +kernel
  rw [hblock, hnone] at hread
  cases hread

/-- A record at the front, and what follows it. -/
theorem records?_of_record {bytes rest : Bytes} {r : Record} (hne : bytes.take 1024 ≠ ending)
    (h : record bytes = some (r, rest)) :
    records? bytes = (records? rest).map fun p => (r :: p.1, p.2) := by
  rw [records?, if_neg hne]
  split
  · next h' => rw [h] at h'; cases h'
  · next h' => rw [h] at h'; cases h'; rfl

/-- What is neither a record nor the end. -/
theorem records?_eq_none {bytes : Bytes} (hne : bytes.take 1024 ≠ ending)
    (h : record bytes = none) : records? bytes = none := by
  rw [records?, if_neg hne]
  split
  · rfl
  · next h' => rw [h] at h'; cases h'

/-- **Records are read back, one after the other**, and then whatever follows
    them. -/
theorem records?_append {ws : List Written} (hws : ∀ w ∈ ws, w.Readable) (tail : Bytes) :
    records? (ws.flatMap Written.encode ++ tail) =
      (records? tail).map fun p => (ws.map Written.record ++ p.1, p.2) := by
  induction ws with
  | nil => simp
  | cons w ws ih =>
    have hw : w.Readable := hws w List.mem_cons_self
    have hne : (w.encode ++ (ws.flatMap Written.encode ++ tail)).take 1024 ≠ ending := by
      rw [Written.encode, List.append_assoc, List.append_assoc]
      exact take_ne_ending _ _
    rw [List.flatMap_cons, List.append_assoc, records?_of_record hne (record_append hw _),
      ih fun w hw => hws w (List.mem_cons_of_mem _ hw), Option.map_map]
    rfl

theorem records?_ending (rest : Bytes) : records? (ending ++ rest) = some ([], rest) := by
  have hlen : ending.length = 1024 := List.length_replicate
  rw [records?, List.take_left' hlen, if_pos rfl, List.drop_left' hlen]

end Reader

/-! ## Members -/

/-- An entry that a reader can make sense of: there is no NUL in its name or its
    link target, and the numbers fit their fields. -/
structure Entry.Readable (e : Entry) : Prop where
  name : 0 ∉ bytesOf e.name
  target : 0 ∉ bytesOf e.linkName
  nameLength : (bytesOf e.name).length < 2 ^ 63
  targetLength : (bytesOf e.linkName).length < 2 ^ 63
  mode : e.mode.toNat < 2 ^ 21
  userId : e.owner.userId.toNat < 2 ^ 63
  groupId : e.owner.groupId.toNat < 2 ^ 63

instance (e : Entry) : Decidable e.Readable :=
  decidable_of_iff
    (0 ∉ bytesOf e.name ∧ 0 ∉ bytesOf e.linkName ∧ (bytesOf e.name).length < 2 ^ 63 ∧
      (bytesOf e.linkName).length < 2 ^ 63 ∧ e.mode.toNat < 2 ^ 21 ∧
      e.owner.userId.toNat < 2 ^ 63 ∧ e.owner.groupId.toNat < 2 ^ 63)
    ⟨fun ⟨h₁, h₂, h₃, h₄, h₅, h₆, h₇⟩ => ⟨h₁, h₂, h₃, h₄, h₅, h₆, h₇⟩,
      fun h => ⟨h.name, h.target, h.nameLength, h.targetLength, h.mode, h.userId, h.groupId⟩⟩

/-- A member that was written in full: its owner fits, and its content is as long
    as announced. -/
structure Member.Whole (m : Member) : Prop where
  owner : m.entry.owner.fault = none
  size : m.content.length = m.entry.size.toNat

/-- The record for a text, if the header has no room for it. -/
def LongRecord.written (field : LongRecord) (text : Bytes) : List Written :=
  if Header.nameWidth < text.length then [⟨field.header text, content text⟩] else []

/-- The records before the header of an entry. -/
def Entry.longWritten (e : Entry) : List Written :=
  LongRecord.name.written (bytesOf e.storedName) ++ LongRecord.target.written (bytesOf e.linkName)

/-- The records of a member. -/
def Member.written (m : Member) : List Written :=
  LongRecord.name.written (bytesOf m.entry.storedName) ++
    (LongRecord.target.written (bytesOf m.entry.linkName) ++ [⟨m.entry.header, m.content⟩])

theorem LongRecord.flatMap_written (field : LongRecord) (text : Bytes) :
    (field.written text).flatMap Written.encode = field.encodeIfLong text := by
  unfold LongRecord.written LongRecord.encodeIfLong
  split
  · rw [List.flatMap_cons, List.flatMap_nil, List.append_nil]; rfl
  · rfl

theorem Entry.flatMap_longWritten (e : Entry) :
    e.longWritten.flatMap Written.encode = e.longRecords := by
  rw [longWritten, List.flatMap_append, LongRecord.flatMap_written, LongRecord.flatMap_written,
    longRecords]

theorem Member.written_eq (m : Member) :
    m.written = m.entry.longWritten ++ [⟨m.entry.header, m.content⟩] := by
  rw [written, Entry.longWritten, List.append_assoc]

/-- The bytes of a member are those of its records. -/
theorem Member.flatMap_written {m : Member} (h : m.content.length = m.entry.size.toNat) :
    m.written.flatMap Written.encode = m.encode := by
  rw [written_eq, List.flatMap_append, Entry.flatMap_longWritten, List.flatMap_singleton, encode,
    Written.encode, h]
  simp only [List.append_assoc]

theorem bytesOf_append (s t : String) : bytesOf (s ++ t) = bytesOf s ++ bytesOf t := by
  simp [bytesOf]

/-- A slash at the end puts no NUL into a name. -/
theorem Entry.Readable.storedName {e : Entry} (h : e.Readable) :
    0 ∉ bytesOf e.storedName ∧ (bytesOf e.storedName).length < 2 ^ 63 + 1 := by
  have hslash : bytesOf "/" = [0x2F] := by decide
  unfold Entry.storedName
  cases e.kind with
  | directory =>
    simp only [bytesOf_append, hslash, List.mem_append, List.length_append, not_or]
    exact ⟨⟨h.name, by decide⟩, Nat.add_lt_add_right h.nameLength 1⟩
  | file | symlink => exact ⟨h.name, Nat.lt_succ_of_lt h.nameLength⟩

/-- The names of an owner that fits have no NUL in them and room in a header. -/
theorem Owner.fault_eq_none {o : Owner} (h : o.fault = none) :
    (0 ∉ bytesOf o.userName ∧ (bytesOf o.userName).length ≤ Header.ownerWidth) ∧
      0 ∉ bytesOf o.groupName ∧ (bytesOf o.groupName).length ≤ Header.ownerWidth := by
  have hname : ∀ name, OwnerFault.ofName name = none →
      0 ∉ bytesOf name ∧ (bytesOf name).length ≤ Header.ownerWidth := by
    intro name hn
    unfold OwnerFault.ofName at hn
    split_ifs at hn with hlong hnul
    exact ⟨hnul, Nat.le_of_not_lt hlong⟩
  unfold Owner.fault at h
  cases hu : OwnerFault.ofName o.userName with
  | some fault => simp [hu] at h
  | none =>
    cases hg : OwnerFault.ofName o.groupName with
    | some fault => simp [hu, hg] at h
    | none => exact ⟨hname _ hu, hname _ hg⟩

/-- The record for a long text is one that a reader can make sense of. -/
theorem LongRecord.readable_of_mem {field : LongRecord} {text : Bytes} (hl : text.length < 2 ^ 63 + 1)
    {w : Written} (hw : w ∈ field.written text) : w.Readable := by
  unfold LongRecord.written at hw
  split at hw
  · obtain rfl := List.mem_singleton.1 hw
    have hsize : (content text).length < 2 ^ 64 := by
      rw [content, List.length_append, List.length_singleton]; omega
    have hname : 0 ∉ recordName := by decide
    have hmode : Kind.file.mode.toNat < 2 ^ 21 := by decide
    have hid : (0 : UInt64).toNat < 2 ^ 63 := by decide
    refine ⟨⟨hname, List.not_mem_nil, List.not_mem_nil, List.not_mem_nil, hmode, hid, hid⟩, ?_⟩
    simp only [header, UInt64.toNat_ofNat']
    exact Nat.mod_eq_of_lt hsize
  · cases hw

theorem Entry.Readable.longWritten {e : Entry} (h : e.Readable) {w : Written}
    (hw : w ∈ e.longWritten) : w.Readable := by
  obtain ⟨-, hlen⟩ := h.storedName
  rcases List.mem_append.1 hw with hw | hw
  · exact LongRecord.readable_of_mem hlen hw
  · exact LongRecord.readable_of_mem (Nat.lt_succ_of_lt h.targetLength) hw

/-- With an owner that fits the header of an entry has room for all that it
    says. -/
theorem Entry.Readable.header {e : Entry} (h : e.Readable) (howner : e.owner.fault = none) :
    e.header.Readable := by
  obtain ⟨hname, -⟩ := h.storedName
  obtain ⟨huser, hgroup⟩ := Owner.fault_eq_none howner
  exact ⟨hname, h.target, huser.1, hgroup.1, h.mode, h.userId, h.groupId⟩

theorem Member.readable_of_mem {m : Member} (hm : m.Whole) (hr : m.entry.Readable) {w : Written}
    (hw : w ∈ m.written) : w.Readable := by
  rw [written_eq, List.mem_append, List.mem_singleton] at hw
  rcases hw with hw | rfl
  · exact hr.longWritten hw
  · exact ⟨hr.header hm.owner, hm.size.symm⟩

namespace Reader

/-- What a reader knows of a text that a record was written for, if it is long. -/
def told (text : Bytes) : Option Bytes :=
  if Header.nameWidth < text.length then some text else none

/-- The field and the record before it give the whole text. -/
theorem getD_told (text : Bytes) : (told text).getD (text.take Header.nameWidth) = text := by
  unfold told
  split
  · rfl
  · next h => exact List.take_of_length_le (Nat.le_of_not_lt h)

theorem longText_content (text : Bytes) : longText (LongRecord.content text) = text := by
  simp [longText, LongRecord.content]

theorem longName_eq : LongRecord.recordName.take Header.nameWidth = longName := by decide

/-- What is known of a member to come once its records have been read: what they
    say, and of the rest what was known before. -/
def Pending.hear (pending : Pending) (e : Entry) : Pending where
  name := (told (bytesOf e.storedName)).or pending.name
  target := (told (bytesOf e.linkName)).or pending.target

theorem items?_name (pending : Pending) (text : Bytes) (rs : List Record) :
    items? pending ((LongRecord.name.written text).map Written.record ++ rs) =
      items? { pending with name := (told text).or pending.name } rs := by
  unfold LongRecord.written told
  split
  · simp only [List.map_cons, List.map_nil, List.cons_append, List.nil_append, items?]
    rw [if_pos ⟨rfl, longName_eq⟩]
    simp only [Written.record, longText_content, Option.some_or]
  · rfl

theorem items?_target (pending : Pending) (text : Bytes) (rs : List Record) :
    items? pending ((LongRecord.target.written text).map Written.record ++ rs) =
      items? { pending with target := (told text).or pending.target } rs := by
  unfold LongRecord.written told
  split
  · simp only [List.map_cons, List.map_nil, List.cons_append, List.nil_append, items?]
    have hne : LongRecord.target.typeFlag ≠ 0x4C := by decide
    rw [if_neg fun hc => hne hc.1, if_pos ⟨rfl, longName_eq⟩]
    simp only [Written.record, longText_content, Option.some_or]
  · rfl

/-- The records before a header say what they say of the member to come, even if
    there is none. -/
theorem items?_longRecords (pending : Pending) (e : Entry) (rs : List Record) :
    items? pending (e.longWritten.map Written.record ++ rs) = items? (pending.hear e) rs := by
  rw [Entry.longWritten, List.map_append, List.append_assoc, items?_name, items?_target]
  rfl

theorem kind?_typeFlag (k : Kind) : kind? k.typeFlag = some k := by
  cases k <;> rfl

theorem typeFlag_ne (k : Kind) : k.typeFlag ≠ 0x4C ∧ k.typeFlag ≠ 0x4B := by
  cases k <;> decide

theorem present_linkName (e : Entry) :
    present (bytesOf e.linkName) = e.target.bind fun t => present (bytesOf t) := by
  unfold Entry.linkName
  cases e.target <;> rfl

end Reader

/-- A member as it is found by a reader who knows of it what is pending. -/
def Member.itemAs (pending : Reader.Pending) (m : Member) : Item :=
  { m.item with
    name := pending.name.getD ((bytesOf m.entry.storedName).take Header.nameWidth)
    target := Reader.present (pending.target.getD ((bytesOf m.entry.linkName).take Header.nameWidth)) }

namespace Reader

/-- It is found as it is by one who knows of it what its own records say. -/
theorem itemAs_own (m : Member) : m.itemAs (Pending.hear {} m.entry) = m.item := by
  simp only [Member.itemAs, Pending.hear, Option.or_none, getD_told, present_linkName]
  rfl

/-- The record of a member, read with what is known of it. -/
theorem item?_header {m : Member} (howner : m.entry.owner.fault = none) (pending : Pending) :
    item? pending (Written.record ⟨m.entry.header, m.content⟩) = some (m.itemAs pending) := by
  obtain ⟨⟨-, huser⟩, -, hgroup⟩ := Owner.fault_eq_none howner
  simp only [item?, Written.record, Header.fields, Entry.header, kind?_typeFlag, Option.map_some,
    List.take_of_length_le huser, List.take_of_length_le hgroup]
  rfl

/-- The records of a member are read as that member. -/
theorem items?_written {m : Member} (howner : m.entry.owner.fault = none) (pending : Pending)
    (rs : List Record) : items? pending (m.written.map Written.record ++ rs) =
      (items? {} rs).map (m.itemAs (pending.hear m.entry) :: ·) := by
  rw [Member.written_eq, List.map_append, List.append_assoc, items?_longRecords]
  obtain ⟨hL, hK⟩ := typeFlag_ne m.entry.kind
  rw [List.map_cons, List.map_nil, List.cons_append, List.nil_append, items?,
    if_neg fun h => hL h.1, if_neg fun h => hK h.1, item?_header howner]
  cases items? {} rs <;> rfl

theorem items?_flatMap_written {ms : List Member} (hms : ∀ m ∈ ms, m.Whole) (rs : List Record) :
    items? {} ((ms.flatMap Member.written).map Written.record ++ rs) =
      (items? {} rs).map (ms.map Member.item ++ ·) := by
  induction ms with
  | nil => simp
  | cons m ms ih =>
    rw [List.flatMap_cons, List.map_append, List.append_assoc,
      items?_written (hms m List.mem_cons_self).owner, itemAs_own,
      ih fun m hm => hms m (List.mem_cons_of_mem _ hm), Option.map_map]
    rfl

/-- The bytes of members are those of their records. -/
theorem flatMap_encode {ms : List Member} (hms : ∀ m ∈ ms, m.Whole) :
    ms.flatMap Member.encode = (ms.flatMap Member.written).flatMap Written.encode := by
  induction ms with
  | nil => rfl
  | cons m ms ih =>
    rw [List.flatMap_cons, List.flatMap_cons, List.flatMap_append,
      Member.flatMap_written (hms m List.mem_cons_self).size,
      ih fun m hm => hms m (List.mem_cons_of_mem _ hm)]

/-- **Members are read back, one after the other**, and then whatever follows
    them. -/
theorem read?_append {ms : List Member} (hms : ∀ m ∈ ms, m.Whole)
    (hr : ∀ m ∈ ms, m.entry.Readable) (tail : Bytes) :
    read? (ms.flatMap Member.encode ++ tail) =
      (read? tail).map fun p => (ms.map Member.item ++ p.1, p.2) := by
  have hreadable : ∀ w ∈ ms.flatMap Member.written, w.Readable := by
    intro w hw
    obtain ⟨m, hm, hw⟩ := List.mem_flatMap.1 hw
    exact Member.readable_of_mem (hms m hm) (hr m hm) hw
  rw [read?, flatMap_encode hms, records?_append hreadable, read?]
  cases records? tail with
  | none => rfl
  | some p =>
    simp only [Option.map_some, Option.bind_eq_bind, Option.bind_some, items?_flatMap_written hms]
    cases items? {} p.1 <;> rfl

/-- The end of an archive without members. -/
theorem read?_endMarker : read? endMarker = some ([], []) := by
  have hmarker : endMarker = ending ++ [] := by rw [List.append_nil]; rfl
  rw [read?, hmarker, records?_ending]
  rfl

/-- **The members of an archive are read back**, and nothing is left of it. -/
theorem read?_encode {ms : List Member} (hms : ∀ m ∈ ms, m.Whole)
    (hr : ∀ m ∈ ms, m.entry.Readable) :
    read? (ms.flatMap Member.encode ++ endMarker) = some (ms.map Member.item, []) := by
  rw [read?_append hms hr, read?_endMarker, Option.map_some, List.append_nil]

end Reader

end Tarball
