/-
  Reading back the UTF-8 of a text.

  The first byte of a character says how many bytes follow it, and each of those
  carries six bits of its number.  So the bytes of a text are cut into those of
  its characters, and no fragment is broken.

  * `Utf8.first` and `Utf8.followers` are the bytes of a character by its number
    (`Utf8.encode_eq`), and `Utf8.lead_bounds` says which second byte a first one
    asks for;
  * `Utf8.pieceAt_of_encode`: the bytes of a character are one whole piece, and
    `Utf8.encode_of_whole`: there are no others;
  * `Utf8.decode?_bytesOf`: a text is read back from its bytes, and
    `Utf8.bytesOf_of_decode?`: what is read as a text is its bytes.
-/
import Mathlib.Algebra.GroupWithZero.Nat
import Mathlib.Data.List.Basic
import Tarball.Text.Utf8

namespace Tarball

namespace Utf8

/-! ## The bytes of a character -/

/-- How many bytes follow the first one of a character, by its number. -/
def width (v : Nat) : Nat :=
  if v < 0x80 then 0 else if v < 0x800 then 1 else if v < 0x10000 then 2 else 3

/-- What a first byte says, besides the bits it carries, when `n` bytes follow it. -/
def mark : Nat → Nat
  | 0 => 0
  | 1 => 0xC0
  | 2 => 0xE0
  | _ => 0xF0

/-- The first byte of a character. -/
def first (v : Nat) : UInt8 := UInt8.ofNat (v / 64 ^ width v + mark (width v))

/-- A byte with six bits of a character's number. -/
def follower (k : Nat) : UInt8 := UInt8.ofNat (k % 64 + 128)

/-- Bytes with the last bits of a number, six in each. -/
def followers : Nat → Nat → Bytes
  | 0, _ => []
  | n + 1, v => follower (v / 64 ^ n) :: followers n v

/-- Whether the first of a number's followers, if there is to be one, is between two
    bytes. -/
def Between (lo hi : UInt8) (n v : Nat) : Prop :=
  0 < n → lo.toNat ≤ v / 64 ^ (n - 1) % 64 + 128 ∧ v / 64 ^ (n - 1) % 64 + 128 ≤ hi.toNat

theorem width_cases (v : Nat) : v < 128 ∧ width v = 0 ∨ 128 ≤ v ∧ v < 2048 ∧ width v = 1 ∨
    2048 ≤ v ∧ v < 65536 ∧ width v = 2 ∨ 65536 ≤ v ∧ width v = 3 := by
  unfold width
  repeat' split
  all_goals omega

/-- The bytes of a character are a first one and its followers. -/
theorem encode_eq (c : Char) : String.utf8EncodeChar c =
    first c.val.toNat :: followers (width c.val.toNat) c.val.toNat := by
  have hvalid : c.val.toNat < 55296 ∨ 57343 < c.val.toNat ∧ c.val.toNat < 1114112 := c.valid
  unfold String.utf8EncodeChar
  dsimp only
  generalize c.val.toNat = v at hvalid
  rw [first]
  rcases width_cases v with ⟨h, hn⟩ | ⟨hlow, h, hn⟩ | ⟨hlow, h, hn⟩ | ⟨hlow, hn⟩ <;> rw [hn]
  · rw [if_pos (by omega)]
    simp [mark, followers]
  · have hfirst : v / 64 % 32 = v / 64 := by omega
    rw [if_neg (by omega), if_pos (by omega), hfirst]
    simp [mark, followers, follower]
  · have hfirst : v / 4096 % 16 = v / 4096 := by omega
    rw [if_neg (by omega), if_neg (by omega), if_pos (by omega), hfirst]
    simp [mark, followers, follower]
  · have hfirst : v / 262144 % 8 = v / 262144 := by omega
    rw [if_neg (by omega), if_neg (by omega), if_neg (by omega), hfirst]
    simp [mark, followers, follower]

theorem toNat_byte {k : Nat} (h : k < 256) : (UInt8.ofNat k).toNat = k :=
  UInt8.toNat_ofNat_of_lt' h

theorem toNat_follower (k : Nat) : (follower k).toNat = k % 64 + 128 :=
  toNat_byte (by omega)

theorem toNat_first {v : Nat} (h : v.isValidChar) :
    (first v).toNat = v / 64 ^ width v + mark (width v) := by
  have hvalid : v < 55296 ∨ 57343 < v ∧ v < 1114112 := h
  refine toNat_byte ?_
  rcases width_cases v with ⟨h, hn⟩ | ⟨hlow, h, hn⟩ | ⟨hlow, h, hn⟩ | ⟨hlow, hn⟩ <;>
    simp only [hn, mark] <;> omega

/-- How many bytes follow a first one. -/
theorem lead_fst (b : UInt8) : (lead b).map Prod.fst =
    if b.toNat < 128 then some 0 else if b.toNat < 194 then none
    else if b.toNat < 224 then some 1 else if b.toNat < 240 then some 2
    else if b.toNat < 245 then some 3 else none := by
  have hall : ∀ k < 256, (lead (UInt8.ofNat k)).map Prod.fst =
      if k < 128 then some 0 else if k < 194 then none
      else if k < 224 then some 1 else if k < 240 then some 2
      else if k < 245 then some 3 else none := by decide +kernel
  have hb := hall b.toNat b.toNat_lt
  rwa [UInt8.ofNat_toNat] at hb

theorem lead_first {v : Nat} (h : v.isValidChar) :
    ∃ lo hi, lead (first v) = some (width v, lo, hi) := by
  have hvalid : v < 55296 ∨ 57343 < v ∧ v < 1114112 := h
  have hlead : (lead (first v)).map Prod.fst = some (width v) := by
    rw [lead_fst, toNat_first h]
    rcases width_cases v with ⟨h, hn⟩ | ⟨hlow, h, hn⟩ | ⟨hlow, h, hn⟩ | ⟨hlow, hn⟩ <;>
      simp only [hn, mark]
    · rw [if_pos (by omega)]
    · rw [if_neg (by omega), if_neg (by omega), if_pos (by omega)]
    · rw [if_neg (by omega), if_neg (by omega), if_neg (by omega), if_pos (by omega)]
    · rw [if_neg (by omega), if_neg (by omega), if_neg (by omega), if_neg (by omega),
        if_pos (by omega)]
  obtain ⟨⟨_, lo, hi⟩, heq, rfl⟩ := Option.map_eq_some_iff.1 hlead
  exact ⟨lo, hi, heq⟩

section
variable {b lo hi : UInt8} {n v : Nat}

theorem toNat_of_lead (h : lead b = some (n, lo, hi)) : b.toNat = leadBits b n + mark n := by
  unfold lead at h
  simp only [UInt8.lt_iff_toNat_lt, ← UInt8.toNat_inj] at h
  repeat' split at h
  all_goals cases h
  all_goals simp [leadBits, mark] at *
  all_goals omega

theorem bounds_of_lead (h : lead b = some (n, lo, hi)) : 0x80 ≤ lo ∧ hi ≤ 0xBF := by
  unfold lead at h
  repeat' split at h
  all_goals cases h
  all_goals decide

/-- What a first byte asks of the next one: a number with the bits of both is that of
    a character of so many bytes just if the next one is between the bounds. -/
theorem lead_bounds (h : lead b = some (n, lo, hi)) (hv : v / 64 ^ n = leadBits b n) :
    v.isValidChar ∧ width v = n ↔ Between lo hi n v := by
  have hwidth := width_cases v
  unfold lead at h
  simp only [UInt8.lt_iff_toNat_lt, ← UInt8.toNat_inj] at h
  unfold Nat.isValidChar Between
  -- one case for each kind of first byte
  repeat' split at h
  all_goals cases h
  all_goals simp [leadBits] at *
  all_goals omega

/-! ## Followers -/

theorem length_followers (n v : Nat) : (followers n v).length = n := by
  induction n with
  | zero => rfl
  | succ n ih => rw [followers, List.length_cons, ih]

/-- The bits in followers go behind those before them. -/
theorem foldl_followers (n v a : Nat) :
    (followers n v).foldl (fun u t => u * 64 + t.toNat % 64) a = a * 64 ^ n + v % 64 ^ n := by
  induction n generalizing a with
  | zero => simp [followers, Nat.mod_one]
  | succ n ih =>
    have hbits : (follower (v / 64 ^ n)).toNat % 64 = v / 64 ^ n % 64 := by
      rw [toNat_follower]
      omega
    rw [followers, List.foldl_cons, hbits, ih, Nat.mod_pow_succ, Nat.add_mul, Nat.pow_succ']
    rw [Nat.mul_assoc, Nat.mul_comm (64 ^ n) (_ % 64)]
    omega

/-- Followers may follow if the first of them is between the bounds. -/
theorem following_followers (rest : Bytes) (h : Between lo hi n v) :
    following n lo hi (followers n v ++ rest) = followers n v := by
  induction n generalizing lo hi with
  | zero => rw [following, followers]
  | succ n ih =>
    have hbounds : lo ≤ follower (v / 64 ^ n) ∧ follower (v / 64 ^ n) ≤ hi := by
      rw [UInt8.le_iff_toNat_le, UInt8.le_iff_toNat_le, toNat_follower]
      exact h n.succ_pos
    have hrest : following n 0x80 0xBF (followers n v ++ rest) = followers n v := by
      refine ih fun _ => ⟨?_, ?_⟩
      · show 128 ≤ _
        omega
      · show _ ≤ 191
        omega
    rw [followers, List.cons_append, following, if_pos hbounds, hrest]

/-- Whatever follows a first byte is the followers of a number that begins with any
    bits. -/
theorem exists_followers {rest : Bytes} (a : Nat) (hlo : 0x80 ≤ lo) (hhi : hi ≤ 0xBF)
    (h : (following n lo hi rest).length = n) :
    ∃ v, v / 64 ^ n = a ∧ following n lo hi rest = followers n v ∧ Between lo hi n v := by
  induction n generalizing a lo hi rest with
  | zero => exact ⟨a, Nat.div_one a, by rw [following, followers], fun h => absurd h (by omega)⟩
  | succ n ih =>
    cases rest with
    | nil => simp [following] at h
    | cons t more =>
      rw [following] at h ⊢
      split at h
      · next hbounds =>
        rw [if_pos hbounds]
        have hlow : 128 ≤ t.toNat := UInt8.le_iff_toNat_le.1 (UInt8.le_trans hlo hbounds.1)
        have hhigh : t.toNat ≤ 191 := UInt8.le_iff_toNat_le.1 (UInt8.le_trans hbounds.2 hhi)
        obtain ⟨v, hv, hmore, -⟩ := ih (a * 64 + (t.toNat - 128)) (by decide) (by decide)
          (Nat.succ.inj h)
        have hbits : v / 64 ^ n % 64 + 128 = t.toNat := by omega
        have ht : follower (v / 64 ^ n) = t := by
          rw [← UInt8.toNat_inj, toNat_follower, hbits]
        refine ⟨v, ?_, ?_, fun _ => ?_⟩
        · rw [Nat.pow_succ, ← Nat.div_div_eq_div_mul, hv]
          omega
        · rw [followers, ht, hmore]
        · rw [Nat.add_sub_cancel, hbits]
          exact ⟨UInt8.le_iff_toNat_le.1 hbounds.1, UInt8.le_iff_toNat_le.1 hbounds.2⟩
      · simp at h

end

/-! ## Pieces -/

/-- **The bytes of a character are one whole piece**, whatever comes after. -/
theorem pieceAt_of_encode {c : Char} {b : UInt8} {tail : Bytes}
    (h : String.utf8EncodeChar c = b :: tail) (rest : Bytes) :
    pieceAt b (tail ++ rest) = .whole c (b :: tail) := by
  rw [encode_eq] at h
  cases h
  obtain ⟨lo, hi, hlead⟩ := lead_first c.valid
  have hbits : c.val.toNat / 64 ^ width c.val.toNat =
      leadBits (first c.val.toNat) (width c.val.toNat) := by
    have hfirst := toNat_of_lead hlead
    rw [toNat_first c.valid] at hfirst
    exact Nat.add_right_cancel hfirst
  have hfollow := following_followers rest ((lead_bounds hlead hbits).1 ⟨c.valid, rfl⟩)
  have hchar : assemble (first c.val.toNat) (followers (width c.val.toNat) c.val.toNat) = c := by
    rw [assemble, length_followers, foldl_followers, ← hbits, Nat.div_add_mod']
    exact Char.ofNat_toNat c
  rw [pieceAt, hlead]
  dsimp only
  rw [hfollow, if_pos (length_followers _ _), hchar]

theorem val_ofNat {v : Nat} (h : v.isValidChar) : (Char.ofNat v).val.toNat = v := by
  rw [Char.ofNat, dif_pos h]
  rfl

theorem exists_of_whole {b : UInt8} {rest bytes : Bytes} {c : Char}
    (h : pieceAt b rest = .whole c bytes) : ∃ n lo hi, lead b = some (n, lo, hi) ∧
      (following n lo hi rest).length = n ∧ bytes = b :: following n lo hi rest ∧
      c = assemble b (following n lo hi rest) := by
  unfold pieceAt at h
  split at h
  · cases h
  · next n lo hi hlead =>
    dsimp only at h
    split at h
    · next hlength => cases h; exact ⟨n, lo, hi, hlead, hlength, rfl, rfl⟩
    · cases h

/-- **A whole piece is the bytes of its character.** -/
theorem encode_of_whole {b : UInt8} {rest bytes : Bytes} {c : Char}
    (h : pieceAt b rest = .whole c bytes) : String.utf8EncodeChar c = bytes := by
  obtain ⟨n, lo, hi, hlead, hlength, rfl, rfl⟩ := exists_of_whole h
  obtain ⟨hlo, hhi⟩ := bounds_of_lead hlead
  obtain ⟨v, hv, hfollow, hbounds⟩ := exists_followers (leadBits b n) hlo hhi hlength
  obtain ⟨hvalid, hwidth⟩ := (lead_bounds hlead hv).2 hbounds
  have hfirst : first v = b := by
    rw [← UInt8.toNat_inj, toNat_first hvalid, hwidth, hv, toNat_of_lead hlead]
  rw [hfollow, assemble, length_followers, foldl_followers, ← hv, Nat.div_add_mod', encode_eq,
    val_ofNat hvalid, hwidth, hfirst]

/-! ## Texts -/

theorem pieces_bytesOf (text : List Char) :
    pieces (text.flatMap String.utf8EncodeChar) =
      text.map fun c => .whole c (String.utf8EncodeChar c) := by
  induction text with
  | nil => rw [List.flatMap_nil, pieces, List.map_nil]
  | cons c text ih =>
    obtain ⟨b, tail, htail⟩ := List.exists_cons_of_ne_nil (String.utf8EncodeChar_ne_nil (c := c))
    rw [List.flatMap_cons, htail, List.cons_append, pieces, pieceAt_of_encode htail, List.map_cons, htail]
    simp only [Piece.bytes, List.length_cons, Nat.add_sub_cancel, List.drop_left, ih]

/-- **A text is read back from its bytes.** -/
theorem decode?_bytesOf (text : String) : decode? (bytesOf text) = some text := by
  rw [decode?, bytesOf, pieces_bytesOf, List.mapM_map]
  have hchars : ∀ l : List Char, l.mapM (Piece.char? ∘ fun c => .whole c (String.utf8EncodeChar c)) = some l := by
    intro l
    induction l with
    | nil => rfl
    | cons c l ih =>
      rw [List.mapM_cons, ih]
      rfl
  rw [hchars]
  simp

/-- Pieces that are all whole are the bytes of their characters. -/
theorem flatMap_encode_of_mapM {ps : List Piece} {text : List Char}
    (hwhole : ∀ c bytes, .whole c bytes ∈ ps → String.utf8EncodeChar c = bytes)
    (h : ps.mapM Piece.char? = some text) :
    text.flatMap String.utf8EncodeChar = ps.flatMap Piece.bytes := by
  induction ps generalizing text with
  | nil => cases h; rfl
  | cons p ps ih =>
    rw [List.mapM_cons] at h
    cases p with
    | broken bytes => cases h
    | whole c bytes =>
      obtain ⟨more, hmore, rfl⟩ : ∃ more, ps.mapM Piece.char? = some more ∧ text = c :: more := by
        cases hrest : ps.mapM Piece.char? with
        | none => rw [hrest] at h; cases h
        | some more => rw [hrest] at h; cases h; exact ⟨more, rfl, rfl⟩
      rw [List.flatMap_cons, List.flatMap_cons, hwhole c bytes List.mem_cons_self,
        ih (fun c' bytes' hmem => hwhole c' bytes' (List.mem_cons_of_mem _ hmem)) hmore]
      rfl

theorem encode_of_mem_pieces {bs : Bytes} {c : Char} {bytes : Bytes}
    (h : .whole c bytes ∈ pieces bs) : String.utf8EncodeChar c = bytes := by
  fun_induction pieces bs with
  | case1 => cases h
  | case2 b rest piece ih =>
    rcases List.mem_cons.1 h with heq | h
    · exact encode_of_whole heq.symm
    · exact ih h

/-- **What is read as a text is its bytes.** -/
theorem bytesOf_of_decode? {bs : Bytes} {text : String} (h : decode? bs = some text) :
    bytesOf text = bs := by
  obtain ⟨chars, hchars, rfl⟩ := Option.map_eq_some_iff.1 h
  rw [bytesOf, String.toList_ofList,
    flatMap_encode_of_mapM (fun _ _ hmem => encode_of_mem_pieces hmem) hchars, bytes_pieces]

end Utf8

end Tarball
