/-
  Bytes and the text they spell.

  File names and file contents are bytes; names inside an archive, arguments
  and messages are text.  Text goes to bytes by UTF-8, and bytes that are not
  the UTF-8 of anything are still shown: every maximal fragment of a character
  that was broken off stands for one replacement mark.

  * `bytesOf` is the UTF-8 of a text;
  * `Utf8.pieces` cuts bytes into whole characters and broken fragments
    (`Utf8.bytes_pieces`: nothing is lost or added);
  * `Utf8.decode?` reads bytes as text if no fragment is broken, and
    `Utf8.display` shows any bytes.
-/

namespace Tarball

/-- A string of bytes. -/
abbrev Bytes := List UInt8

/-- The UTF-8 of a text. -/
def bytesOf (text : String) : Bytes :=
  text.toList.flatMap String.utf8EncodeChar

namespace Utf8

/-- A part of a byte string: a whole character, or the bytes of one that was
    broken off or never began. -/
inductive Piece where
  | whole (c : Char) (bytes : Bytes)
  | broken (bytes : Bytes)
  deriving DecidableEq, Repr

/-- The bytes a piece stands for. -/
def Piece.bytes : Piece → Bytes
  | whole _ bs | broken bs => bs

/-- The character of a whole piece. -/
def Piece.char? : Piece → Option Char
  | whole c _ => some c
  | broken _ => none

/-- What a first byte asks for: how many bytes follow it, and the lowest and
    the highest value of the first of those.  The bounds keep out spellings
    that are too long, surrogates and numbers above the last character. -/
def lead (b : UInt8) : Option (Nat × UInt8 × UInt8) :=
  if b < 0x80 then some (0, 0x80, 0xBF)
  else if b < 0xC2 then none
  else if b < 0xE0 then some (1, 0x80, 0xBF)
  else if b = 0xE0 then some (2, 0xA0, 0xBF)
  else if b = 0xED then some (2, 0x80, 0x9F)
  else if b < 0xF0 then some (2, 0x80, 0xBF)
  else if b = 0xF0 then some (3, 0x90, 0xBF)
  else if b < 0xF4 then some (3, 0x80, 0xBF)
  else if b = 0xF4 then some (3, 0x80, 0x8F)
  else none

/-- The longest run of at most `n` bytes at the front that can follow a first
    byte, the first of them between `lo` and `hi`. -/
def following : Nat → UInt8 → UInt8 → Bytes → Bytes
  | 0, _, _, _ | _, _, _, [] => []
  | n + 1, lo, hi, b :: rest =>
    if lo ≤ b ∧ b ≤ hi then b :: following n 0x80 0xBF rest else []

/-- The bits of a first byte that belong to the character's number, when `n`
    bytes follow it. -/
def leadBits (b : UInt8) : Nat → Nat
  | 0 => b.toNat
  | 1 => b.toNat % 32
  | 2 => b.toNat % 16
  | _ => b.toNat % 8

/-- The character of a first byte and all that follow it. -/
def assemble (b : UInt8) (tail : Bytes) : Char :=
  Char.ofNat (tail.foldl (fun v t => v * 64 + t.toNat % 64) (leadBits b tail.length))

/-- The piece that starts with the byte `b`, before `rest`. -/
def pieceAt (b : UInt8) (rest : Bytes) : Piece :=
  match lead b with
  | none => .broken [b]
  | some (n, lo, hi) =>
    let tail := following n lo hi rest
    if tail.length = n then .whole (assemble b tail) (b :: tail) else .broken (b :: tail)

theorem following_isPrefix (n : Nat) (lo hi : UInt8) (bs : Bytes) :
    following n lo hi bs <+: bs := by
  fun_induction following n lo hi bs with
  | case1 => simp
  | case2 => simp
  | case3 n lo hi b rest _ ih => exact List.cons_prefix_cons.2 ⟨rfl, ih⟩
  | case4 => simp

/-- A piece is taken off the front of the bytes. -/
theorem bytes_pieceAt (b : UInt8) (rest : Bytes) :
    ∃ tail, (pieceAt b rest).bytes = b :: tail ∧ tail <+: rest := by
  unfold pieceAt
  split
  · exact ⟨[], rfl, List.nil_prefix⟩
  · next n lo hi _ =>
    refine ⟨following n lo hi rest, ?_, following_isPrefix n lo hi rest⟩
    dsimp only
    split <;> rfl

/-- The pieces of a byte string, in order. -/
def pieces : Bytes → List Piece
  | [] => []
  | b :: rest =>
    let piece := pieceAt b rest
    piece :: pieces (rest.drop (piece.bytes.length - 1))
  termination_by bs => bs.length
  decreasing_by simp only [List.length_drop, List.length_cons]; omega

/-- Cutting into pieces loses no byte and adds none. -/
theorem bytes_pieces (bs : Bytes) : (pieces bs).flatMap Piece.bytes = bs := by
  fun_induction pieces bs with
  | case1 => rfl
  | case2 b rest piece ih =>
    obtain ⟨tail, hb, ht⟩ := bytes_pieceAt b rest
    have hp : piece.bytes = b :: tail := hb
    rw [List.flatMap_cons, ih, hp]
    simp only [List.length_cons, Nat.add_sub_cancel, List.cons_append, List.cons.injEq, true_and]
    exact List.prefix_iff_eq_append.1 ht

/-- The text of a byte string that is UTF-8 throughout. -/
def decode? (bs : Bytes) : Option String :=
  ((pieces bs).mapM Piece.char?).map String.ofList

/-- A byte string as it is shown: each broken fragment as one replacement
    mark. -/
def display (bs : Bytes) : String :=
  String.ofList ((pieces bs).map fun p => p.char?.getD '\uFFFD')

end Utf8

end Tarball
