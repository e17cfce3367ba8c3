/-
  Numbers written with digits.

  A number is an optional plus sign and one or more digits of a base up to ten,
  as many as one likes; its value has to stay below a bound.

  * `Numeral.read?` reads such a text (`read?_eq_some_iff` says which texts it
    accepts and as what);
  * `Numeral.read?_toDigits`: what printing a number gives is read as that
    number.
-/

namespace Tarball.Numeral

/-- The digits of a base up to ten. -/
def isDigit (base : Nat) (c : Char) : Bool :=
  '0'.toNat ≤ c.toNat && c.toNat < '0'.toNat + base

/-- A text without a plus sign at its front. -/
def unsigned : List Char → List Char
  | '+' :: rest => rest
  | cs => cs

/-- The number a text spells in a base, if it spells one below the bound. -/
def read? (base bound : Nat) (cs : List Char) : Option Nat :=
  let digits := unsigned cs
  let value := Nat.ofDigitChars base digits 0
  if digits ≠ [] ∧ digits.all (isDigit base) ∧ value < bound then some value else none

theorem read?_eq_some_iff {base bound n : Nat} {cs : List Char} :
    read? base bound cs = some n ↔
      unsigned cs ≠ [] ∧ (∀ c ∈ unsigned cs, isDigit base c) ∧
        Nat.ofDigitChars base (unsigned cs) 0 = n ∧ n < bound := by
  unfold read?
  dsimp only
  split
  · next h =>
    simp only [Option.some.injEq]
    constructor
    · rintro rfl
      exact ⟨h.1, List.all_eq_true.1 h.2.1, rfl, h.2.2⟩
    · exact fun h' => h'.2.2.1
  · next h =>
    simp only [reduceCtorEq, false_iff]
    rintro ⟨h1, h2, rfl, h3⟩
    exact h ⟨h1, List.all_eq_true.2 h2, h3⟩

theorem isDigit_of_mem_toDigits {base n : Nat} (hb : 1 < base) (hb' : base ≤ 10) {c : Char}
    (h : c ∈ Nat.toDigits base n) : isDigit base c := by
  induction n using Nat.strongRecOn with
  | ind n ih =>
    have hlt : ∀ {d : Nat}, d < base → isDigit base (Nat.digitChar d) := by
      intro d hd
      have := Nat.toNat_digitChar_of_lt_ten (Nat.lt_of_lt_of_le hd hb')
      have h0 : '0'.toNat = 48 := rfl
      simp only [isDigit, this, h0, Bool.and_eq_true, decide_eq_true_eq]
      omega
    rw [Nat.toDigits_eq_if hb] at h
    split at h
    · next hn =>
      rw [List.mem_singleton] at h
      exact h ▸ hlt hn
    · next hn =>
      rcases List.mem_append.1 h with h | h
      · exact ih _ (Nat.div_lt_self (by omega) hb) h
      · rw [List.mem_singleton] at h
        exact h ▸ hlt (Nat.mod_lt _ (by omega))

theorem unsigned_of_all_digits {base : Nat} {cs : List Char} (h : ∀ c ∈ cs, isDigit base c) :
    unsigned cs = cs := by
  unfold unsigned
  split
  · next rest => exact absurd (h '+' List.mem_cons_self) (by simp [isDigit])
  · rfl

/-- What printing a number gives is read as that number. -/
theorem read?_toDigits {base bound n : Nat} (hb : 1 < base) (hb' : base ≤ 10) (h : n < bound) :
    read? base bound (Nat.toDigits base n) = some n := by
  have hd : ∀ c ∈ Nat.toDigits base n, isDigit base c := fun c hc =>
    isDigit_of_mem_toDigits hb hb' hc
  rw [read?_eq_some_iff, unsigned_of_all_digits hd]
  exact ⟨Nat.toDigits_ne_nil, hd, Nat.ofDigitChars_toDigits hb hb', h⟩

/-- A number in base ten that fits a word of 64 bits. -/
def readWord? (cs : List Char) : Option UInt64 :=
  (read? 10 UInt64.size cs).map UInt64.ofNat

end Tarball.Numeral
