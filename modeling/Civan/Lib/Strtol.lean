import Mathlib.Tactic

/-!
# `strtol` and `atoi`

The number at the head of a text: blanks, a sign, for base sixteen a `0x`, then as many
digits of the base as there are.  What does not fit into a `long` is clamped, and an
`int` keeps the low bits.
-/

namespace Civan
namespace Strtol

/-- `isspace` in the C locale. -/
def isspace (c : UInt8) : Bool :=
  c == 32 || (9 ≤ c && c ≤ 13)

/-- What a byte counts as a digit; no digit of any base counts 36. -/
def digitOf (c : UInt8) : ℕ :=
  if 48 ≤ c ∧ c ≤ 57 then c.toNat - 48
  else if 97 ≤ c ∧ c ≤ 122 then c.toNat - 87
  else if 65 ≤ c ∧ c ≤ 90 then c.toNat - 55
  else 36

/-- The digits of the base at the head of a text. -/
def digits (base : ℕ) (s : List UInt8) : List UInt8 :=
  s.takeWhile fun c => decide (digitOf c < base)

/-- The number a list of digits stands for. -/
def value (base : ℕ) (s : List UInt8) : ℕ :=
  s.foldl (fun n c => base * n + digitOf c) 0

/-- The sign, and the text after it. -/
def sign : List UInt8 → Bool × List UInt8
  | 45 :: s => (true, s)
  | 43 :: s => (false, s)
  | s => (false, s)

/-- The `0x` of base sixteen is skipped if a digit follows it. -/
def skipHexMark (base : ℕ) : List UInt8 → List UInt8
  | 48 :: x :: d :: s =>
    if base = 16 ∧ (x = 120 ∨ x = 88) ∧ digitOf d < 16 then d :: s else 48 :: x :: d :: s
  | s => s

/-- `strtol(s, NULL, base)`. -/
def strtol (base : ℕ) (s : List UInt8) : ℤ :=
  let (negative, s) := sign (s.dropWhile isspace)
  let n : ℤ := value base (digits base (skipHexMark base s))
  max (-2 ^ 63) (min (2 ^ 63 - 1) (if negative then -n else n))

/-- A `long` stored in an `int`. -/
def strtolInt (base : ℕ) (s : List UInt8) : ℤ :=
  (strtol base s).bmod (2 ^ 32)

/-- `atoi`. -/
def atoi (s : List UInt8) : ℤ :=
  strtolInt 10 s

section Decimal

theorem digitOf_of_decimal {c : UInt8} (hc : 48 ≤ c ∧ c ≤ 57) : digitOf c = c.toNat - 48 := by
  rw [digitOf, if_pos hc]

theorem digitOf_lt_ten_iff {c : UInt8} : digitOf c < 10 ↔ 48 ≤ c ∧ c ≤ 57 := by
  simp only [digitOf, UInt8.le_iff_toNat_le, UInt8.toNat_ofNat]
  split_ifs <;> omega

/-- Digits up to a byte that is none. -/
theorem digits_append {base : ℕ} {s rest : List UInt8} (hs : ∀ c ∈ s, digitOf c < base)
    (hrest : ∀ c ∈ rest.head?, ¬ digitOf c < base) :
    digits base (s ++ rest) = s := by
  have hnone : digits base rest = [] := by
    cases rest with
    | nil => rfl
    | cons c rest =>
      rw [digits, List.takeWhile_cons, if_neg]
      rw [decide_eq_true_eq]
      exact hrest c rfl
  rw [digits] at hnone ⊢
  rw [List.takeWhile_append_of_pos (by simpa using hs), hnone, List.append_nil]

/-- A text that begins with a decimal digit has no blanks, no sign and no `0x`. -/
theorem strtol_ten_of_digit {c : UInt8} {s : List UInt8} (hc : 48 ≤ c ∧ c ≤ 57) :
    strtol 10 (c :: s) = min (2 ^ 63 - 1) (value 10 (digits 10 (c :: s)) : ℤ) := by
  have hspace : isspace c = false := by
    simp only [isspace, Bool.or_eq_false_iff, beq_eq_false_iff_ne, Bool.and_eq_false_iff,
      decide_eq_false_iff_not, ne_eq, ← UInt8.toNat_inj, UInt8.le_iff_toNat_le,
      UInt8.toNat_ofNat] at hc ⊢
    omega
  have hsign : sign (c :: s) = (false, c :: s) := by
    unfold sign
    split
    · rename_i h
      obtain ⟨rfl, -⟩ := List.cons.inj h
      exact absurd hc (by decide)
    · rename_i h
      obtain ⟨rfl, -⟩ := List.cons.inj h
      exact absurd hc (by decide)
    · rfl
  have hmark : skipHexMark 10 (c :: s) = c :: s := by
    unfold skipHexMark
    split
    · rename_i h
      rw [if_neg (fun hbase => absurd hbase.1 (by decide)), h]
    · rfl
  rw [strtol, List.dropWhile_cons_of_neg (by simp [hspace]), hsign]
  dsimp only
  rw [hmark, if_neg (by decide)]
  omega

/-- The decimal number at the head of a text, if it is small enough for an `int`. -/
theorem atoi_digits_append {s rest : List UInt8} (hne : s ≠ []) (hs : ∀ c ∈ s, 48 ≤ c ∧ c ≤ 57)
    (hrest : ∀ c ∈ rest.head?, ¬ (48 ≤ c ∧ c ≤ 57)) (hlt : value 10 s < 2 ^ 31) :
    atoi (s ++ rest) = value 10 s := by
  have hdigits : digits 10 (s ++ rest) = s := by
    apply digits_append
    · intro c hc
      exact digitOf_lt_ten_iff.mpr (hs c hc)
    · intro c hc
      rw [digitOf_lt_ten_iff]
      exact hrest c hc
  cases s with
  | nil => exact absurd rfl hne
  | cons c s =>
    rw [atoi, strtolInt, List.cons_append, strtol_ten_of_digit (hs c List.mem_cons_self),
      ← List.cons_append, hdigits, min_eq_right (by omega)]
    apply Int.bmod_eq_of_le
    · omega
    · omega

end Decimal

end Strtol
end Civan
