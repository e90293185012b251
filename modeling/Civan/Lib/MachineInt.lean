import Mathlib.Tactic

/-!
# Fixed-width integers of the C++ source

Sizes and counters are natural numbers or integers.  What the source does to
them beyond exact arithmetic is written with the conversions below.
-/

namespace Civan
namespace MachineInt

/-- Subtraction on `size_t`. -/
def sizeSub (a b : ℕ) : ℕ :=
  if b ≤ a then a - b else a + 2 ^ 64 - b

/-- Conversion of a size to `int`. -/
def toInt32 (n : ℕ) : ℤ :=
  (n : ℤ).bmod (2 ^ 32)

/-- Conversion of a size to `int64_t`. -/
def toInt64 (n : ℕ) : ℤ :=
  (n : ℤ).bmod (2 ^ 64)

/-- `std::string::max_size()` of the library's compiler. -/
def stringMaxSize : ℕ :=
  2 ^ 62 - 1

theorem sizeSub_of_le {a b : ℕ} (h : b ≤ a) : sizeSub a b = a - b := by
  rw [sizeSub, if_pos h]

theorem sizeSub_of_lt {a b : ℕ} (h : a < b) : sizeSub a b = a + 2 ^ 64 - b := by
  rw [sizeSub, if_neg (Nat.not_le.mpr h)]

theorem toInt32_of_lt {n : ℕ} (h : n < 2 ^ 31) : toInt32 n = n := by
  apply Int.bmod_eq_of_le
  · omega
  · omega

theorem toInt32_eq (n : ℕ) :
    toInt32 n =
      if n % 2 ^ 32 < 2 ^ 31 then ((n % 2 ^ 32 : ℕ) : ℤ) else ((n % 2 ^ 32 : ℕ) : ℤ) - 2 ^ 32 := by
  unfold toInt32
  rw [Int.bmod_def]
  split_ifs <;> omega

/-- The numbers of 32 bits that stay positive. -/
theorem toInt32_pos_iff {n : ℕ} (h : n < 2 ^ 32) : 0 < toInt32 n ↔ 0 < n ∧ n < 2 ^ 31 := by
  rw [toInt32_eq, Nat.mod_eq_of_lt h]
  split_ifs <;> omega

theorem toInt64_of_lt {n : ℕ} (h : n < 2 ^ 63) : toInt64 n = n := by
  apply Int.bmod_eq_of_le
  · omega
  · omega

theorem toInt64_neg {n : ℕ} (hge : 2 ^ 63 ≤ n) (hlt : n < 2 ^ 64) : toInt64 n < 0 := by
  unfold toInt64
  have hdiv := Int.bmod_add_bdiv (n : ℤ) (2 ^ 64)
  have hhalf : (n : ℤ).bmod (2 ^ 64) < (2 ^ 64 + 1) / 2 := Int.bmod_lt (by omega)
  generalize (n : ℤ).bmod (2 ^ 64) = r at *
  generalize (n : ℤ).bdiv (2 ^ 64) = q at *
  omega

theorem toInt32_le (n : ℕ) : toInt32 n ≤ n := by
  rcases Nat.lt_or_ge n (2 ^ 31) with hlt | hge
  · exact (toInt32_of_lt hlt).le
  · have hhalf : toInt32 n < (2 ^ 32 + 1) / 2 := Int.bmod_lt (by omega)
    omega

theorem toInt32_eq_self_iff {n : ℕ} : toInt32 n = n ↔ n < 2 ^ 31 := by
  constructor
  · intro heq
    have hlt : toInt32 n < (2 ^ 32 + 1) / 2 := Int.bmod_lt (by omega)
    omega
  · exact toInt32_of_lt

end MachineInt
end Civan
