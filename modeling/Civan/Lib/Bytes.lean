import Mathlib.Data.List.Basic
import Mathlib.Tactic.Ring

/-!
# Numbers as bytes

The little-endian image of a number in a fixed number of bytes, and the
base-128 variable-length image whose bytes have the top bit set except the
last.
-/

namespace Civan
namespace Bytes

/-- The `k` low bytes of `v`, least significant first. -/
def leBytes : ℕ → ℕ → List UInt8
  | 0, _ => []
  | k + 1, v => UInt8.ofNat v :: leBytes k (v / 256)

/-- The number with the given little-endian bytes. -/
def ofLeBytes : List UInt8 → ℕ
  | [] => 0
  | b :: l => b.toNat + 256 * ofLeBytes l

@[simp] theorem length_leBytes (k v : ℕ) : (leBytes k v).length = k := by
  induction k generalizing v with
  | zero => rfl
  | succ k ih => simp [leBytes, ih]

theorem ofLeBytes_leBytes (k v : ℕ) : ofLeBytes (leBytes k v) = v % 256 ^ k := by
  induction k generalizing v with
  | zero => rw [leBytes, ofLeBytes, Nat.pow_zero, Nat.mod_one]
  | succ k ih =>
    have hpow : 256 ^ (k + 1) = 256 * 256 ^ k := Nat.pow_succ'
    rw [leBytes, ofLeBytes, ih, UInt8.toNat_ofNat', hpow, Nat.mod_mul]

theorem ofLeBytes_lt (l : List UInt8) : ofLeBytes l < 256 ^ l.length := by
  induction l with
  | nil => exact Nat.one_pos
  | cons b l ih =>
    have hb := b.toNat_lt
    rw [ofLeBytes, List.length_cons, Nat.pow_succ']
    omega

theorem leBytes_ofLeBytes (l : List UInt8) : leBytes l.length (ofLeBytes l) = l := by
  induction l with
  | nil => rfl
  | cons b l ih =>
    have hb := b.toNat_lt
    have hdiv : (b.toNat + 256 * ofLeBytes l) / 256 = ofLeBytes l := by omega
    rw [ofLeBytes, List.length_cons, leBytes, hdiv, ih]
    congr 1
    apply UInt8.toNat_inj.mp
    rw [UInt8.toNat_ofNat']
    omega

/-- A byte of the image. -/
theorem getElem?_leBytes {k j : ℕ} (hj : j < k) (v : ℕ) :
    (leBytes k v)[j]? = some (UInt8.ofNat (v / 256 ^ j)) := by
  induction k generalizing j v with
  | zero => omega
  | succ k ih =>
    cases j with
    | zero => simp [leBytes]
    | succ j =>
      rw [leBytes, List.getElem?_cons_succ, ih (by omega), Nat.div_div_eq_div_mul,
        ← Nat.pow_succ']

/-- A bit of a number is a bit of one of its bytes. -/
theorem testBit_ofLeBytes (l : List UInt8) (i : ℕ) :
    (ofLeBytes l).testBit i = ((l[i / 8]?).getD 0).toNat.testBit (i % 8) := by
  induction l generalizing i with
  | nil => simp [ofLeBytes]
  | cons b l ih =>
    have hb : b.toNat < 2 ^ 8 := b.toNat_lt
    rw [ofLeBytes, Nat.add_comm, Nat.testBit_two_pow_mul_add _ hb]
    by_cases hi : i < 8
    · rw [if_pos hi, Nat.div_eq_of_lt hi, Nat.mod_eq_of_lt hi]
      rfl
    · have hdiv : i / 8 = (i - 8) / 8 + 1 := by omega
      have hmod : (i - 8) % 8 = i % 8 := by omega
      rw [if_neg hi, ih, hdiv, hmod, List.getElem?_cons_succ]

/-- The base-128 image of `v`. -/
def varint (v : ℕ) : List UInt8 :=
  if 128 ≤ v then
    UInt8.ofNat (v % 128 + 128) :: varint (v / 128)
  else
    [UInt8.ofNat v]
termination_by v
decreasing_by omega

theorem varint_ne_nil (v : ℕ) : varint v ≠ [] := by
  rw [varint]
  split <;> simp

theorem length_varint_more {w : ℕ} (hbig : 128 ≤ w) :
    (varint w).length = (varint (w / 128)).length + 1 := by
  rw [varint, if_pos hbig, List.length_cons]

theorem length_varint_last {w : ℕ} (hlast : w < 128) : (varint w).length = 1 := by
  rw [varint, if_neg (by omega), List.length_singleton]

end Bytes
end Civan
