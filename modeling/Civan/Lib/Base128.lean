import Civan.Lib.Bytes
import Civan.Lib.PrefixCode

/-!
# The base-128 code

A sequence of bytes stands for the number whose base-128 digits are their low seven bits,
least significant first.  The variable-length image of a number is the shortest such
sequence, and its last byte is the only one with the top bit clear, so that the images
make a prefix code.
-/

namespace Civan
namespace Bytes

open PrefixCode InformationTheory

/-- The number that the low seven bits of the bytes stand for. -/
def ofGroups : List UInt8 → ℕ
  | [] => 0
  | x :: l => x.toNat % 128 + 128 * ofGroups l

/-- The top bit is clear. -/
def LastGroup (x : UInt8) : Prop :=
  x.toNat < 128

theorem toNat_moreGroup (v : ℕ) : (UInt8.ofNat (v % 128 + 128)).toNat = v % 128 + 128 := by
  rw [UInt8.toNat_ofNat']
  omega

theorem toNat_lastGroup {v : ℕ} (hv : v < 128) : (UInt8.ofNat v).toNat = v := by
  rw [UInt8.toNat_ofNat']
  omega

theorem ofGroups_varint (v : ℕ) : ofGroups (varint v) = v := by
  induction v using Nat.strong_induction_on with
  | _ v ih =>
    by_cases hbig : 128 ≤ v
    · rw [varint, if_pos hbig, ofGroups, toNat_moreGroup, ih (v / 128) (by omega)]
      omega
    · rw [varint, if_neg hbig, ofGroups, ofGroups, toNat_lastGroup (by omega)]
      omega

theorem varint_injective : Function.Injective varint := by
  intro v v' h
  rw [← ofGroups_varint v, ← ofGroups_varint v', h]

theorem terminated_varint (v : ℕ) : Terminated LastGroup (varint v) := by
  induction v using Nat.strong_induction_on with
  | _ v ih =>
    by_cases hbig : 128 ≤ v
    · rw [varint, if_pos hbig]
      refine terminated_cons ?_ (ih (v / 128) (by omega))
      rw [LastGroup, toNat_moreGroup]
      omega
    · rw [varint, if_neg hbig]
      show (UInt8.ofNat v).toNat < 128
      rw [toNat_lastGroup (by omega)]
      omega

/-- `k` groups hold the numbers below `128 ^ k`. -/
theorem length_varint_le_iff (k v : ℕ) : (varint v).length ≤ k + 1 ↔ v < 128 ^ (k + 1) := by
  induction k generalizing v with
  | zero =>
    by_cases hbig : 128 ≤ v
    · have hpos := List.length_pos_iff.mpr (varint_ne_nil (v / 128))
      rw [length_varint_more hbig]
      omega
    · rw [length_varint_last (by omega)]
      omega
  | succ k ih =>
    by_cases hbig : 128 ≤ v
    · rw [length_varint_more hbig, Nat.succ_le_succ_iff, ih,
        Nat.div_lt_iff_lt_mul (by decide), ← pow_succ]
    · have hpow : 128 ^ 1 ≤ 128 ^ (k + 1 + 1) := Nat.pow_le_pow_right (by decide) (by omega)
      rw [length_varint_last (by omega)]
      omega

theorem ofGroups_lt (l : List UInt8) : ofGroups l < 128 ^ l.length := by
  induction l with
  | nil => simp [ofGroups]
  | cons x l ih =>
    have hx : x.toNat % 128 < 128 := Nat.mod_lt _ (by decide)
    rw [ofGroups, List.length_cons, pow_succ]
    omega

/-- No sequence of groups for the number is shorter. -/
theorem length_varint_le {v : ℕ} {l : List UInt8} (hne : l ≠ []) (hl : ofGroups l = v) :
    (varint v).length ≤ l.length := by
  obtain ⟨k, hk⟩ := Nat.exists_eq_add_one_of_ne_zero (List.length_pos_iff.mpr hne).ne'
  have hlt := ofGroups_lt l
  rw [hl, hk] at hlt
  rw [hk]
  exact (length_varint_le_iff k v).mpr hlt

/-- Images of numbers make a prefix code. -/
theorem eq_of_prefix_varint {v v' : ℕ} (h : varint v <+: varint v') : v = v' :=
  varint_injective
    (prefixFree_terminated LastGroup _ (terminated_varint v) _ (terminated_varint v') h)

theorem uniquelyDecodable_terminated :
    UniquelyDecodable {l : List UInt8 | Terminated LastGroup l} :=
  (prefixFree_terminated LastGroup).uniquelyDecodable fun h => h

end Bytes
end Civan
