import Civan.Lib.Base128
import Civan.ByteArray.Typed

/-!
# ByteArray: variable-length numbers as a code

`writeUint32` and `writeUint64` collect the groups of a number in a buffer `tmp` of five
and of ten bytes, without a check of the index, and write as many bytes as they stored.
The loop ends before the buffer does, and the bytes are the base-128 image of the number.
-/

namespace Civan
namespace ByteArray

open Bytes PrefixCode InformationTheory

section Model

variable {w : ℕ}

/-- The loop that stores into `tmp`, of which `room` places are left: the bytes from here
on.  A store behind the end of `tmp` is `none`. -/
def storeGroups : ℕ → BitVec w → Option (List UInt8)
  | 0, _ => none
  | room + 1, value =>
    if value ≥ 0x80#w then
      (storeGroups room (value >>> 7)).map
        (UInt8.ofNat ((value &&& 0x7f#w) ||| 0x80#w).toNat :: ·)
    else
      some [UInt8.ofNat value.toNat]

/-- `tmp` of `writeUint32`. -/
def tmpUint32 (value : BitVec 32) : Option (List UInt8) :=
  storeGroups 5 value

/-- `tmp` of `writeUint64`. -/
def tmpUint64 (value : BitVec 64) : Option (List UInt8) :=
  storeGroups 10 value

end Model

section Stores

variable {w : ℕ}

theorem toNat_ofNat_width (hw : 8 ≤ w) {n : ℕ} (hn : n < 256) :
    (BitVec.ofNat w n).toNat = n := by
  have hpow : 2 ^ 8 ≤ 2 ^ w := Nat.pow_le_pow_right (by decide) hw
  rw [BitVec.toNat_ofNat]
  exact Nat.mod_eq_of_lt (by omega)

theorem toNat_moreByte (hw : 8 ≤ w) (value : BitVec w) :
    ((value &&& 0x7f#w) ||| 0x80#w).toNat = value.toNat % 128 + 128 := by
  have hand : value.toNat &&& 0x7f = value.toNat % 2 ^ 7 :=
    Nat.and_two_pow_sub_one_eq_mod _ 7
  have htop : 0x80 = 2 ^ 7 * 1 := rfl
  rw [BitVec.toNat_or, BitVec.toNat_and, toNat_ofNat_width hw (by decide),
    toNat_ofNat_width hw (by decide), hand, Nat.or_comm, htop,
    ← Nat.two_pow_add_eq_or_of_lt (Nat.mod_lt _ (by decide)), Nat.add_comm, mul_one]

theorem storeGroups_eq (hw : 8 ≤ w) {room : ℕ} {value : BitVec w}
    (hroom : value.toNat < 128 ^ (room + 1)) :
    storeGroups (room + 1) value = some (varint value.toNat) := by
  have hmore : value ≥ 0x80#w ↔ 128 ≤ value.toNat := by
    rw [ge_iff_le, BitVec.le_def, toNat_ofNat_width hw (by decide)]
  by_cases hbig : 128 ≤ value.toNat
  · cases room with
    | zero => omega
    | succ room =>
      have hshift : (value >>> 7).toNat = value.toNat / 128 := by
        rw [BitVec.toNat_ushiftRight, Nat.shiftRight_eq_div_pow]
      have hrest : (value >>> 7).toNat < 128 ^ (room + 1) := by
        rw [hshift, Nat.div_lt_iff_lt_mul (by decide), ← pow_succ]
        exact hroom
      rw [storeGroups, if_pos (hmore.mpr hbig), storeGroups_eq hw hrest, Option.map_some,
        toNat_moreByte hw, hshift, varint.eq_1 value.toNat, if_pos hbig]
  · rw [storeGroups, if_neg (fun h => hbig (hmore.mp h)), varint, if_neg hbig]

theorem tmpUint32_eq (value : BitVec 32) : tmpUint32 value = some (varint value.toNat) :=
  storeGroups_eq (by decide) (Nat.lt_trans value.isLt (by decide))

theorem tmpUint64_eq (value : BitVec 64) : tmpUint64 value = some (varint value.toNat) :=
  storeGroups_eq (by decide) (Nat.lt_trans value.isLt (by decide))

end Stores

section Code

variable {w : ℕ}

/-- Numbers of `w` bits go through a buffer of `cap` bytes, and the bytes that are
stored in it and written make a code. -/
structure Coded (cap : ℕ) (tmp : BitVec w → Option (List UInt8))
    (put : BitVec w → Op Unit) : Prop where
  /-- The loop ends inside the buffer, and what it stored is written. -/
  stored : ∀ value, ∃ l, tmp value = some l ∧ l.length ≤ cap ∧ put value = write l
  /-- At least one byte. -/
  nonempty : ∀ value, ∀ l ∈ tmp value, 1 ≤ l.length
  /-- Exactly the last byte has its top bit clear. -/
  top_bit : ∀ value, ∀ l ∈ tmp value, ∀ (i : ℕ) (x : UInt8), l[i]? = some x →
    (x.toNat < 128 ↔ i + 1 = l.length)
  /-- The groups stand for the number, and no fewer groups do. -/
  shortest : ∀ value, ∀ l ∈ tmp value, ofGroups l = value.toNat ∧
    ∀ l', l' ≠ [] → ofGroups l' = value.toNat → l.length ≤ l'.length
  /-- No encoding begins that of another number. -/
  prefix_free : ∀ value value', ∀ l ∈ tmp value, ∀ l' ∈ tmp value', l <+: l' → value = value'
  /-- A text is the concatenation of encodings in one way only. -/
  unique : ∀ values values' : List (BitVec w), ∀ ls ∈ values.mapM tmp, ∀ ls' ∈ values'.mapM tmp,
    ls.flatten = ls'.flatten → values = values'

theorem mapM_eq_some {tmp : BitVec w → Option (List UInt8)}
    (htmp : ∀ value, tmp value = some (varint value.toNat)) (values : List (BitVec w)) :
    values.mapM tmp = some (values.map fun value => varint value.toNat) := by
  induction values with
  | nil => rfl
  | cons value values ih => simp [List.mapM_cons, htmp, ih]

theorem coded_of_varint
    {cap : ℕ} {tmp : BitVec w → Option (List UInt8)} {put : BitVec w → Op Unit}
    (htmp : ∀ value, tmp value = some (varint value.toNat))
    (hput : ∀ value, put value = write (varint value.toNat))
    (hcap : ∀ value : BitVec w, (varint value.toNat).length ≤ cap) :
    Coded cap tmp put where
  stored value := ⟨_, htmp value, hcap value, hput value⟩
  nonempty := by
    intro value l hl
    cases (htmp value).symm.trans hl
    exact List.length_pos_iff.mpr (varint_ne_nil _)
  top_bit := by
    intro value l hl i x hx
    cases (htmp value).symm.trans hl
    exact (terminated_varint _).last_iff hx
  shortest := by
    intro value l hl
    cases (htmp value).symm.trans hl
    exact ⟨ofGroups_varint _, fun l' hne hl' => length_varint_le hne hl'⟩
  prefix_free := by
    intro value value' l hl l' hl' hpre
    cases (htmp value).symm.trans hl
    cases (htmp value').symm.trans hl'
    exact BitVec.eq_of_toNat_eq (eq_of_prefix_varint hpre)
  unique := by
    intro values values' ls hls ls' hls' hflat
    have himage : ∀ values : List (BitVec w),
        ∀ l ∈ values.map (fun value => varint value.toNat), Terminated LastGroup l := by
      intro values l hl
      obtain ⟨value, _, rfl⟩ := List.mem_map.mp hl
      exact terminated_varint _
    cases (mapM_eq_some htmp values).symm.trans hls
    cases (mapM_eq_some htmp values').symm.trans hls'
    have heq := uniquelyDecodable_terminated _ _ (himage values) (himage values') hflat
    refine List.map_injective_iff.mpr ?_ heq
    intro value value' h
    exact BitVec.eq_of_toNat_eq (varint_injective h)

/--
For every 32-bit number `writeUint32` stores at most five bytes in `tmp` and writes from
one to five, and for every 64-bit number `writeUint64` at most ten.  Exactly the last byte
has its top bit clear, no shorter sequence of groups stands for the number, no encoding
begins another one, and a concatenation of encodings splits in one way.
-/
theorem varints_coded : Coded 5 tmpUint32 writeUint32 ∧ Coded 10 tmpUint64 writeUint64 := by
  constructor
  · refine coded_of_varint tmpUint32_eq (fun _ => rfl) ?_
    intro value
    exact (length_varint_le_iff 4 _).mpr (Nat.lt_trans value.isLt (by decide))
  · refine coded_of_varint tmpUint64_eq (fun _ => rfl) ?_
    intro value
    exact (length_varint_le_iff 9 _).mpr (Nat.lt_trans value.isLt (by decide))

end Code

end ByteArray
end Civan
