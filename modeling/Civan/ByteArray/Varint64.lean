import Civan.ByteArray.RoundTrip

/-!
# ByteArray: 64-bit numbers

`writeUint64` and `writeInt64` encode all 64 bits.  The way back loses some of
them: `readUint64` collects its groups in a `uint32_t`, and `DecodeZigzag64`
shifts a signed value, so the sign bit of the code comes in from the left.  The
reader still takes exactly the bytes that were written, so what follows in the
array is not disturbed.
-/

namespace Civan
namespace ByteArray

open Bytes

section Zigzag

theorem toNat_encodeZigzag64 (v : BitVec 64) :
    (encodeZigzag64 v).toNat =
      if 2 ^ 63 ≤ v.toNat then 2 * (2 ^ 64 - v.toNat) - 1 else 2 * v.toNat := by
  have hv := v.isLt
  have htwo : (2 : BitVec 64).toNat = 2 := rfl
  have hone : (1 : BitVec 64).toNat = 1 := rfl
  have hint := BitVec.toInt_eq_toNat_cond v
  rw [encodeZigzag64]
  by_cases hneg : 2 ^ 63 ≤ v.toNat
  · have hlt : v.toInt < 0 := by
      rw [hint]
      split <;> omega
    rw [if_pos hneg, if_pos hlt, BitVec.toNat_sub, BitVec.toNat_mul, BitVec.toNat_neg, htwo, hone]
    omega
  · have hge : ¬ v.toInt < 0 := by
      rw [hint]
      split <;> omega
    rw [if_neg hneg, if_neg hge, BitVec.toNat_mul, htwo]
    omega

theorem toNat_sshiftRight_one (u : BitVec 64) :
    (u.sshiftRight 1).toNat = if 2 ^ 63 ≤ u.toNat then u.toNat / 2 + 2 ^ 63 else u.toNat / 2 := by
  have hu := u.isLt
  have hmsb := BitVec.msb_eq_decide u
  by_cases htop : 2 ^ 63 ≤ u.toNat
  · have hset : u.msb = true := by
      rw [hmsb]
      exact decide_eq_true htop
    rw [if_pos htop, BitVec.sshiftRight_eq_of_msb_true hset, BitVec.toNat_not,
      BitVec.toNat_ushiftRight, BitVec.toNat_not, Nat.shiftRight_one]
    omega
  · have hclear : u.msb = false := by
      rw [hmsb]
      exact decide_eq_false htop
    rw [if_neg htop, BitVec.sshiftRight_eq_of_msb_false hclear, BitVec.toNat_ushiftRight,
      Nat.shiftRight_one]

theorem toNat_decodeZigzag64 (u : BitVec 64) :
    (decodeZigzag64 u).toNat =
      if u.toNat % 2 = 1 then 2 ^ 64 - 1 - (u.sshiftRight 1).toNat
      else (u.sshiftRight 1).toNat := by
  have hbit : (u &&& 1).toNat = u.toNat % 2 := by
    have hone : (1 : BitVec 64).toNat = 1 := rfl
    rw [BitVec.toNat_and, hone, Nat.and_one_is_mod]
  rw [decodeZigzag64]
  by_cases hodd : u.toNat % 2 = 1
  · have hand : u &&& 1 = 1 := BitVec.eq_of_toNat_eq (hbit.trans hodd)
    have hneg : -(1 : BitVec 64) = BitVec.allOnes 64 := rfl
    rw [if_pos hodd, hand, hneg, BitVec.xor_allOnes, BitVec.toNat_not]
  · have hand : u &&& 1 = 0#64 := by
      apply BitVec.eq_of_toNat_eq
      rw [hbit]
      change u.toNat % 2 = 0
      omega
    rw [if_neg hodd, hand, BitVec.neg_zero, BitVec.xor_zero]

theorem decodeZigzag64_encodeZigzag64_iff (v : BitVec 64) :
    decodeZigzag64 (encodeZigzag64 v) = v ↔ v.toNat < 2 ^ 62 ∨ 2 ^ 64 - 2 ^ 62 ≤ v.toNat := by
  have hv := v.isLt
  rw [← BitVec.toNat_inj, toNat_decodeZigzag64, toNat_sshiftRight_one, toNat_encodeZigzag64]
  split_ifs <;> omega

theorem encodeZigzag64_decodeZigzag64_iff (u : BitVec 64) :
    encodeZigzag64 (decodeZigzag64 u) = u ↔ u.toNat < 2 ^ 63 := by
  have hu := u.isLt
  rw [← BitVec.toNat_inj, toNat_encodeZigzag64, toNat_decodeZigzag64, toNat_sshiftRight_one]
  split_ifs <;> omega

/--
**Zigzag on 64 bits.**  `DecodeZigzag64` and `EncodeZigzag64` are inverse to each
other exactly between the numbers of magnitude up to `2 ^ 62` and the codes below
`2 ^ 63`; every other number and every other code comes back changed.
-/
theorem zigzag64_inverse_iff (v u : BitVec 64) :
    (decodeZigzag64 (encodeZigzag64 v) = v ↔ -2 ^ 62 ≤ v.toInt ∧ v.toInt < 2 ^ 62) ∧
    (encodeZigzag64 (decodeZigzag64 u) = u ↔ u.toNat < 2 ^ 63) := by
  refine ⟨?_, encodeZigzag64_decodeZigzag64_iff u⟩
  have hv := v.isLt
  rw [decodeZigzag64_encodeZigzag64_iff, BitVec.toInt_eq_toNat_cond]
  split <;> omega

/-- `2 ^ 62` comes back as `-2 ^ 62`, `INT64_MIN` as `0`, and the code of
`2 ^ 62` is not the code of what it decodes to. -/
theorem zigzag64_top_bit :
    (decodeZigzag64 (encodeZigzag64 0x4000000000000000)).toInt = -2 ^ 62 ∧
    decodeZigzag64 (encodeZigzag64 0x8000000000000000) = 0 ∧
    encodeZigzag64 (decodeZigzag64 0x8000000000000000) = 0x7fffffffffffffff := by
  decide

end Zigzag

section Uint64

/-- Write a number, go back to the start and read it. -/
def roundTripUint64 (value : BitVec 64) : Op (BitVec 64) := do
  writeUint64 value
  setPosition 0
  readUint64

/-- The decoding loop stops after the bytes of the number, whatever it has
collected by then, if there is a shift for every group. -/
theorem varintValue_consumes {is : List ℕ} {i w : ℕ} {a : BitVec 32} (rest : List UInt8)
    (hw : w < 128 ^ (is.length + 1)) :
    ∃ x, varintValue (i :: is) a (varint w ++ rest) = some (x, (varint w).length) := by
  -- Induction on the shifts still to come: each takes a factor of 128 off the number.
  induction is generalizing i w a with
  | nil =>
    rw [List.length_nil, Nat.zero_add, Nat.pow_one] at hw
    rw [varintValue_varint_last rest hw, length_varint_last hw]
    exact ⟨_, rfl⟩
  | cons j is ih =>
    by_cases hbig : 128 ≤ w
    · have hw' : w / 128 < 128 ^ (is.length + 1) := by
        apply Nat.div_lt_of_lt_mul
        rw [← Nat.pow_succ']
        exact hw
      obtain ⟨x, hx⟩ := ih hw' (i := j) (a := orGroup a (BitVec.ofNat 8 (w % 128)) i)
      rw [varintValue_varint_more rest hbig, hx, length_varint_more hbig]
      exact ⟨x, rfl⟩
    · have hlast : w < 128 := Nat.lt_of_not_le hbig
      rw [varintValue_varint_last rest hlast, length_varint_last hlast]
      exact ⟨_, rfl⟩

/-- Every `uint64_t` has at most ten groups, one for each shift of `readUint64`. -/
theorem varintValue_shifts64 (v : BitVec 64) (rest : List UInt8) :
    ∃ x, varintValue shifts64 0 (varint v.toNat ++ rest) = some (x, (varint v.toNat).length) := by
  have hpow : (2 : ℕ) ^ 64 ≤ 128 ^ 10 := by decide
  have hv : v.toNat < 128 ^ 10 := Nat.lt_of_lt_of_le v.isLt hpow
  unfold shifts64
  exact varintValue_consumes rest hv

theorem varintValue_shifts64_of_lt {v : BitVec 64} (hv : v.toNat < 2 ^ 32) (rest : List UInt8) :
    varintValue shifts64 0 (varint v.toNat ++ rest) =
      some (v.setWidth 32, (varint v.toNat).length) := by
  have hdec := varintValue_varint (k := 10) (i := 0) (w := v.toNat) (a := 0) rest
    (by decide) (by decide) hv (by decide)
  have hzero : (0 : BitVec 32).toNat = 0 := rfl
  rw [Nat.pow_zero, Nat.mul_one, hzero, Nat.zero_add, BitVec.ofNat_toNat] at hdec
  exact hdec

variable {b : ByteArray}

/-- `readUint64` takes the bytes of the number that was written, and returns the
number if and only if it fits the accumulator. -/
theorem readUint64_varint {v : BitVec 64} {m : List UInt8} (h : Holds b (varint v.toNat ++ m)) :
    ∃ x b', readUint64 b = .ok x b' ∧ Consumed b b' (varint v.toNat).length ∧
      (x = v ↔ v.toNat < 2 ^ 32) := by
  obtain ⟨y, hy⟩ := varintValue_shifts64 v m
  have hspec := readVarint_spec shifts64 0 h.wf
  rw [h.bytes, hy] at hspec
  obtain ⟨_, b', hread, hcons⟩ := hspec
  refine ⟨y.setWidth 64, b', ?_, hcons, ?_, ?_⟩
  · rw [readUint64, bind_of_ok hread]
    rfl
  · intro heq
    rw [← heq, BitVec.toNat_setWidth]
    have := y.isLt
    omega
  · intro hlt
    rw [varintValue_shifts64_of_lt hlt m, Option.some.injEq, Prod.mk.injEq] at hy
    rw [← hy.1]
    apply BitVec.eq_of_toNat_eq
    rw [BitVec.toNat_setWidth, BitVec.toNat_setWidth]
    omega

/--
**64-bit variable-length numbers.**  Whatever the node size and the number, the
read consumes exactly the bytes written; it returns the number exactly when the
number is below `2 ^ 32`.
-/
theorem roundTripUint64_returns_iff {baseSize : ℕ} (hbase : 1 ≤ baseSize) (uninit : ℕ → UInt8)
    (v : BitVec 64) :
    ∃ x b',
      roundTripUint64 v (new baseSize uninit) = .ok x b' ∧
      b'.getReadSize = 0 ∧
      b'.getPosition = (varint v.toNat).length ∧
      (x = v ↔ v.toNat < 2 ^ 32) := by
  obtain ⟨b₁, hwrite, happ, _, _⟩ := (appending_new hbase uninit).write (varint v.toNat)
  obtain ⟨b₂, hset, hpos, _⟩ := happ.represents.setPosition (Nat.zero_le _)
  have hholds : Holds b₂ (varint v.toNat ++ []) := by
    rw [List.append_nil]
    exact hpos.holds
  obtain ⟨x, b₃, hread, hcons, hx⟩ := readUint64_varint hholds
  have hlen := hholds.length_eq
  have hzero : b₂.position = 0 := hpos.represents.pos_eq.symm
  refine ⟨x, b₃, ?_, ?_, ?_, hx⟩
  · have hfirst : writeUint64 v (new baseSize uninit) = .ok () b₁ := hwrite
    rw [roundTripUint64, bind_of_ok hfirst, bind_of_ok hset, hread]
  · rw [List.append_nil] at hlen
    rw [hcons.readSize_eq, hlen, Nat.sub_self]
  · rw [getPosition, hcons.position_eq, hzero, Nat.zero_add]

/-- One-byte nodes and the largest number that comes back. -/
theorem roundTripUint64_one_byte_nodes :
    ∃ x b',
      roundTripUint64 0xffffffff (new 1 (fun _ => 0)) = .ok x b' ∧
      b'.getReadSize = 0 ∧
      b'.getPosition = (varint (0xffffffff : BitVec 64).toNat).length ∧
      (x = 0xffffffff ↔ (0xffffffff : BitVec 64).toNat < 2 ^ 32) :=
  roundTripUint64_returns_iff (by decide) (fun _ => 0) 0xffffffff

theorem varint_two_pow_32 : varint (2 ^ 32) = [0x80, 0x80, 0x80, 0x80, 0x10] := by
  simp [varint]

/-- `2 ^ 32` is written in five bytes and read back as `0`. -/
theorem roundTripUint64_two_pow_32 :
    ∃ b', roundTripUint64 0x100000000 (new 4 (fun _ => 0)) = .ok 0 b' := by
  have hwrite : writeUint64 0x100000000 = write [0x80, 0x80, 0x80, 0x80, 0x10] :=
    congrArg write varint_two_pow_32
  obtain ⟨b₁, hfirst, happ, _, _⟩ :=
    (appending_new (by decide : 0 < 4) (fun _ => 0)).write [0x80, 0x80, 0x80, 0x80, 0x10]
  obtain ⟨b₂, hset, hpos, _⟩ := happ.represents.setPosition (Nat.zero_le _)
  have hspec := readVarint_spec shifts64 0 hpos.holds.wf
  have hvalue : varintValue shifts64 0 [0x80, 0x80, 0x80, 0x80, 0x10] = some (0, 5) := by decide
  have hbytes : b₂.ahead.take b₂.getReadSize = [0x80, 0x80, 0x80, 0x80, 0x10] :=
    hpos.holds.bytes
  rw [hbytes, hvalue] at hspec
  obtain ⟨_, b₃, hread, _⟩ := hspec
  refine ⟨b₃, ?_⟩
  rw [roundTripUint64, hwrite, bind_of_ok hfirst, bind_of_ok hset, readUint64, bind_of_ok hread]
  rfl

end Uint64

end ByteArray
end Civan
