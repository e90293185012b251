import Civan.ByteArray.Append
import Civan.ByteArray.CursorSafety

/-!
# ByteArray: typed round trip

Numbers written one after another to a new array come back from the matching
reads.  Two facts meet here: each codec has an inverse (the byte swap, the
base-128 groups with the 32-bit accumulator, the zigzag code with its wrap at
`INT_MIN`), and an array that is only appended to hands out, after
`setPosition(0)`, the bytes it was given, wherever its node boundaries fall.

`writeInt64` and `writeUint64` are not among the formats: `readUint64`
accumulates in a `uint32_t`.
-/

namespace Civan

open Bytes

section Codecs

theorem pow_width (k : ℕ) : 2 ^ (8 * k) = 256 ^ k := by
  rw [Nat.pow_mul]

theorem toNat_ofLeBytes {k : ℕ} {l : List UInt8} (hlen : l.length = k) :
    (BitVec.ofNat (8 * k) (ofLeBytes l)).toNat = ofLeBytes l := by
  have hlt := ofLeBytes_lt l
  rw [hlen, ← pow_width] at hlt
  rw [BitVec.toNat_ofNat, Nat.mod_eq_of_lt hlt]

theorem ofNat_ofLeBytes_leBytes {k : ℕ} (v : BitVec (8 * k)) :
    BitVec.ofNat (8 * k) (ofLeBytes (leBytes k v.toNat)) = v := by
  rw [ofLeBytes_leBytes, ← pow_width, Nat.mod_eq_of_lt v.isLt, BitVec.ofNat_toNat,
    BitVec.setWidth_eq]

theorem byteswap_byteswap {k : ℕ} (v : BitVec (8 * k)) : byteswap k (byteswap k v) = v := by
  have hlen : (leBytes k v.toNat).reverse.length = k := by
    rw [List.length_reverse, length_leBytes]
  have hbytes : leBytes k (byteswap k v).toNat = (leBytes k v.toNat).reverse := by
    have hinv := leBytes_ofLeBytes (leBytes k v.toNat).reverse
    rw [hlen] at hinv
    rw [byteswap, toNat_ofLeBytes hlen, hinv]
  rw [byteswap, hbytes, List.reverse_reverse, ofNat_ofLeBytes_leBytes]

namespace ByteArray

theorem fixedValue_fixedImage (e : Endian) {k : ℕ} (v : BitVec (8 * k)) :
    fixedValue e k (fixedImage e k v) = v := by
  rw [fixedValue, fixedImage, ofNat_ofLeBytes_leBytes]
  by_cases he : e ≠ hostOrder
  · rw [if_pos he, if_pos he, byteswap_byteswap]
  · rw [if_neg he, if_neg he]

theorem toNat_orGroup {v : BitVec 32} {b : BitVec 8} {i : ℕ} (hi : i < 32) (hv : v.toNat < 2 ^ i)
    (hfit : b.toNat * 2 ^ i < 2 ^ 32) :
    (orGroup v b i).toNat = v.toNat + b.toNat * 2 ^ i := by
  have hb : b.toNat < 2 ^ 32 := Nat.lt_trans b.isLt (by decide)
  rw [orGroup, BitVec.toNat_or, BitVec.toNat_shiftLeft, BitVec.toNat_setWidth,
    Nat.mod_eq_of_lt hi, Nat.mod_eq_of_lt hb, Nat.shiftLeft_eq, Nat.mod_eq_of_lt hfit,
    Nat.or_comm, ← Nat.shiftLeft_eq, ← Nat.shiftLeft_add_eq_or_of_lt hv, Nat.shiftLeft_eq,
    Nat.add_comm]

theorem toNat_groupByte {n : ℕ} (hn : n < 256) :
    (BitVec.ofNat 8 (UInt8.ofNat n).toNat).toNat = n := by
  rw [BitVec.toNat_ofNat, UInt8.toNat_ofNat']
  omega

theorem toNat_group (b : BitVec 8) : (b &&& 0x7f).toNat = b.toNat % 128 := by
  have hmask : (0x7f : BitVec 8).toNat = 2 ^ 7 - 1 := rfl
  rw [BitVec.toNat_and, hmask, Nat.and_two_pow_sub_one_eq_mod]

/-- A byte with the top bit set: its group goes in and the loop goes on. -/
theorem varintValue_varint_more {is : List ℕ} {i w : ℕ} {a : BitVec 32} (rest : List UInt8)
    (hbig : 128 ≤ w) :
    varintValue (i :: is) a (varint w ++ rest) =
      (varintValue is (orGroup a (BitVec.ofNat 8 (w % 128)) i)
        (varint (w / 128) ++ rest)).map fun p => (p.1, p.2 + 1) := by
  have hbyte := toNat_groupByte (n := w % 128 + 128) (by omega)
  rw [varint, if_pos hbig, List.cons_append]
  set b := BitVec.ofNat 8 (UInt8.ofNat (w % 128 + 128)).toNat with hb
  have hmore : ¬ b < 0x80 := by
    rw [BitVec.lt_def, hbyte]
    change ¬ w % 128 + 128 < 128
    omega
  have hgroup : b &&& 0x7f = BitVec.ofNat 8 (w % 128) := by
    apply BitVec.eq_of_toNat_eq
    rw [toNat_group, hbyte, BitVec.toNat_ofNat]
    omega
  simp only [varintValue, ← hb, if_neg hmore, hgroup]
  cases varintValue is (orGroup a (BitVec.ofNat 8 (w % 128)) i) (varint (w / 128) ++ rest) <;> rfl

/-- A byte below `0x80` ends the loop. -/
theorem varintValue_varint_last {is : List ℕ} {i w : ℕ} {a : BitVec 32} (rest : List UInt8)
    (hlast : w < 128) :
    varintValue (i :: is) a (varint w ++ rest) = some (orGroup a (BitVec.ofNat 8 w) i, 1) := by
  have hbyte := toNat_groupByte (n := w) (by omega)
  have hgroup : BitVec.ofNat 8 (UInt8.ofNat w).toNat = BitVec.ofNat 8 w := by
    apply BitVec.eq_of_toNat_eq
    rw [hbyte, BitVec.toNat_ofNat]
    omega
  have hlt : BitVec.ofNat 8 w < 0x80 := by
    rw [← hgroup, BitVec.lt_def, hbyte]
    exact hlast
  rw [varint, if_neg (by omega), List.cons_append]
  simp only [varintValue, hgroup, if_pos hlt]

/-- The decoding loop, from shift `i` with the groups below it collected in
`a`, gives back the number whose remaining groups are those of `w`. -/
theorem varintValue_varint {k i w : ℕ} {a : BitVec 32} (rest : List UInt8) (ha : a.toNat < 2 ^ i)
    (hi : i < 32) (hw : w < 2 ^ (32 - i)) (hk : 32 ≤ i + 7 * k) :
    varintValue (List.range' i k 7) a (varint w ++ rest) =
      some (BitVec.ofNat 32 (a.toNat + w * 2 ^ i), (varint w).length) := by
  -- Induction on the shifts still to come; the groups of `a` stay below the shift.
  induction k generalizing i w a with
  | zero => omega
  | succ k ih =>
    have hfit : w * 2 ^ i < 2 ^ 32 := by
      have hmul := (Nat.mul_lt_mul_right (Nat.two_pow_pos i)).mpr hw
      rw [← Nat.pow_add, Nat.sub_add_cancel hi.le] at hmul
      exact hmul
    rw [List.range'_succ]
    by_cases hbig : 128 ≤ w
    · have hgroup : (BitVec.ofNat 8 (w % 128)).toNat = w % 128 := by
        rw [BitVec.toNat_ofNat]
        omega
      have hle : w % 128 * 2 ^ i ≤ w * 2 ^ i :=
        Nat.mul_le_mul_right _ (Nat.mod_le w 128)
      have hor : (orGroup a (BitVec.ofNat 8 (w % 128)) i).toNat =
          a.toNat + w % 128 * 2 ^ i := by
        rw [toNat_orGroup hi ha (by rw [hgroup]; omega), hgroup]
      have hshift : i + 7 < 32 := by
        have hlt : 2 ^ 7 < 2 ^ (32 - i) := Nat.lt_of_le_of_lt hbig hw
        have := (Nat.pow_lt_pow_iff_right (by decide : 1 < 2)).mp hlt
        omega
      have hpow : 2 ^ (i + 7) = 128 * 2 ^ i := by rw [Nat.pow_add, Nat.mul_comm]
      have hw' : w / 128 < 2 ^ (32 - (i + 7)) := by
        apply Nat.div_lt_of_lt_mul
        rw [show (128 : ℕ) = 2 ^ 7 from rfl, ← Nat.pow_add]
        have hexp : 7 + (32 - (i + 7)) = 32 - i := by omega
        rw [hexp]
        exact hw
      have ha' : (orGroup a (BitVec.ofNat 8 (w % 128)) i).toNat < 2 ^ (i + 7) := by
        have hmul : w % 128 * 2 ^ i ≤ 127 * 2 ^ i :=
          Nat.mul_le_mul_right _ (by omega)
        rw [hor, hpow]
        omega
      have hsum : a.toNat + w % 128 * 2 ^ i + w / 128 * 2 ^ (i + 7) =
          a.toNat + w * 2 ^ i := by
        rw [hpow, Nat.add_assoc, ← Nat.mul_assoc, ← Nat.add_mul, Nat.mod_add_div']
      rw [varintValue_varint_more rest hbig, ih ha' hshift hw' (by omega), hor, hsum,
        Option.map_some, length_varint_more hbig]
    · have hgroup : (BitVec.ofNat 8 w).toNat = w := by
        rw [BitVec.toNat_ofNat]
        omega
      have hor : orGroup a (BitVec.ofNat 8 w) i =
          BitVec.ofNat 32 (a.toNat + w * 2 ^ i) := by
        have hsum := toNat_orGroup hi ha (b := BitVec.ofNat 8 w) (by rw [hgroup]; exact hfit)
        rw [hgroup] at hsum
        rw [← hsum, BitVec.ofNat_toNat, BitVec.setWidth_eq]
      rw [varintValue_varint_last rest (by omega), hor, length_varint_last (by omega)]

theorem varintValue_shifts32 (v : BitVec 32) (rest : List UInt8) :
    varintValue shifts32 0 (varint v.toNat ++ rest) = some (v, (varint v.toNat).length) := by
  have hdec := varintValue_varint (k := 5) (i := 0) (w := v.toNat) (a := 0) rest
    (by decide) (by decide) v.isLt (by decide)
  have hzero : (0 : BitVec 32).toNat = 0 := rfl
  rw [Nat.pow_zero, Nat.mul_one, hzero, Nat.zero_add, BitVec.ofNat_toNat,
    BitVec.setWidth_eq] at hdec
  exact hdec

theorem toNat_encodeZigzag32 (v : BitVec 32) :
    (encodeZigzag32 v).toNat =
      if 2 ^ 31 ≤ v.toNat then 2 * (2 ^ 32 - v.toNat) - 1 else 2 * v.toNat := by
  have hv := v.isLt
  have htwo : (2 : BitVec 32).toNat = 2 := rfl
  have hone : (1 : BitVec 32).toNat = 1 := rfl
  rw [encodeZigzag32]
  by_cases hneg : 2 ^ 31 ≤ v.toNat
  · have hint : v.toInt < 0 := by
      rw [BitVec.toInt_eq_toNat_cond]
      split <;> omega
    rw [if_pos hneg, if_pos hint]
    rw [BitVec.toNat_sub, BitVec.toNat_mul, BitVec.toNat_neg, htwo, hone]
    omega
  · have hint : ¬ v.toInt < 0 := by
      rw [BitVec.toInt_eq_toNat_cond]
      split <;> omega
    rw [if_neg hneg, if_neg hint]
    rw [BitVec.toNat_mul, htwo]
    omega

theorem toNat_decodeZigzag32 (u : BitVec 32) :
    ((decodeZigzag32 (u.setWidth 64)).setWidth 32).toNat =
      if u.toNat % 2 = 1 then 2 ^ 32 - 1 - u.toNat / 2 else u.toNat / 2 := by
  have hu := u.isLt
  have hx : (u.setWidth 64).toNat = u.toNat := by
    rw [BitVec.toNat_setWidth]
    omega
  set x := u.setWidth 64 with hxdef
  have hshift : (x >>> 1).toNat = u.toNat / 2 := by
    rw [BitVec.toNat_ushiftRight, hx, Nat.shiftRight_one]
  have hbit : (x &&& 1).toNat = u.toNat % 2 := by
    have hone : (1 : BitVec 64).toNat = 1 := rfl
    rw [BitVec.toNat_and, hx, hone, Nat.and_one_is_mod]
  have hmsb : x.msb = false := by
    rw [BitVec.msb_eq_decide, hx]
    exact decide_eq_false (by omega)
  rw [decodeZigzag32, BitVec.sshiftRight_eq_of_msb_false hmsb]
  by_cases hodd : u.toNat % 2 = 1
  · have hand : x &&& 1 = 1 := BitVec.eq_of_toNat_eq (hbit.trans hodd)
    have hneg : -(1 : BitVec 64) = BitVec.allOnes 64 := rfl
    rw [if_pos hodd, hand, hneg, BitVec.xor_allOnes, BitVec.toNat_setWidth,
      BitVec.toNat_not, hshift]
    omega
  · have hand : x &&& 1 = 0#64 := by
      apply BitVec.eq_of_toNat_eq
      rw [hbit]
      change u.toNat % 2 = 0
      omega
    rw [if_neg hodd, hand, BitVec.neg_zero, BitVec.xor_zero, BitVec.toNat_setWidth, hshift]
    omega

theorem decodeZigzag32_encodeZigzag32 (v : BitVec 32) :
    (decodeZigzag32 ((encodeZigzag32 v).setWidth 64)).setWidth 32 = v := by
  apply BitVec.eq_of_toNat_eq
  have hv := v.isLt
  rw [toNat_decodeZigzag32, toNat_encodeZigzag32]
  split <;> split <;> omega

end ByteArray

end Codecs

namespace ByteArray

/-- The formats of numbers whose reads undo their writes. -/
inductive NumberFormat where
  | fint8
  | fuint8
  | fint16
  | fuint16
  | fint32
  | fuint32
  | fint64
  | fuint64
  | int32
  | uint32
  | float
  | double
deriving DecidableEq, Repr

namespace NumberFormat

/-- The number of bits of a value. -/
@[reducible] def width : NumberFormat → ℕ
  | .fint8 => 8
  | .fuint8 => 8
  | .fint16 => 16
  | .fuint16 => 16
  | .fint32 => 32
  | .fuint32 => 32
  | .fint64 => 64
  | .fuint64 => 64
  | .int32 => 32
  | .uint32 => 32
  | .float => 32
  | .double => 64

/-- The write function of a format. -/
def write : (f : NumberFormat) → BitVec f.width → Op Unit
  | .fint8, v => writeFint8 v
  | .fuint8, v => writeFuint8 v
  | .fint16, v => writeFint16 v
  | .fuint16, v => writeFuint16 v
  | .fint32, v => writeFint32 v
  | .fuint32, v => writeFuint32 v
  | .fint64, v => writeFint64 v
  | .fuint64, v => writeFuint64 v
  | .int32, v => writeInt32 v
  | .uint32, v => writeUint32 v
  | .float, v => writeFloat v
  | .double, v => writeDouble v

/-- The read function of a format. -/
def read : (f : NumberFormat) → Op (BitVec f.width)
  | .fint8 => readFint8
  | .fuint8 => readFuint8
  | .fint16 => readFint16
  | .fuint16 => readFuint16
  | .fint32 => readFint32
  | .fuint32 => readFuint32
  | .fint64 => readFint64
  | .fuint64 => readFuint64
  | .int32 => readInt32
  | .uint32 => readUint32
  | .float => readFloat
  | .double => readDouble

/-- The bytes a value is encoded in. -/
def encoding (e : Endian) : (f : NumberFormat) → BitVec f.width → List UInt8
  | .fint8, v => leBytes 1 v.toNat
  | .fuint8, v => leBytes 1 v.toNat
  | .fint16, v => fixedImage e 2 v
  | .fuint16, v => fixedImage e 2 v
  | .fint32, v => fixedImage e 4 v
  | .fuint32, v => fixedImage e 4 v
  | .fint64, v => fixedImage e 8 v
  | .fuint64, v => fixedImage e 8 v
  | .int32, v => varint (encodeZigzag32 v).toNat
  | .uint32, v => varint v.toNat
  | .float, v => fixedImage e 4 v
  | .double, v => fixedImage e 8 v

end NumberFormat

/-- A number with the format it travels in. -/
structure Number where
  format : NumberFormat
  bits : BitVec format.width
deriving DecidableEq, Repr

def Number.encoding (e : Endian) (n : Number) : List UInt8 :=
  n.format.encoding e n.bits

/-- Write the numbers in order. -/
def writeNumbers : List Number → Op Unit
  | [] => return ()
  | n :: ns => do
    n.format.write n.bits
    writeNumbers ns

/-- Read numbers of the given formats in order. -/
def readNumbers : List NumberFormat → Op (List Number)
  | [] => return []
  | f :: fs => do
    let v ← f.read
    let ns ← readNumbers fs
    return ⟨f, v⟩ :: ns

/-- Choose the byte order, write the numbers, go back to the start and read
them with the matching functions. -/
def roundTrip (little : Bool) (ns : List Number) : Op (List Number) := do
  modify (setIsLittleEndian little)
  writeNumbers ns
  setPosition 0
  readNumbers (ns.map Number.format)

section Writes

variable {b : ByteArray} {data : List UInt8}

theorem NumberFormat.write_eq (f : NumberFormat) (v : BitVec f.width) (b : ByteArray) :
    f.write v b = ByteArray.write (f.encoding b.endian v) b := by
  cases f <;> rfl

theorem writeNumbers_appending (ns : List Number) (h : Appending b data) :
    ∃ b', writeNumbers ns b = .ok () b' ∧
      Appending b' (data ++ ns.flatMap (Number.encoding b.endian)) ∧
      b'.endian = b.endian := by
  induction ns generalizing b data with
  | nil =>
    refine ⟨b, rfl, ?_, rfl⟩
    rw [List.flatMap_nil, List.append_nil]
    exact h
  | cons n ns ih =>
    obtain ⟨b₁, hwrite, h₁, _, hend₁⟩ := h.write (n.encoding b.endian)
    obtain ⟨b', hrest, h', hend'⟩ := ih h₁
    have hfirst : n.format.write n.bits b = .ok () b₁ :=
      (n.format.write_eq n.bits b).trans hwrite
    refine ⟨b', ?_, ?_, hend'.trans hend₁⟩
    · rw [writeNumbers, bind_of_ok hfirst]
      exact hrest
    · rw [hend₁] at h'
      rw [List.flatMap_cons, ← List.append_assoc]
      exact h'

end Writes

section Reads

variable {b : ByteArray}

/-- The array can still hand out exactly the bytes `l`. -/
structure Holds (b : ByteArray) (l : List UInt8) : Prop where
  wf : Wf b
  bytes : b.ahead.take b.getReadSize = l

theorem Holds.length_eq {l : List UInt8} (h : Holds b l) : l.length = b.getReadSize := by
  rw [← h.bytes, List.length_take]
  exact Nat.min_eq_left h.wf.getReadSize_le_ahead

theorem Holds.take_ahead {l m : List UInt8} (h : Holds b (l ++ m)) :
    b.ahead.take l.length = l := by
  have hlen := h.length_eq
  rw [List.length_append] at hlen
  have htake := congrArg (List.take l.length) h.bytes
  rw [List.take_take, List.take_left, Nat.min_eq_left (by omega)] at htake
  exact htake

theorem Holds.consumed {l m : List UInt8} {b' : ByteArray} (h : Holds b (l ++ m))
    (hcons : Consumed b b' l.length) :
    Holds b' m where
  wf := hcons.wf
  bytes := by
    rw [hcons.ahead_eq, hcons.readSize_eq, ← List.drop_take, h.bytes, List.drop_left]

theorem readFixed_fixedImage {k : ℕ} {v : BitVec (8 * (k + 1))} {m : List UInt8}
    (h : Holds b (fixedImage b.endian (k + 1) v ++ m)) :
    ∃ b', readFixed (k + 1) b = .ok v b' ∧
      Consumed b b' (fixedImage b.endian (k + 1) v).length := by
  have hsize : (fixedImage b.endian (k + 1) v).length = k + 1 :=
    length_leBytes _ _
  have hlen := h.length_eq
  rw [List.length_append, hsize] at hlen
  obtain ⟨b', hread, hcons⟩ := readFixed_spec h.wf (k := k) (by omega)
  have htake := h.take_ahead
  rw [hsize] at htake ⊢
  rw [htake, fixedValue_fixedImage] at hread
  exact ⟨b', hread, hcons⟩

theorem readFuint8_leBytes {v : BitVec 8} {m : List UInt8}
    (h : Holds b (leBytes 1 v.toNat ++ m)) :
    ∃ b', readFuint8 b = .ok v b' ∧ Consumed b b' (leBytes 1 v.toNat).length := by
  have hlen := h.length_eq
  rw [List.length_append, length_leBytes] at hlen
  obtain ⟨b', hread, hcons⟩ := read_spec h.wf Nat.one_pos (by omega)
  have htake := h.take_ahead
  rw [length_leBytes] at htake ⊢
  refine ⟨b', ?_, hcons⟩
  rw [readFuint8, bind_of_ok hread, htake]
  exact congrArg (EStateM.Result.ok · b') (ofNat_ofLeBytes_leBytes (k := 1) v)

theorem readUint32_varint {v : BitVec 32} {m : List UInt8} (h : Holds b (varint v.toNat ++ m)) :
    ∃ b', readUint32 b = .ok v b' ∧ Consumed b b' (varint v.toNat).length := by
  have hspec := readVarint_spec shifts32 0 h.wf
  rw [h.bytes, varintValue_shifts32] at hspec
  exact hspec.2

theorem readInt32_varint {v : BitVec 32} {m : List UInt8}
    (h : Holds b (varint (encodeZigzag32 v).toNat ++ m)) :
    ∃ b', readInt32 b = .ok v b' ∧ Consumed b b' (varint (encodeZigzag32 v).toNat).length := by
  obtain ⟨b', hread, hcons⟩ := readUint32_varint h
  refine ⟨b', ?_, hcons⟩
  rw [readInt32, bind_of_ok hread]
  exact congrArg (EStateM.Result.ok · b') (decodeZigzag32_encodeZigzag32 v)

theorem NumberFormat.read_encoding (f : NumberFormat) {v : BitVec f.width} {m : List UInt8}
    (h : Holds b (f.encoding b.endian v ++ m)) :
    ∃ b', f.read b = .ok v b' ∧ Consumed b b' (f.encoding b.endian v).length := by
  cases f with
  | fint8 => exact readFuint8_leBytes h
  | fuint8 => exact readFuint8_leBytes h
  | fint16 => exact readFixed_fixedImage h
  | fuint16 => exact readFixed_fixedImage h
  | fint32 => exact readFixed_fixedImage h
  | fuint32 => exact readFixed_fixedImage h
  | fint64 => exact readFixed_fixedImage h
  | fuint64 => exact readFixed_fixedImage h
  | int32 => exact readInt32_varint h
  | uint32 => exact readUint32_varint h
  | float => exact readFixed_fixedImage h
  | double => exact readFixed_fixedImage h

theorem readNumbers_encoding (ns : List Number)
    (h : Holds b (ns.flatMap (Number.encoding b.endian))) :
    ∃ b', readNumbers (ns.map Number.format) b = .ok ns b' ∧
      Consumed b b' (ns.flatMap (Number.encoding b.endian)).length := by
  induction ns generalizing b with
  | nil => exact ⟨b, rfl, Consumed.refl h.wf⟩
  | cons n ns ih =>
    rw [List.flatMap_cons] at h ⊢
    obtain ⟨b₁, hread, hcons⟩ := n.format.read_encoding h
    have h₁ := h.consumed hcons
    rw [← hcons.endian_eq] at h₁
    obtain ⟨b', hrest, hcons'⟩ := ih h₁
    rw [hcons.endian_eq] at hcons'
    refine ⟨b', ?_, ?_⟩
    · rw [List.map_cons, readNumbers, bind_of_ok hread, bind_of_ok hrest]
      rfl
    · rw [List.length_append]
      exact hcons.trans hcons'

/-- After `setPosition(0)` the whole contents can be handed out. -/
theorem Positioned.holds {data : List UInt8} {pos : ℕ} (h : Positioned b data pos) :
    Holds b (data.drop pos) where
  wf := h.represents.wf
  bytes := by
    have hread := h.represents.readSize_eq
    simp only [FlatBuffer.readSize] at hread
    by_cases hzero : b.getReadSize = 0
    · rw [hzero, List.take_zero]
      symm
      apply List.drop_of_length_le
      omega
    · have hsize := h.represents.wf.getReadSize_eq
      have hsle := h.represents.wf.size_le
      have hcur := h.inPlace (by omega)
      rw [h.represents.wf.ahead_of_cur hcur,
        h.represents.bytes_at_cursor hcur (fun _ => h.inPlace) (Nat.le_refl _)]
      apply List.take_of_length_le
      rw [List.length_drop]
      exact hread.ge

end Reads

/--
**Typed round trip.**  Whatever the node size, the byte order and the numbers,
the reads return the numbers that were written, nothing is left to read, and
the position is the length of the encoding.
-/
theorem roundTrip_returns_written {baseSize : ℕ} (hbase : 1 ≤ baseSize) (uninit : ℕ → UInt8)
    (little : Bool) (ns : List Number) :
    ∃ b',
      roundTrip little ns (new baseSize uninit) = .ok ns b' ∧
      b'.getReadSize = 0 ∧
      b'.getPosition =
        (ns.flatMap (Number.encoding (if little then .little else .big))).length := by
  set b₀ := setIsLittleEndian little (new baseSize uninit) with hb₀
  set e : Endian := if little then .little else .big with he
  have hstart : Appending b₀ [] :=
    appending_of_empty (wf_setIsLittleEndian (wf_new hbase uninit) little) rfl rfl rfl rfl
  have hend₀ : b₀.endian = e := rfl
  obtain ⟨b₁, hwrite, happ, hend₁⟩ := writeNumbers_appending ns hstart
  rw [List.nil_append, hend₀] at happ
  obtain ⟨b₂, hset, hpos, _, _, hend₂⟩ := happ.represents.setPosition (Nat.zero_le _)
  have hend : b₂.endian = e := hend₂.trans (hend₁.trans hend₀)
  have hholds : Holds b₂ (ns.flatMap (Number.encoding e)) := hpos.holds
  have hlen := hholds.length_eq
  rw [← hend] at hholds
  obtain ⟨b₃, hread, hcons⟩ := readNumbers_encoding ns hholds
  rw [hend] at hcons
  refine ⟨b₃, ?_, ?_, ?_⟩
  · have hmodify : (modify (setIsLittleEndian little) : Op Unit) (new baseSize uninit) =
        .ok () b₀ := rfl
    rw [roundTrip, bind_of_ok hmodify, bind_of_ok hwrite, bind_of_ok hset, hread]
  · rw [hcons.readSize_eq, hlen, Nat.sub_self]
  · have hzero : b₂.position = 0 := hpos.represents.pos_eq.symm
    rw [getPosition, hcons.position_eq, hzero, Nat.zero_add]

/-- Nodes of one byte, big-endian, with `INT_MIN` and a five-byte number. -/
theorem roundTrip_one_byte_nodes :
    ∃ b',
      roundTrip false [⟨.int32, 0x80000000⟩, ⟨.fuint16, 0x1234⟩, ⟨.uint32, 0xffffffff⟩]
          (new 1 (fun _ => 0)) =
        .ok [⟨.int32, 0x80000000⟩, ⟨.fuint16, 0x1234⟩, ⟨.uint32, 0xffffffff⟩] b' ∧
      b'.getReadSize = 0 ∧
      b'.getPosition =
        ([⟨.int32, 0x80000000⟩, ⟨.fuint16, 0x1234⟩, ⟨.uint32, 0xffffffff⟩].flatMap
          (Number.encoding .big)).length :=
  roundTrip_returns_written (by decide) (fun _ => 0) false
    [⟨.int32, 0x80000000⟩, ⟨.fuint16, 0x1234⟩, ⟨.uint32, 0xffffffff⟩]

end ByteArray

end Civan
