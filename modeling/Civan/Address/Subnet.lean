import Civan.Address.Model
import Civan.ByteArray.RoundTrip

/-!
# IP addresses: networks, broadcast addresses and masks

Both address classes make the mask of the host bits and use it for the broadcast
address and, complemented, for the subnet mask.  `networdAddress` uses it as it is,
so it keeps the host part and clears the network part.

For IPv4 the mask is right unless the computation of it is undefined, which it is for
the prefix lengths 0 and 1.  For IPv6 the bytes behind the one that is masked are right
in the broadcast address only, and a prefix length of 128 indexes behind `s6_addr`.
-/

namespace Civan
namespace Address

open Bytes MachineInt

section ByteOrder

variable {k : ℕ}

/-- The byte changes place, the bit in it does not. -/
theorem getLsbD_byteswap (v : BitVec (8 * k)) {i : ℕ} (hi : i < 8 * k) :
    (byteswap k v).getLsbD i = v.getLsbD (8 * (k - 1 - i / 8) + i % 8) := by
  have hbyte : i / 8 < k := by omega
  have hlen : i / 8 < (leBytes k v.toNat).length := by
    rw [length_leBytes]
    exact hbyte
  have hpow : (256 : ℕ) ^ (k - 1 - i / 8) = 2 ^ (8 * (k - 1 - i / 8)) := by rw [Nat.pow_mul]
  rw [byteswap, BitVec.getLsbD_ofNat, testBit_ofLeBytes, List.getElem?_reverse hlen,
    length_leBytes, getElem?_leBytes (by omega), Option.getD_some, UInt8.toNat_ofNat', hpow,
    Nat.testBit_mod_two_pow, Nat.testBit_div_two_pow, Nat.add_comm]
  have hbit : i % 8 < 8 := Nat.mod_lt _ (by omega)
  simp [hi, hbit, BitVec.getLsbD]

theorem byteswap_or (v w : BitVec (8 * k)) :
    byteswap k (v ||| w) = byteswap k v ||| byteswap k w := by
  apply BitVec.eq_of_getLsbD_eq
  intro i hi
  rw [BitVec.getLsbD_or, getLsbD_byteswap _ hi, getLsbD_byteswap _ hi, getLsbD_byteswap _ hi,
    BitVec.getLsbD_or]

theorem byteswap_and (v w : BitVec (8 * k)) :
    byteswap k (v &&& w) = byteswap k v &&& byteswap k w := by
  apply BitVec.eq_of_getLsbD_eq
  intro i hi
  rw [BitVec.getLsbD_and, getLsbD_byteswap _ hi, getLsbD_byteswap _ hi, getLsbD_byteswap _ hi,
    BitVec.getLsbD_and]

theorem byteswap_not (v : BitVec (8 * k)) : byteswap k (~~~ v) = ~~~ byteswap k v := by
  apply BitVec.eq_of_getLsbD_eq
  intro i hi
  have hsource : 8 * (k - 1 - i / 8) + i % 8 < 8 * k := by omega
  rw [BitVec.getLsbD_not, getLsbD_byteswap _ hi, getLsbD_byteswap _ hi, BitVec.getLsbD_not]
  simp [hi, hsource]

variable (host : Endian)

theorem byteswapOnLittleEndian_twice (v : BitVec (8 * k)) :
    byteswapOnLittleEndian host k (byteswapOnLittleEndian host k v) = v := by
  cases host with
  | little => exact byteswap_byteswap v
  | big => rfl

theorem byteswapOnLittleEndian_or (v w : BitVec (8 * k)) :
    byteswapOnLittleEndian host k (v ||| w) =
      byteswapOnLittleEndian host k v ||| byteswapOnLittleEndian host k w := by
  cases host with
  | little => exact byteswap_or v w
  | big => rfl

theorem byteswapOnLittleEndian_and (v w : BitVec (8 * k)) :
    byteswapOnLittleEndian host k (v &&& w) =
      byteswapOnLittleEndian host k v &&& byteswapOnLittleEndian host k w := by
  cases host with
  | little => exact byteswap_and v w
  | big => rfl

theorem byteswapOnLittleEndian_not (v : BitVec (8 * k)) :
    byteswapOnLittleEndian host k (~~~ v) = ~~~ byteswapOnLittleEndian host k v := by
  cases host with
  | little => exact byteswap_not v
  | big => rfl

end ByteOrder

section IPv4

variable (host : Endian) {u : Undefined}

/-- The mask of the host part: `2 ^ (32 - p) - 1`. -/
def hostMask (p : ℕ) : BitVec 32 :=
  BitVec.ofNat 32 (2 ^ (32 - p) - 1)

/-- The address as a number. -/
def SockaddrIn.number (m : SockaddrIn) : BitVec 32 :=
  byteswapOnLittleEndian host 4 m.addr

/-- The same socket address for another number, in network byte order. -/
def SockaddrIn.withNumber (m : SockaddrIn) (a : BitVec 32) : SockaddrIn :=
  { m with addr := byteswapOnLittleEndian host 4 a }

/-- The three answers as they should be. -/
structure SubnetRight (u : Undefined) (m : SockaddrIn) (p : ℕ) : Prop where
  broadcast :
    (IPv4Address.broadcastAddress host u m p).1 =
      some (m.withNumber host (m.number host ||| hostMask p))
  network :
    (IPv4Address.networdAddress host u m p).1 =
      some (m.withNumber host (m.number host &&& ~~~ hostMask p))
  mask :
    (IPv4Address.subnetMask host u m p).1 =
      some ({ family := afInet, port := 0, addr := 0 : SockaddrIn }.withNumber host
        (~~~ hostMask p))

theorem toNat_shiftOne {count : ℕ} (hcount : count < 32) :
    (shiftOne u count).toNat = 2 ^ count := by
  have hlt : 2 ^ count < 2 ^ 32 := Nat.pow_lt_pow_right (by omega) hcount
  rw [shiftOne, if_pos hcount, BitVec.toNat_shiftLeft, Nat.shiftLeft_eq]
  simp only [BitVec.toNat_ofNat, Nat.one_mod, Nat.one_mul]
  exact Nat.mod_eq_of_lt hlt

theorem minusOne_shiftOne {count : ℕ} (hcount : count < 31) :
    minusOne u (shiftOne u count) = BitVec.ofNat 32 (2 ^ count - 1) := by
  have hshift := toNat_shiftOne (u := u) (Nat.lt_succ_of_lt hcount)
  have hlt : 2 ^ count < 2 ^ 31 := Nat.pow_lt_pow_right (by omega) hcount
  have hpos : 0 < 2 ^ count := Nat.two_pow_pos count
  have hne : shiftOne u count ≠ BitVec.intMin 32 := by
    intro heq
    rw [heq, BitVec.toNat_intMin] at hshift
    omega
  rw [minusOne, if_neg hne]
  apply BitVec.eq_of_toNat_eq
  rw [BitVec.toNat_sub, hshift, BitVec.toNat_ofNat]
  simp
  omega

/-- From two bits of prefix on the mask is computed without overflow. -/
theorem createMask_of_two_le {p : ℕ} (hp : 2 ≤ p) (hp' : p ≤ 32) :
    createMask u 4 p = hostMask p := by
  have hsub : sizeSub (8 * 4) p = 32 - p := sizeSub_of_le hp'
  rw [createMask, hsub, minusOne_shiftOne (by omega)]
  exact BitVec.setWidth_eq _

theorem createMask_one : createMask u 4 1 = u.pred := by
  have hshift : shiftOne u 31 = BitVec.intMin 32 := by
    rw [shiftOne, if_pos (by omega)]
    rfl
  have hsub : sizeSub (8 * 4) 1 = 31 := rfl
  rw [createMask, hsub, minusOne, if_pos hshift]
  exact BitVec.setWidth_eq _

theorem createMask_zero : createMask u 4 0 = minusOne u (u.shl 32) := by
  have hsub : sizeSub (8 * 4) 0 = 32 := rfl
  rw [createMask, hsub, shiftOne, if_neg (by omega)]
  exact BitVec.setWidth_eq _

theorem withNumber_inj {m : SockaddrIn} {a b : BitVec 32} :
    m.withNumber host a = m.withNumber host b ↔ a = b := by
  constructor
  · intro h
    have haddr := congrArg SockaddrIn.addr h
    have htwice := congrArg (byteswapOnLittleEndian host 4) haddr
    rw [SockaddrIn.withNumber, SockaddrIn.withNumber, byteswapOnLittleEndian_twice,
      byteswapOnLittleEndian_twice] at htwice
    exact htwice
  · rintro rfl
    rfl

/-- Masking with the host mask and with its complement agree on the zero address only. -/
theorem and_eq_and_not_iff (a h : BitVec 32) : a &&& h = a &&& ~~~ h ↔ a = 0 := by
  constructor
  · intro heq
    apply BitVec.eq_of_getLsbD_eq
    intro i hi
    have hbit := congrArg (fun v => v.getLsbD i) heq
    simp only [BitVec.getLsbD_and, BitVec.getLsbD_not, hi, decide_true, Bool.true_and] at hbit
    cases ha : a.getLsbD i with
    | false => simp
    | true =>
      rw [ha] at hbit
      cases hh : h.getLsbD i with
      | false => simp [hh] at hbit
      | true => simp [hh] at hbit
  · rintro rfl
    simp

variable {m : SockaddrIn} {p : ℕ}

theorem broadcastAddress_eq (hp : p ≤ 32) :
    (IPv4Address.broadcastAddress host u m p).1 =
      some (m.withNumber host (m.number host ||| createMask u 4 p)) := by
  rw [IPv4Address.broadcastAddress, if_neg (by omega), SockaddrIn.withNumber,
    byteswapOnLittleEndian_or, SockaddrIn.number, byteswapOnLittleEndian_twice]
  rfl

theorem networdAddress_eq (hp : p ≤ 32) :
    (IPv4Address.networdAddress host u m p).1 =
      some (m.withNumber host (m.number host &&& createMask u 4 p)) := by
  rw [IPv4Address.networdAddress, if_neg (by omega), SockaddrIn.withNumber,
    byteswapOnLittleEndian_and, SockaddrIn.number, byteswapOnLittleEndian_twice]
  rfl

theorem subnetMask_eq :
    (IPv4Address.subnetMask host u m p).1 =
      some ({ family := afInet, port := 0, addr := 0 : SockaddrIn }.withNumber host
        (~~~ createMask u 4 p)) := by
  rw [IPv4Address.subnetMask, SockaddrIn.withNumber, byteswapOnLittleEndian_not]
  rfl

theorem networdAddress_right_iff (hp : p ≤ 32) (hmask : createMask u 4 p = hostMask p) :
    (IPv4Address.networdAddress host u m p).1 =
        some (m.withNumber host (m.number host &&& ~~~ hostMask p)) ↔
      m.number host = 0 := by
  rw [networdAddress_eq host hp, hmask, Option.some.injEq, withNumber_inj, and_eq_and_not_iff]

theorem subnetRight_iff (hp : p ≤ 32) :
    SubnetRight host u m p ↔ createMask u 4 p = hostMask p ∧ m.number host = 0 := by
  constructor
  · intro h
    have hmask := h.mask
    rw [subnetMask_eq, Option.some.injEq, withNumber_inj, BitVec.not_inj] at hmask
    exact ⟨hmask, (networdAddress_right_iff host hp hmask).mp h.network⟩
  · rintro ⟨hmask, hzero⟩
    refine ⟨?_, (networdAddress_right_iff host hp hmask).mpr hzero, ?_⟩
    · rw [broadcastAddress_eq host hp, hmask]
    · rw [subnetMask_eq, hmask]

end IPv4

/--
**IPv4 subnets.**  All three answers are right exactly if the mask is computed right and
the address is `0.0.0.0`; broadcast address and subnet mask are right for every address
whenever the mask is.  The mask is right for the prefix lengths from 2 on, and for 1 and
0 if the undefined operations happen to give it.
-/
theorem ipv4_subnet_iff (host : Endian) (u : Undefined) (m : SockaddrIn) {p : ℕ} (hp : p ≤ 32) :
    (SubnetRight host u m p ↔ createMask u 4 p = hostMask p ∧ m.number host = 0) ∧
    (createMask u 4 p = hostMask p →
      (IPv4Address.broadcastAddress host u m p).1 =
        some (m.withNumber host (m.number host ||| hostMask p)) ∧
      (IPv4Address.subnetMask host u m p).1 =
        some ({ family := afInet, port := 0, addr := 0 : SockaddrIn }.withNumber host
          (~~~ hostMask p))) ∧
    (m.number host &&& ~~~ hostMask p ≤ m.number host ∧
      m.number host ≤ m.number host ||| hostMask p) ∧
    (2 ≤ p → createMask u 4 p = hostMask p) ∧
    (createMask u 4 1 = hostMask 1 ↔ u.pred = BitVec.intMax 32) ∧
    (createMask u 4 0 = hostMask 0 ↔ minusOne u (u.shl 32) = BitVec.allOnes 32) := by
  refine ⟨subnetRight_iff host hp, ?_, ⟨?_, ?_⟩, fun htwo => createMask_of_two_le htwo hp, ?_, ?_⟩
  · intro hmask
    rw [broadcastAddress_eq host hp, subnetMask_eq, hmask]
    exact ⟨rfl, rfl⟩
  · rw [BitVec.le_def, BitVec.toNat_and]
    exact Nat.and_le_left
  · rw [BitVec.le_def, BitVec.toNat_or]
    exact Nat.left_le_or
  · rw [createMask_one]
    exact Iff.rfl
  · rw [createMask_zero]
    exact Iff.rfl

/-- What x86 makes of the undefined operations: the count is taken modulo 32, and the
difference wraps. -/
def x86Undefined : Undefined where
  shl count := 1#32 <<< (count % 32)
  pred := BitVec.intMax 32

/-- A socket address of port 80. -/
def webAddress (a : BitVec 32) : SockaddrIn :=
  { family := afInet, port := 0x5000, addr := 0 : SockaddrIn }.withNumber .little a

theorem ipv4_subnet_zero_address : SubnetRight .little x86Undefined (webAddress 0) 24 :=
  (ipv4_subnet_iff .little x86Undefined (webAddress 0) (by decide : 24 ≤ 32)).1.mpr
    ⟨by decide, by decide⟩

/-- The network address of `192.168.1.5/24` is the host part; and with a prefix length of
0 the broadcast address is the address itself. -/
theorem ipv4_subnet_wrong :
    (IPv4Address.networdAddress .little x86Undefined (webAddress 0xC0A80105) 24).1 =
      some (webAddress 0x00000005) ∧
    ¬ SubnetRight .little x86Undefined (webAddress 0xC0A80105) 24 ∧
    (IPv4Address.broadcastAddress .little x86Undefined (webAddress 0xC0A80105) 0).1 =
      some (webAddress 0xC0A80105) := by
  refine ⟨by decide, ?_, by decide⟩
  intro h
  exact absurd h.network (by decide)

section Bytes16

variable {u : Undefined} {b b' : Vector UInt8 16} {i j : ℕ}

/-- A byte of an address. -/
def byteAt (b : Vector UInt8 16) (i : ℕ) : UInt8 :=
  (b[i]?).getD 0

/-- A bit of an address, counted from the front. -/
def bitAt (b : Vector UInt8 16) (i : ℕ) : Bool :=
  (byteAt b (i / 8)).toBitVec.getMsbD (i % 8)

theorem store_of_lt (hi : i < 16) (b : Vector UInt8 16) (v : UInt8) :
    ∃ b', store b i v = some b' ∧ ∀ j, byteAt b' j = if j = i then v else byteAt b j := by
  refine ⟨b.set i v hi, by rw [store, dif_pos hi], ?_⟩
  intro j
  rw [byteAt, Vector.getElem?_set hi]
  by_cases hj : j = i
  · rw [if_pos hj.symm, if_pos hj]
    rfl
  · rw [if_neg (Ne.symm hj), if_neg hj]
    rfl

theorem store_of_le (hi : 16 ≤ i) (b : Vector UInt8 16) (v : UInt8) : store b i v = none := by
  rw [store, dif_neg (by omega)]

theorem fill_inside {i count : ℕ} (hin : i + count ≤ 16) (b : Vector UInt8 16) (v : UInt8) :
    ∃ b', fill v count i b = some b' ∧
      ∀ j, byteAt b' j = if i ≤ j ∧ j < i + count then v else byteAt b j := by
  induction count generalizing i b with
  | zero =>
    refine ⟨b, rfl, ?_⟩
    intro j
    rw [if_neg (by omega)]
  | succ count ih =>
    obtain ⟨b₁, hstore, hbyte₁⟩ := store_of_lt (by omega : i < 16) b v
    have hnext : i + 1 + count ≤ 16 := by omega
    obtain ⟨b₂, hfill, hbyte₂⟩ := ih hnext b₁
    refine ⟨b₂, by rw [fill, hstore, Option.bind_some, hfill], ?_⟩
    intro j
    rw [hbyte₂, hbyte₁]
    by_cases hj : j = i
    · rw [if_neg (by omega), if_pos hj, if_pos (by omega)]
    · rw [if_neg hj]
      by_cases hrange : i + 1 ≤ j ∧ j < i + 1 + count
      · rw [if_pos hrange, if_pos (by omega)]
      · rw [if_neg hrange, if_neg (by omega)]

theorem getMsbD_byteMask {r : ℕ} (hr : r < 8) {j : ℕ} (hj : j < 8) :
    (IPv6Address.byteMask u r).toBitVec.getMsbD j = decide (r ≤ j) := by
  have hsub : sizeSub (8 * 1) r = 8 - r := sizeSub_of_le (by omega)
  have hmask : (IPv6Address.byteMask u r).toBitVec =
      (BitVec.ofNat 32 (2 ^ (8 - r) - 1)).setWidth 8 := by
    rw [IPv6Address.byteMask, createMask, hsub, minusOne_shiftOne (by omega)]
  rw [hmask, BitVec.getMsbD_eq_getLsbD, BitVec.getLsbD_setWidth, BitVec.getLsbD_ofNat,
    Nat.testBit_two_pow_sub_one]
  have h₁ : 8 - 1 - j < 8 := by omega
  have h₂ : 8 - 1 - j < 32 := by omega
  simp only [hj, h₁, h₂, decide_true, Bool.true_and, decide_eq_decide]
  omega

theorem getMsbD_ones {j : ℕ} (hj : j < 8) : (0xff : UInt8).toBitVec.getMsbD j = true := by
  revert j
  decide

theorem byte_eq_zero_iff (x : UInt8) : x = 0 ↔ ∀ j < 8, x.toBitVec.getMsbD j = false := by
  constructor
  · rintro rfl j _
    simp
  · intro h
    apply UInt8.eq_of_toBitVec_eq
    apply BitVec.eq_of_getMsbD_eq
    intro j hj
    rw [h j hj]
    simp

theorem bitAt_mul_add {k : ℕ} (hj : j < 8) :
    bitAt b (8 * k + j) = (byteAt b k).toBitVec.getMsbD j := by
  have hdiv : (8 * k + j) / 8 = k := by omega
  have hmod : (8 * k + j) % 8 = j := by omega
  rw [bitAt, hdiv, hmod]

end Bytes16

section IPv6

variable {u : Undefined} {p : ℕ}

theorem getElem?_eq_byteAt {k : ℕ} (hk : k < 16) (b : Vector UInt8 16) :
    b[k]? = some (byteAt b k) := by
  rw [byteAt, Vector.getElem?_eq_getElem hk]
  rfl

theorem broadcastAddress6 (hp : p < 128) (m : SockaddrIn6) :
    ∃ b, IPv6Address.broadcastAddress u m p = some ({ m with addr := b }, m) ∧
      ∀ i < 128, bitAt b i = if i < p then bitAt m.addr i else true := by
  have hk : p / 8 < 16 := by omega
  have hrest : p / 8 + 1 + (16 - (p / 8 + 1)) ≤ 16 := by omega
  obtain ⟨b₁, hstore, hbyte₁⟩ := store_of_lt hk m.addr
    (byteAt m.addr (p / 8) ||| IPv6Address.byteMask u (p % 8))
  obtain ⟨b₂, hfill, hbyte₂⟩ := fill_inside hrest b₁ 0xff
  refine ⟨b₂, ?_, ?_⟩
  · simp only [IPv6Address.broadcastAddress, getElem?_eq_byteAt hk, hstore, hfill,
      Option.bind_eq_bind, Option.bind_some]
    rfl
  · intro i hi
    have hr : i % 8 < 8 := Nat.mod_lt _ (by omega)
    rw [bitAt, hbyte₂, hbyte₁]
    -- the bytes in front of the masked one, that byte, and those behind it
    rcases Nat.lt_trichotomy (i / 8) (p / 8) with hlt | heq | hgt
    · rw [if_neg (by omega), if_neg (by omega), if_pos (by omega)]
      rfl
    · rw [if_neg (by omega), if_pos heq, UInt8.toBitVec_or, BitVec.getMsbD_or,
        getMsbD_byteMask (by omega) hr, ← heq]
      by_cases hin : i < p
      · rw [if_pos hin, decide_eq_false (by omega), Bool.or_false]
        rfl
      · rw [if_neg hin, decide_eq_true (by omega), Bool.or_true]
    · rw [if_pos (by omega), if_neg (by omega), getMsbD_ones hr]

/-- The masked byte keeps the wrong bits, and the bytes behind it keep all of them. -/
theorem networdAddress6 (hp : p < 128) (m : SockaddrIn6) :
    ∃ b, IPv6Address.networdAddress u m p = some ({ m with addr := b }, m) ∧
      ((∀ i < 128, bitAt b i = if i < p then bitAt m.addr i else false) ↔
        ∀ k, p / 8 ≤ k → k < 16 → byteAt m.addr k = 0) := by
  have hk : p / 8 < 16 := by omega
  obtain ⟨b, hstore, hbyte⟩ := store_of_lt hk m.addr
    (byteAt m.addr (p / 8) &&& IPv6Address.byteMask u (p % 8))
  have hmasked : ∀ j < 8, bitAt b (8 * (p / 8) + j) =
      ((byteAt m.addr (p / 8)).toBitVec.getMsbD j && decide (p % 8 ≤ j)) := by
    intro j hj
    rw [bitAt_mul_add hj, hbyte, if_pos rfl, UInt8.toBitVec_and, BitVec.getMsbD_and,
      getMsbD_byteMask (by omega) hj]
  refine ⟨b, ?_, ?_⟩
  · simp only [IPv6Address.networdAddress, getElem?_eq_byteAt hk, hstore,
      Option.bind_eq_bind, Option.bind_some]
    rfl
  · constructor
    · intro hbits k hle hlt
      rw [byte_eq_zero_iff]
      intro j hj
      have hbit := hbits (8 * k + j) (by omega)
      rcases Nat.eq_or_lt_of_le hle with heq | hgt
      · subst heq
        rw [hmasked j hj, bitAt_mul_add hj] at hbit
        by_cases hin : p % 8 ≤ j
        · rw [if_neg (by omega), decide_eq_true hin, Bool.and_true] at hbit
          exact hbit
        · rw [if_pos (by omega), decide_eq_false hin, Bool.and_false] at hbit
          exact hbit.symm
      · rw [if_neg (by omega), bitAt_mul_add hj, hbyte, if_neg (by omega)] at hbit
        exact hbit
    · intro hzero i hi
      have hr : i % 8 < 8 := Nat.mod_lt _ (by omega)
      rw [bitAt, hbyte]
      by_cases hfront : i / 8 < p / 8
      · rw [if_neg (by omega), if_pos (by omega)]
        rfl
      · -- the address has no bit here
        have hbyte0 := hzero (i / 8) (by omega) (by omega)
        have hnone : bitAt m.addr i = false := by
          rw [bitAt, hbyte0]
          simp
        rw [hnone, ite_self]
        by_cases hlast : i / 8 = p / 8
        · rw [if_pos hlast, ← hlast, hbyte0]
          simp
        · rw [if_neg hlast, hbyte0]
          simp

theorem subnetMask6 (hp : p < 128) (m : SockaddrIn6) :
    ∃ b, IPv6Address.subnetMask u m p = some ({ m with addr := b }, SockaddrIn6.zeroed) ∧
      ((∀ i < 128, bitAt b i = decide (i < p)) ↔
        ∀ k, p / 8 < k → k < 16 → byteAt m.addr k = 0) := by
  have hk : p / 8 < 16 := by omega
  have hfront : 0 + p / 8 ≤ 16 := by omega
  obtain ⟨b₁, hstore, hbyte₁⟩ :=
    store_of_lt hk m.addr (~~~ IPv6Address.byteMask u (p % 8))
  obtain ⟨b₂, hfill, hbyte₂⟩ := fill_inside hfront b₁ 0xff
  refine ⟨b₂, ?_, ?_⟩
  · simp only [IPv6Address.subnetMask, hstore, hfill, Option.bind_eq_bind, Option.bind_some]
    rfl
  · constructor
    · intro hbits k hgt hlt
      rw [byte_eq_zero_iff]
      intro j hj
      have hbit := hbits (8 * k + j) (by omega)
      rw [decide_eq_false (by omega), bitAt_mul_add hj, hbyte₂, if_neg (by omega), hbyte₁,
        if_neg (by omega)] at hbit
      exact hbit
    · intro hzero i hi
      have hr : i % 8 < 8 := Nat.mod_lt _ (by omega)
      rw [bitAt, hbyte₂, hbyte₁]
      rcases Nat.lt_trichotomy (i / 8) (p / 8) with hlt | heq | hgt
      · rw [if_pos (by omega), getMsbD_ones hr, decide_eq_true (by omega)]
      · rw [if_neg (by omega), if_pos heq, UInt8.toBitVec_not, BitVec.getMsbD_not,
          getMsbD_byteMask (by omega) hr]
        simp only [hr, decide_true, Bool.true_and, ← decide_not, decide_eq_decide]
        omega
      · rw [if_neg (by omega), if_neg (by omega), hzero _ hgt (by omega),
          decide_eq_false (by omega)]
        simp

/-- A prefix length of 128 or more indexes behind the address. -/
theorem subnet6_outside (hp : 128 ≤ p) (m : SockaddrIn6) :
    IPv6Address.broadcastAddress u m p = none ∧
      IPv6Address.networdAddress u m p = none ∧
      IPv6Address.subnetMask u m p = none := by
  have hk : 16 ≤ p / 8 := by omega
  have hload : m.addr[p / 8]? = none := Vector.getElem?_eq_none hk
  refine ⟨?_, ?_, ?_⟩
  · rw [IPv6Address.broadcastAddress, hload]
    rfl
  · rw [IPv6Address.networdAddress, hload]
    rfl
  · rw [IPv6Address.subnetMask, store_of_le hk]
    rfl

end IPv6

/--
**IPv6 subnets.**  Below 128 bits of prefix no index leaves the address; the broadcast
address is right; the network address is right exactly if the bytes from the masked one
on are zero, and the mask exactly if those behind it are.  From 128 bits on each of the
methods indexes behind the address.
-/
theorem ipv6_subnet_iff (u : Undefined) (m : SockaddrIn6) (p : ℕ) :
    (p < 128 →
      ∃ broadcast network mask,
        IPv6Address.broadcastAddress u m p = some ({ m with addr := broadcast }, m) ∧
        IPv6Address.networdAddress u m p = some ({ m with addr := network }, m) ∧
        IPv6Address.subnetMask u m p = some ({ m with addr := mask }, SockaddrIn6.zeroed) ∧
        (∀ i < 128, bitAt broadcast i = if i < p then bitAt m.addr i else true) ∧
        ((∀ i < 128, bitAt network i = if i < p then bitAt m.addr i else false) ↔
          ∀ k, p / 8 ≤ k → k < 16 → byteAt m.addr k = 0) ∧
        ((∀ i < 128, bitAt mask i = decide (i < p)) ↔
          ∀ k, p / 8 < k → k < 16 → byteAt m.addr k = 0)) ∧
    (128 ≤ p →
      IPv6Address.broadcastAddress u m p = none ∧
      IPv6Address.networdAddress u m p = none ∧
      IPv6Address.subnetMask u m p = none) := by
  constructor
  · intro hlt
    obtain ⟨broadcast, hbroadcast, hset⟩ := broadcastAddress6 (u := u) hlt m
    obtain ⟨network, hnetwork, hclear⟩ := networdAddress6 (u := u) hlt m
    obtain ⟨mask, hmask, hones⟩ := subnetMask6 (u := u) hlt m
    exact ⟨broadcast, network, mask, hbroadcast, hnetwork, hmask, hset, hclear, hones⟩
  · intro hle
    exact subnet6_outside hle m

/-- `2001:db8::` followed by the last byte. -/
def documentationAddress (last : UInt8) : SockaddrIn6 :=
  { SockaddrIn6.zeroed with
    addr := #v[0x20, 0x01, 0x0d, 0xb8, 0, 0, 0, 0, 0, 0, 0, 0, 0, 0, 0, last] }

theorem ipv6_subnet_zero_host :
    ∃ network,
      IPv6Address.networdAddress x86Undefined (documentationAddress 0) 64 =
        some ({ documentationAddress 0 with addr := network }, documentationAddress 0) ∧
      ∀ i < 128, bitAt network i =
        if i < 64 then bitAt (documentationAddress 0).addr i else false := by
  obtain ⟨_, network, _, _, hnetwork, _, _, hclear, _⟩ :=
    (ipv6_subnet_iff x86Undefined (documentationAddress 0) 64).1 (by decide)
  refine ⟨network, hnetwork, hclear.mpr ?_⟩
  intro k hle hlt
  have hzero : ∀ k < 16, 8 ≤ k → byteAt (documentationAddress 0).addr k = 0 := by decide
  exact hzero k hlt hle

/-- The network of `2001:db8::1/64` is the address itself, its mask ends in the last byte
of the address, and `2001:db8::1/128` has no answer. -/
theorem ipv6_subnet_wrong :
    IPv6Address.networdAddress x86Undefined (documentationAddress 1) 64 =
      some (documentationAddress 1, documentationAddress 1) ∧
    (IPv6Address.subnetMask x86Undefined (documentationAddress 1) 64).map
        (fun r => r.1.addr) =
      some #v[0xff, 0xff, 0xff, 0xff, 0xff, 0xff, 0xff, 0xff, 0, 0, 0, 0, 0, 0, 0, 1] ∧
    IPv6Address.broadcastAddress x86Undefined (documentationAddress 1) 128 = none := by
  decide

end Address
end Civan
