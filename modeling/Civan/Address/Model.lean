import Civan.ByteArray.Typed

/-!
# IP addresses: the subnet methods

An address object holds a `sockaddr_in` or `sockaddr_in6` in network byte order.
Each method is written with the object it is called on: it returns the address it
makes and the object after the call.

`CreateMask` computes with `int`.  A shift by 32 positions and `INT_MIN - 1` are
undefined there; what the compiled program makes of them is a parameter.  An index
outside `s6_addr` stops the call.
-/

namespace Civan
namespace Address

open MachineInt

/-- `byteswapOnLittleEndian` on a `k`-byte integer. -/
def byteswapOnLittleEndian (host : Endian) (k : ℕ) (v : BitVec (8 * k)) : BitVec (8 * k) :=
  match host with
  | .little => byteswap k v
  | .big => v

/-- What the program makes of the undefined operations on `int`. -/
structure Undefined where
  shl : ℕ → BitVec 32
  pred : BitVec 32

/-- `1 << count`. -/
def shiftOne (u : Undefined) (count : ℕ) : BitVec 32 :=
  if count < 32 then 1#32 <<< count else u.shl count

/-- `x - 1`. -/
def minusOne (u : Undefined) (x : BitVec 32) : BitVec 32 :=
  if x = BitVec.intMin 32 then u.pred else x - 1

/-- `CreateMask<T>(bits)` for a `T` of `k` bytes. -/
def createMask (u : Undefined) (k bits : ℕ) : BitVec (8 * k) :=
  (minusOne u (shiftOne u (sizeSub (8 * k) bits))).setWidth (8 * k)

def afInet : BitVec 16 := 2

/-- `sockaddr_in`, its padding apart. -/
structure SockaddrIn where
  family : BitVec 16
  port : BitVec 16
  addr : BitVec 32
deriving DecidableEq, Repr

namespace IPv4Address

variable (host : Endian) (u : Undefined)

/-- `CreateMask<uint32_t>` in network byte order. -/
def wireMask (bits : ℕ) : BitVec 32 :=
  byteswapOnLittleEndian host 4 (createMask u 4 bits)

def broadcastAddress (m : SockaddrIn) (prefixLen : ℕ) : Option SockaddrIn × SockaddrIn :=
  if prefixLen > 32 then
    (none, m)
  else
    (some { m with addr := m.addr ||| wireMask host u prefixLen }, m)

def networdAddress (m : SockaddrIn) (prefixLen : ℕ) : Option SockaddrIn × SockaddrIn :=
  if prefixLen > 32 then
    (none, m)
  else
    (some { m with addr := m.addr &&& wireMask host u prefixLen }, m)

def subnetMask (m : SockaddrIn) (prefixLen : ℕ) : Option SockaddrIn × SockaddrIn :=
  (some { family := afInet, port := 0, addr := ~~~ wireMask host u prefixLen }, m)

end IPv4Address

def afInet6 : BitVec 16 := 10

structure SockaddrIn6 where
  family : BitVec 16
  port : BitVec 16
  flowinfo : BitVec 32
  addr : Vector UInt8 16
  scopeId : BitVec 32
deriving DecidableEq, Repr

/-- After `memset` and the assignment of the family. -/
def SockaddrIn6.zeroed : SockaddrIn6 where
  family := afInet6
  port := 0
  flowinfo := 0
  addr := Vector.replicate 16 0
  scopeId := 0

/-- `s6_addr[i] = v`. -/
def store (b : Vector UInt8 16) (i : ℕ) (v : UInt8) : Option (Vector UInt8 16) :=
  if h : i < 16 then some (b.set i v h) else none

/-- `s6_addr[i] = v` for `count` indices from `i` on. -/
def fill (v : UInt8) : ℕ → ℕ → Vector UInt8 16 → Option (Vector UInt8 16)
  | 0, _, b => some b
  | count + 1, i, b => (store b i v).bind (fill v count (i + 1))

namespace IPv6Address

variable (u : Undefined)

/-- `CreateMask<uint8_t>`. -/
def byteMask (bits : ℕ) : UInt8 :=
  UInt8.ofBitVec (createMask u 1 bits)

def broadcastAddress (m : SockaddrIn6) (prefixLen : ℕ) : Option (SockaddrIn6 × SockaddrIn6) := do
  let old ← m.addr[prefixLen / 8]?
  let b ← store m.addr (prefixLen / 8) (old ||| byteMask u (prefixLen % 8))
  let b ← fill 0xff (16 - (prefixLen / 8 + 1)) (prefixLen / 8 + 1) b
  return ({ m with addr := b }, m)

/-- The loop that would clear the rest is a comment in the source. -/
def networdAddress (m : SockaddrIn6) (prefixLen : ℕ) : Option (SockaddrIn6 × SockaddrIn6) := do
  let old ← m.addr[prefixLen / 8]?
  let b ← store m.addr (prefixLen / 8) (old &&& byteMask u (prefixLen % 8))
  return ({ m with addr := b }, m)

/-- It is `m_addr` that is cleared, not the copy. -/
def subnetMask (m : SockaddrIn6) (prefixLen : ℕ) : Option (SockaddrIn6 × SockaddrIn6) := do
  let b ← store m.addr (prefixLen / 8) (~~~ byteMask u (prefixLen % 8))
  let b ← fill 0xff (prefixLen / 8) 0 b
  return ({ m with addr := b }, SockaddrIn6.zeroed)

end IPv6Address

end Address
end Civan
