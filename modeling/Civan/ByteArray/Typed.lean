import Civan.ByteArray.SizeInvariant
import Civan.Lib.Bytes

/-!
# ByteArray: typed reads and writes

Integers are their bits: `int16_t` and `uint16_t` are both `BitVec 16`, and a
`float` or `double` is its bit pattern, as the `memcpy` in the source makes it.
A fixed-size integer goes through the array as its memory image, byte-swapped
when `m_endian` differs from the order of the host.
-/

namespace Civan

open Bytes MachineInt

/-- `CIVAN_BYTE_ORDER` on the machine the library is built for. -/
def hostOrder : Endian :=
  .little

/-- `byteswap` on a `k`-byte integer. -/
def byteswap (k : ℕ) (v : BitVec (8 * k)) : BitVec (8 * k) :=
  BitVec.ofNat _ (ofLeBytes (leBytes k v.toNat).reverse)

namespace ByteArray

/-- The bytes `write(&value, sizeof(value))` copies, after the byte swap. -/
def fixedImage (e : Endian) (k : ℕ) (v : BitVec (8 * k)) : List UInt8 :=
  leBytes k (if e ≠ hostOrder then byteswap k v else v).toNat

/-- The integer a `k`-byte read yields, after the byte swap. -/
def fixedValue (e : Endian) (k : ℕ) (l : List UInt8) : BitVec (8 * k) :=
  let v := BitVec.ofNat (8 * k) (ofLeBytes l)
  if e ≠ hostOrder then byteswap k v else v

/-- The common body of the fixed-size writes. -/
def writeFixed (k : ℕ) (v : BitVec (8 * k)) : Op Unit := do
  let b ← get
  write (fixedImage b.endian k v)

def writeFint8 (value : BitVec 8) : Op Unit :=
  write (leBytes 1 value.toNat)

def writeFuint8 (value : BitVec 8) : Op Unit :=
  write (leBytes 1 value.toNat)

def writeFint16 (value : BitVec 16) : Op Unit :=
  writeFixed 2 value

def writeFuint16 (value : BitVec 16) : Op Unit :=
  writeFixed 2 value

def writeFint32 (value : BitVec 32) : Op Unit :=
  writeFixed 4 value

def writeFuint32 (value : BitVec 32) : Op Unit :=
  writeFixed 4 value

def writeFint64 (value : BitVec 64) : Op Unit :=
  writeFixed 8 value

def writeFuint64 (value : BitVec 64) : Op Unit :=
  writeFixed 8 value

/-- `EncodeZigzag32`, with two's-complement negation. -/
def encodeZigzag32 (v : BitVec 32) : BitVec 32 :=
  if v.toInt < 0 then -v * 2 - 1 else v * 2

/-- `EncodeZigzag64`, with two's-complement negation. -/
def encodeZigzag64 (v : BitVec 64) : BitVec 64 :=
  if v.toInt < 0 then -v * 2 - 1 else v * 2

/-- `DecodeZigzag32`; its parameter is an `int64_t`. -/
def decodeZigzag32 (v : BitVec 64) : BitVec 64 :=
  v.sshiftRight 1 ^^^ -(v &&& 1)

/-- `DecodeZigzag64`. -/
def decodeZigzag64 (v : BitVec 64) : BitVec 64 :=
  v.sshiftRight 1 ^^^ -(v &&& 1)

def writeUint32 (value : BitVec 32) : Op Unit :=
  write (varint value.toNat)

def writeInt32 (value : BitVec 32) : Op Unit :=
  writeUint32 (encodeZigzag32 value)

def writeUint64 (value : BitVec 64) : Op Unit :=
  write (varint value.toNat)

def writeInt64 (value : BitVec 64) : Op Unit :=
  writeUint64 (encodeZigzag64 value)

def writeFloat (value : BitVec 32) : Op Unit :=
  writeFuint32 value

def writeDouble (value : BitVec 64) : Op Unit :=
  writeFuint64 value

/-- `value.size()` is truncated to 16 bits by the call. -/
def writeStringF16 (value : List UInt8) : Op Unit := do
  writeFuint16 (BitVec.ofNat 16 value.length)
  write value

def writeStringF32 (value : List UInt8) : Op Unit := do
  writeFuint32 (BitVec.ofNat 32 value.length)
  write value

def writeStringF64 (value : List UInt8) : Op Unit := do
  writeFuint64 (BitVec.ofNat 64 value.length)
  write value

def writeStringVint (value : List UInt8) : Op Unit := do
  writeUint64 (BitVec.ofNat 64 value.length)
  write value

def writeStringWithoutLength (value : List UInt8) : Op Unit :=
  write value

/-- The common body of the fixed-size reads. -/
def readFixed (k : ℕ) : Op (BitVec (8 * k)) := do
  let l ← read k
  let b ← get
  return fixedValue b.endian k l

def readFint8 : Op (BitVec 8) := do
  let l ← read 1
  return BitVec.ofNat 8 (ofLeBytes l)

def readFuint8 : Op (BitVec 8) := do
  let l ← read 1
  return BitVec.ofNat 8 (ofLeBytes l)

def readFint16 : Op (BitVec 16) :=
  readFixed 2

def readFuint16 : Op (BitVec 16) :=
  readFixed 2

def readFint32 : Op (BitVec 32) :=
  readFixed 4

def readFuint32 : Op (BitVec 32) :=
  readFixed 4

def readFint64 : Op (BitVec 64) :=
  readFixed 8

def readFuint64 : Op (BitVec 64) :=
  readFixed 8

/-- One more group of seven bits at shift `i`.  The accumulator is a `uint32_t`;
a shift of 32 or more is masked to five bits, as the x86-64 shift does. -/
def orGroup (v : BitVec 32) (b : BitVec 8) (i : ℕ) : BitVec 32 :=
  v ||| (b.setWidth 32 <<< (i % 32))

/-- The loop of `readUint32` and `readUint64` over the shifts still to come. -/
def readVarint : List ℕ → BitVec 32 → Op (BitVec 32)
  | [], v => return v
  | i :: is, v => do
    let b ← readFuint8
    if b < 0x80 then
      return orGroup v b i
    else
      readVarint is (orGroup v (b &&& 0x7f) i)

/-- `for (int i = 0; i < 32; i += 7)`. -/
def shifts32 : List ℕ :=
  [0, 7, 14, 21, 28]

/-- `for (int i = 0; i < 64; i += 7)`. -/
def shifts64 : List ℕ :=
  [0, 7, 14, 21, 28, 35, 42, 49, 56, 63]

def readUint32 : Op (BitVec 32) :=
  readVarint shifts32 0

def readInt32 : Op (BitVec 32) := do
  let v ← readUint32
  return (decodeZigzag32 (v.setWidth 64)).setWidth 32

/-- The accumulator of `readUint64` is a `uint32_t` as well. -/
def readUint64 : Op (BitVec 64) := do
  let v ← readVarint shifts64 0
  return v.setWidth 64

def readInt64 : Op (BitVec 64) := do
  let v ← readUint64
  return decodeZigzag64 v

def readFloat : Op (BitVec 32) :=
  readFuint32

def readDouble : Op (BitVec 64) :=
  readFuint64

/-- `result.resize(size); read(&result[0], size)`. -/
def readString (size : ℕ) : Op (List UInt8) :=
  if stringMaxSize < size then throw .lengthError else read size

def readStringF16 : Op (List UInt8) := do
  let size ← readFuint16
  readString size.toNat

def readStringF32 : Op (List UInt8) := do
  let size ← readFuint32
  readString size.toNat

def readStringF64 : Op (List UInt8) := do
  let size ← readFuint64
  readString size.toNat

def readStringVint : Op (List UInt8) := do
  let len ← readUint64
  readString len.toNat

end ByteArray
end Civan
