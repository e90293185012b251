import Civan.Lib.MachineInt
import Civan.Lib.Segment

/-!
# ByteArray: the node list and its cursor

`ByteArray` keeps its bytes in a singly linked list of nodes of one size and
caches a pointer `m_cur` to the node it believes holds `m_position`.

The linked list hanging off `m_root` is the list `nodes`, and a node pointer is
an index into it; `cur = none` is the null pointer.  Walking `next` pointers is
recursion along the list, and reaching its end is a null dereference.

Conventions of the embedding:

* `size_t` values are natural numbers; the subtractions of the source that can
  wrap are written with `sizeSub`;
* memory is unbounded, and `ceil(1.0 * size / m_baseSize)` is the exact integer
  ceiling (it is, below `2 ^ 53` bytes);
* `new char[s]` is not initialised: the bytes it happens to hold are the
  function `uninit`, of which nothing is assumed.
-/

namespace Civan

open MachineInt Segment

/-- `CIVAN_LITTLE_ENDIAN` and `CIVAN_BIG_ENDIAN`. -/
inductive Endian where
  | little
  | big
deriving DecidableEq, Repr

/-- What can stop a call. -/
inductive Fault where
  | outOfRange (what : String)
  | lengthError
  | nullDeref
deriving DecidableEq, Repr

/-- `ByteArray::Node` without its link: `size` bytes at `ptr`. -/
structure Node where
  ptr : List UInt8
  size : ℕ
  length_ptr : ptr.length = size
deriving DecidableEq

namespace Node

/-- `new Node(s)`, whose bytes are whatever the allocator left there. -/
def new (s : ℕ) (uninit : ℕ → UInt8) : Node where
  ptr := (List.range s).map uninit
  size := s
  length_ptr := by simp

/-- `memcpy(ptr + pos, src, n)`. -/
def store (n : Node) (pos : ℕ) (src : List UInt8) : Node where
  ptr := overwrite n.ptr pos src
  size := n.size
  length_ptr := by rw [length_overwrite, n.length_ptr]

/-- `memcpy(dst, ptr + pos, len)`. -/
def load (n : Node) (pos len : ℕ) : List UInt8 :=
  (n.ptr.drop pos).take len

end Node

/-- The data members of `ByteArray`. -/
structure ByteArray where
  baseSize : ℕ
  position : ℕ
  capacity : ℕ
  size : ℕ
  endian : Endian
  nodes : List Node
  cur : Option ℕ
  uninit : ℕ → UInt8

/-- An `iovec` points into a node. -/
structure Iovec where
  node : ℕ
  base : ℕ
  len : ℕ
deriving DecidableEq, Repr

namespace ByteArray

/-- A member function: it may throw, and the state survives the throw. -/
abbrev Op (α : Type) := EStateM Fault ByteArray α

/-- `ByteArray(base_size)`. -/
def new (baseSize : ℕ) (uninit : ℕ → UInt8) : ByteArray where
  baseSize := baseSize
  position := 0
  capacity := baseSize
  size := 0
  endian := .big
  nodes := [Node.new baseSize uninit]
  cur := some 0
  uninit := uninit

def getPosition (b : ByteArray) : ℕ :=
  b.position

/-- `getSize`, which is the position. -/
def getSize (b : ByteArray) : ℕ :=
  b.position

def getReadSize (b : ByteArray) : ℕ :=
  sizeSub b.size b.position

def getCapacity (b : ByteArray) : ℕ :=
  sizeSub b.capacity b.position

def setIsLittleEndian (val : Bool) (b : ByteArray) : ByteArray :=
  { b with endian := if val then .little else .big }

/-- The nodes reachable from `m_cur`; empty for the null pointer. -/
def chain (b : ByteArray) : List Node :=
  match b.cur with
  | none => []
  | some i => b.nodes.drop i

/-- The nodes in front of `m_cur`. -/
def front (b : ByteArray) : List Node :=
  match b.cur with
  | none => b.nodes
  | some i => b.nodes.take i

/-- The node pointer with index `k`, null past the end of the list. -/
def nodeAt (b : ByteArray) (k : ℕ) : Option ℕ :=
  if k < b.nodes.length then some k else none

/-- `m_cur` after following `next` `k` times. -/
def advance (b : ByteArray) (k : ℕ) : Option ℕ :=
  b.cur.bind fun i => b.nodeAt (i + k)

/-- All stored bytes, used or not, in node order. -/
def flat (ns : List Node) : List UInt8 :=
  (ns.map Node.ptr).flatten

/-- The `count` nodes that `addCapacity` allocates. -/
def newNodes (b : ByteArray) (count : ℕ) : List Node :=
  (List.range count).map fun k =>
    Node.new b.baseSize fun j => b.uninit (b.capacity + k * b.baseSize + j)

/-- `addCapacity`. -/
def addCapacity (size : ℕ) : Op Unit := fun b =>
  if size = 0 then
    .ok () b
  else
    let oldCap := b.getCapacity
    if oldCap ≥ size then
      .ok () b
    else
      let count := (size - oldCap + b.baseSize - 1) / b.baseSize
      -- `while (cur->next != NULL)` reads through `m_cur` at once
      match b.chain with
      | [] => .error .nullDeref b
      | _ :: _ =>
        .ok ()
          { b with
            nodes := b.nodes ++ b.newNodes count
            capacity := b.capacity + count * b.baseSize
            cur := if oldCap = 0 then some b.nodes.length else b.cur }

/-- The copy loop of `write`: the changed chain and how far `m_cur` moved. -/
def fill : List Node → ℕ → List UInt8 → Option (List Node × ℕ)
  | [], _, _ => none
  | n :: rest, pos, src =>
    if src.length ≤ n.size - pos then
      some (n.store pos src :: rest, 0)
    else
      let ncap := n.size - pos
      match fill rest 0 (src.drop ncap) with
      | none => none
      | some (rest', k) => some (n.store pos (src.take ncap) :: rest', k + 1)

/-- `write(buf, size)`. -/
def write (buf : List UInt8) : Op Unit := fun b =>
  if buf.length = 0 then
    .ok () b
  else
    match addCapacity buf.length b with
    | .error e b' => .error e b'
    | .ok _ b' =>
      match fill b'.chain (b'.position % b'.baseSize) buf with
      | none => .error .nullDeref b'
      | some (chain', k) =>
        .ok ()
          { b' with
            nodes := b'.front ++ chain'
            cur := b'.advance k
            position := b'.position + buf.length
            size := max (b'.position + buf.length) b'.size }

/-- The copy loop of both `read` overloads: the bytes and how far the node
pointer moved.  Ending exactly at the end of a node moves on to the next. -/
def copyOut : List Node → ℕ → ℕ → Option (List UInt8 × ℕ)
  | [], _, _ => none
  | n :: rest, npos, size =>
    if size = 0 then
      some ([], 0)
    else
      let ncap := n.size - npos
      if ncap ≥ size then
        some (n.load npos size, if n.size = npos + size then 1 else 0)
      else
        match copyOut rest 0 (size - ncap) with
        | none => none
        | some (bytes, k) => some (n.load npos ncap ++ bytes, k + 1)

/-- `read(buf, size)`. -/
def read (size : ℕ) : Op (List UInt8) := fun b =>
  if size > b.getReadSize then
    .error (.outOfRange "not enough len") b
  else
    match copyOut b.chain (b.position % b.baseSize) size with
    | none => .error .nullDeref b
    | some (bytes, k) => .ok bytes { b with position := b.position + size, cur := b.advance k }

/-- `read(buf, size, position) const`; it starts at `m_cur`. -/
def readAt (size position : ℕ) : Op (List UInt8) := fun b =>
  if size > sizeSub b.size position then
    .error (.outOfRange "not enough len") b
  else
    match copyOut b.chain (position % b.baseSize) size with
    | none => .error .nullDeref b
    | some (bytes, _) => .ok bytes b

/-- The search loop of `setPosition`. -/
def seek : List Node → ℕ → Option ℕ
  | [], _ => none
  | n :: rest, v =>
    if v > n.size then
      match seek rest (v - n.size) with
      | none => none
      | some k => some (k + 1)
    else if v = n.size then
      some 1
    else
      some 0

/-- `setPosition(v)`. -/
def setPosition (v : ℕ) : Op Unit := fun b =>
  if b.capacity < v then
    .error (.outOfRange "set position out of range") b
  else
    let b' := { b with position := v, size := if v > b.size then v else b.size }
    match seek b'.nodes v with
    | none => .error .nullDeref b'
    | some k => .ok () { b' with cur := b'.nodeAt k }

/-- `clear()` keeps the root node only. -/
def clear : Op Unit := fun b =>
  match b.nodes with
  | [] => .error .nullDeref b
  | root :: _ =>
    .ok ()
      { b with
        nodes := [root]
        size := 0
        capacity := root.size
        position := 0
        cur := some 0 }

/-- `toString() const`. -/
def toString : Op (List UInt8) := fun b =>
  if b.getReadSize = 0 then
    .ok [] b
  else
    readAt b.getReadSize b.position b

/-- The loop that cuts `len` bytes into one `iovec` per node.  `nextCap` is what
the loop takes as the room in each node after the first. -/
def regions (nextCap : Node → ℕ) :
    ℕ → List Node → ℕ → ℕ → ℕ → Option (List Iovec)
  | _, [], _, _, _ => none
  | i, _ :: rest, npos, ncap, len =>
    if len ≤ ncap then
      some [⟨i, npos, len⟩]
    else
      match regions nextCap (i + 1) rest 0 (rest.head?.elim 0 nextCap) (len - ncap) with
      | none => none
      | some iovs => some (⟨i, npos, ncap⟩ :: iovs)

/-- `getReadBuffers(buffers, len) const`. -/
def getReadBuffers (len : ℕ) : Op (ℕ × List Iovec) := fun b =>
  let len := min b.getReadSize len
  if len = 0 then
    .ok (0, []) b
  else
    let npos := b.position % b.baseSize
    match b.cur, b.chain with
    | some i, n :: rest =>
      match regions (fun _ => b.baseSize) i (n :: rest) npos (n.size - npos) len with
      | none => .error .nullDeref b
      | some iovs => .ok (len, iovs) b
    | _, _ => .error .nullDeref b

/-- `getReadBuffers(buffers, len, position) const`; it starts at `m_root`. -/
def getReadBuffersAt (len position : ℕ) : Op (ℕ × List Iovec) := fun b =>
  let len := min (sizeSub b.size position) len
  if len = 0 then
    .ok (0, []) b
  else
    let npos := position % b.baseSize
    let count := position / b.baseSize
    match b.nodes.drop count with
    | [] => .error .nullDeref b
    | n :: rest =>
      match regions Node.size count (n :: rest) npos (n.size - npos) len with
      | none => .error .nullDeref b
      | some iovs => .ok (len, iovs) b

/-- `getWriteBuffers(buffers, len)`. -/
def getWriteBuffers (len : ℕ) : Op (ℕ × List Iovec) := fun b =>
  if len = 0 then
    .ok (0, []) b
  else
    match addCapacity len b with
    | .error e b' => .error e b'
    | .ok _ b' =>
      let npos := b'.position % b'.baseSize
      match b'.cur, b'.chain with
      | some i, n :: rest =>
        match regions Node.size i (n :: rest) npos (n.size - npos) len with
        | none => .error .nullDeref b'
        | some iovs => .ok (len, iovs) b'
      | _, _ => .error .nullDeref b'

/-- The bytes an `iovec` covers. -/
def iovBytes (b : ByteArray) (iov : Iovec) : List UInt8 :=
  match b.nodes[iov.node]? with
  | none => []
  | some n => n.load iov.base iov.len

end ByteArray

end Civan
