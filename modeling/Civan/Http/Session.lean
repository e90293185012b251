import Civan.Http.Request

/-!
# HttpSession: receiving a request

`recvRequest` reads into a fixed buffer until the head is complete, and then
assembles the body from what is left in the buffer and from the socket.

The socket is the list of what successive `recv` calls find.  A `recv` that asks
for less than has arrived leaves the rest for the next one.  The loops carry a
bound on the number of reads, which is never reached: each read takes a byte.
-/

namespace Civan
namespace Http

open MachineInt

/-- What a `recv` finds on the socket. -/
inductive Arrival where
  | data (bytes : List UInt8)
  | error
deriving DecidableEq, Repr

/-- What is still to arrive; at the end the peer has closed. -/
abbrev Socket :=
  List Arrival

/-- The most one system call transfers (`MAX_RW_COUNT`). -/
def maxRwCount : ℕ := 0x7ffff000

/-- `Socket::recv`: the returned count, the bytes stored, and what remains. -/
def recv (length : ℕ) : Socket → ℤ × List UInt8 × Socket
  | [] => (0, [], [])
  | .error :: rest => (-1, [], rest)
  | .data bytes :: rest =>
    let k := min length maxRwCount
    ((bytes.take k).length, bytes.take k,
      if bytes.length ≤ k then rest else .data (bytes.drop k) :: rest)

/-- A bound on the number of reads the socket can serve. -/
def Socket.size : Socket → ℕ
  | [] => 0
  | .error :: rest => Socket.size rest + 1
  | .data bytes :: rest => Socket.size rest + bytes.length + 1

/-- The return value, the bytes stored from the start of the buffer on, and the
socket afterwards. -/
structure FixRead where
  ret : ℤ
  stored : List UInt8
  socket : Socket
deriving DecidableEq, Repr

def readFixSizeLoop (length : ℕ) : ℕ → ℤ → List UInt8 → Socket → Option FixRead
  | 0, _, _, _ => none
  | fuel + 1, left, stored, sock =>
    if left ≤ 0 then
      some ⟨toInt32 length, stored, sock⟩
    else
      let (len, bytes, sock') := recv left.toNat sock
      if len ≤ 0 then
        some ⟨len, stored, sock'⟩
      else
        readFixSizeLoop length fuel (left - len) (stored ++ bytes) sock'

def readFixSize (length : ℕ) (sock : Socket) : Option FixRead :=
  readFixSizeLoop length (sock.size + 1) (toInt64 length) [] sock

/-- How the head loop ends. -/
inductive HeadResult where
  | abort (e : Abort)
  | closed (sock : Socket)
  | finished (h : HttpRequestParser) (data : List UInt8) (sock : Socket)
  | outOfFuel
deriving DecidableEq, Repr

/-- The `do` loop.  `data` is what the buffer holds before `offset`. -/
def recvHeadLoop (M : Machine) (buffSize : ℕ) :
    ℕ → HttpRequestParser → List UInt8 → Socket → HeadResult
  | 0, _, _, _ => .outOfFuel
  | fuel + 1, h, data, sock =>
    let (len, bytes, sock') := recv (buffSize - data.length) sock
    if len ≤ 0 then
      .closed sock'
    else
      match h.execute M (data ++ bytes) with
      | .error e => .abort e
      | .ok (_, h', data') =>
        if h'.hasError then
          .closed sock'
        else if (data'.length : ℤ) = toInt32 buffSize then
          .closed sock'
        else if h'.isFinished ≠ 0 then
          .finished h' data' sock'
        else
          recvHeadLoop M buffSize fuel h' data' sock'

/-- The head loop from a new parser, whose `query_start` is whatever the memory
held. -/
def recvHead (M : Machine) (buffSize queryStart : ℕ) (sock : Socket) : HeadResult :=
  recvHeadLoop M buffSize (sock.size + 1) (HttpRequestParser.new queryStart) [] sock

/-- How `recvRequest` ends. -/
inductive RecvResult where
  | abort (e : Abort)
  | closed (sock : Socket)
  | request (r : HttpRequest) (sock : Socket)
  | outOfFuel
deriving DecidableEq, Repr

/-- The outcome, and how many bytes were stored past the end of the body. -/
structure Recv where
  result : RecvResult
  overrun : ℕ
deriving DecidableEq, Repr

/-- The branches on the content length `length`, with `data` left in the buffer. -/
def assembleBody (length : ℤ) (r : HttpRequest) (data : List UInt8) (sock : Socket) : Recv :=
  if 0 < length then
    if (stringMaxSize : ℤ) < length then
      ⟨.abort .lengthError, 0⟩
    else if (data.length : ℤ) < length then
      -- reads `length` bytes at `&body[offset]`, not `length - offset`
      match readFixSize length.toNat sock with
      | none => ⟨.outOfFuel, 0⟩
      | some read =>
        let overrun := data.length + read.stored.length - length.toNat
        if read.ret ≤ 0 then
          ⟨.closed read.socket, overrun⟩
        else
          let body := (data ++ read.stored).take length.toNat
          ⟨.request { r with body := body }.init read.socket, overrun⟩
    else
      ⟨.request { r with body := data.take length.toNat }.init sock, 0⟩
  else
    ⟨.request r.init sock, 0⟩

/-- The part of `recvRequest` after the head. -/
def recvBody (lexicalCast : List UInt8 → Option (BitVec 64))
    (h : HttpRequestParser) (data : List UInt8) (sock : Socket) : Recv :=
  assembleBody (toInt64 (h.getContentLength lexicalCast).toNat) h.data data sock

/-- `HttpSession::recvRequest`. -/
def recvRequest (M : Machine) (lexicalCast : List UInt8 → Option (BitVec 64))
    (buffSize queryStart : ℕ) (sock : Socket) : Recv :=
  match recvHead M buffSize queryStart sock with
  | .abort e => ⟨.abort e, 0⟩
  | .closed sock' => ⟨.closed sock', 0⟩
  | .finished h data sock' => recvBody lexicalCast h data sock'
  | .outOfFuel => ⟨.outOfFuel, 0⟩

end Http
end Civan
