import Civan.Http.BodyAssembly
import Civan.Lib.Bytes

/-!
# Store sessions: receiving a message

A message travels as `len | nameLen | name | payload`, with both lengths in the byte
order of the host.  `recvMessage` reads the three parts with `readFixSize`, which
returns the number of bytes asked for as an `int`, and takes a result of zero or less
for a failure.  Zero is what a read of nothing returns, so a message whose payload is
empty is taken for a closed connection.

What the protobuf library makes of a name and a payload is the parameter `decode`.
-/

namespace Civan
namespace Store

open MachineInt Bytes
open Http (Arrival Socket FixRead readFixSize dropBytes)

/-- How `recvMessage` ends. -/
inductive Received (H : Type) where
  /-- `decode` was called with this name and these bytes.  If it failed, the session is
  closed and there is no handler. -/
  | decoded (name data : List UInt8) (handler : Option H) (sock : Socket)
  /-- The session is closed without a call of `decode`. -/
  | closed (sock : Socket)
  | outOfFuel
deriving DecidableEq, Repr

variable {H : Type}

/-- What the three reads of `recvMessage` share: a result of zero or less closes the
session, any other one goes on with the bytes that were stored. -/
def afterRead
    (next : List UInt8 → Socket → Received H) : Option FixRead → Received H
  | none => .outOfFuel
  | some read => if read.ret ≤ 0 then .closed read.socket else next read.stored read.socket

/-- Reads a part of `length` bytes and goes on with it. -/
def readPart
    (length : ℕ) (sock : Socket) (next : List UInt8 → Socket → Received H) : Received H :=
  afterRead next (readFixSize length sock)

/-- `Session::recvMessage`; `bufferSize` is `s_store_request_buffer_size`. -/
def recvMessage
    (bufferSize : UInt32) (decode : List UInt8 → List UInt8 → Option H) (sock : Socket) :
    Received H :=
  readPart 8 sock fun head sock =>
    let len := ofLeBytes (head.take 4)
    let nameLen := ofLeBytes (head.drop 4)
    if bufferSize.toNat < len then
      .closed sock
    else
      readPart nameLen sock fun name sock =>
        readPart len sock fun data sock =>
          .decoded name data (decode name data) sock

/-- The two lengths in front of a message. -/
def head (name payload : List UInt8) : List UInt8 :=
  leBytes 4 payload.length ++ leBytes 4 name.length

/-- A message as it travels. -/
def frame (name payload : List UInt8) : List UInt8 :=
  head name payload ++ (name ++ payload)

section Parts

variable {chunks : List (List UInt8)} (next : List UInt8 → Socket → Received H)

theorem readPart_eq {length : ℕ} {sock left : Socket} {ret : ℤ} {stored : List UInt8}
    (hread : readFixSize length sock = some ⟨ret, stored, left⟩) :
    readPart length sock next = if ret ≤ 0 then .closed left else next stored left := by
  rw [readPart, hread, afterRead]

/-- A part that has arrived is read whole, and the rest stays on the socket.  The result
is a success unless the part is empty or its length is negative as an `int`. -/
theorem readPart_arrived {part rest : List UInt8} (hne : ∀ c ∈ chunks, c ≠ [])
    (hlt : part.length < 2 ^ 32) (hflat : chunks.flatten = part ++ rest) :
    ∃ left : List (List UInt8), (∀ c ∈ left, c ≠ []) ∧ left.flatten = rest ∧
      readPart part.length (chunks.map .data) next =
        if 0 < part.length ∧ part.length < 2 ^ 31 then
          next part (left.map .data)
        else
          .closed (left.map .data) := by
  refine ⟨dropBytes part.length chunks, Http.ne_nil_of_mem_dropBytes hne, ?_, ?_⟩
  · rw [Http.flatten_dropBytes, hflat, List.drop_left]
  · have hread : readFixSize part.length (chunks.map .data) =
        some ⟨toInt32 part.length, part, (dropBytes part.length chunks).map .data⟩ := by
      rw [Http.readFixSize_chunks (by omega) hne, hflat, List.take_left, List.length_append,
        if_pos (Nat.le_add_right _ _)]
    rw [readPart_eq next hread]
    by_cases hgood : 0 < part.length ∧ part.length < 2 ^ 31
    · have hpos : 0 < toInt32 part.length := (toInt32_pos_iff hlt).mpr hgood
      rw [if_pos hgood, if_neg (not_le.mpr hpos)]
    · have hnonpos : toInt32 part.length ≤ 0 :=
        not_lt.mp fun hpos => hgood ((toInt32_pos_iff hlt).mp hpos)
      rw [if_neg hgood, if_pos hnonpos]

theorem readPart_short {length : ℕ} (hne : ∀ c ∈ chunks, c ≠ []) (hlt : length < 2 ^ 63)
    (hshort : chunks.flatten.length < length) :
    ∃ sock, readPart length (chunks.map .data) next = .closed sock := by
  have hread := Http.readFixSize_chunks hlt hne
  rw [if_neg (Nat.not_le.mpr hshort)] at hread
  exact ⟨_, by rw [readPart_eq next hread, if_pos le_rfl]⟩

/-- What has arrived of a message holds its first part, or is shorter than it. -/
theorem split_part {arrived missing part rest : List UInt8}
    (heq : arrived ++ missing = part ++ rest) (hle : part.length ≤ arrived.length) :
    ∃ more, arrived = part ++ more ∧ more ++ missing = rest := by
  have hpart : part <+: arrived := by
    refine List.prefix_of_prefix_length_le (List.prefix_append part rest) ?_ hle
    rw [← heq]
    exact List.prefix_append arrived missing
  obtain ⟨more, rfl⟩ := hpart
  rw [List.append_assoc] at heq
  exact ⟨more, rfl, List.append_cancel_left heq⟩

theorem length_head (name payload : List UInt8) : (head name payload).length = 8 := by
  rw [head, List.length_append, length_leBytes, length_leBytes]

/-- The lengths come back, if they fit their 32 bits. -/
theorem lengths_head (name payload : List UInt8)
    (hname : name.length < 2 ^ 32) (hpayload : payload.length < 2 ^ 32) :
    ofLeBytes ((head name payload).take 4) = payload.length ∧
      ofLeBytes ((head name payload).drop 4) = name.length := by
  have htake : (head name payload).take 4 = leBytes 4 payload.length :=
    List.take_left' (length_leBytes _ _)
  have hdrop : (head name payload).drop 4 = leBytes 4 name.length :=
    List.drop_left' (length_leBytes _ _)
  rw [htake, hdrop, ofLeBytes_leBytes, ofLeBytes_leBytes]
  exact ⟨Nat.mod_eq_of_lt hpayload, Nat.mod_eq_of_lt hname⟩

end Parts

section Messages

variable {bufferSize : UInt32} (decode : List UInt8 → List UInt8 → Option H)
variable {name payload : List UInt8} {chunks : List (List UInt8)}

/-- Once the head has arrived, what is left is to read the name and the payload. -/
theorem recvMessage_head {rest : List UInt8} (hname : name.length < 2 ^ 32)
    (hpayload : payload.length ≤ bufferSize.toNat) (hne : ∀ c ∈ chunks, c ≠ [])
    (hflat : chunks.flatten = head name payload ++ rest) :
    ∃ left : List (List UInt8), (∀ c ∈ left, c ≠ []) ∧ left.flatten = rest ∧
      recvMessage bufferSize decode (chunks.map .data) =
        readPart name.length (left.map .data) fun name sock =>
          readPart payload.length sock fun data sock =>
            .decoded name data (decode name data) sock := by
  have hsize := bufferSize.toNat_lt
  have height := length_head name payload
  obtain ⟨hlen, hnameLen⟩ := lengths_head name payload hname (by omega)
  rw [recvMessage, ← height]
  obtain ⟨left, hleft, hrest, hread⟩ := readPart_arrived _ hne (by omega) hflat
  refine ⟨left, hleft, hrest, ?_⟩
  rw [hread, if_pos (by omega), hlen, hnameLen, if_neg (Nat.not_lt.mpr hpayload)]

/-- A message that has arrived, in any pieces and with anything behind it. -/
theorem recvMessage_frame {rest : List UInt8}
    (hname : 0 < name.length) (hname' : name.length < 2 ^ 31)
    (hpayload : payload.length ≤ bufferSize.toNat) (hne : ∀ c ∈ chunks, c ≠ [])
    (hflat : chunks.flatten = frame name payload ++ rest) :
    ∃ left : List (List UInt8), left.flatten = rest ∧
      recvMessage bufferSize decode (chunks.map .data) =
        if 0 < payload.length ∧ payload.length < 2 ^ 31 then
          .decoded name payload (decode name payload) (left.map .data)
        else
          .closed (left.map .data) := by
  have hsize := bufferSize.toNat_lt
  rw [frame, List.append_assoc, List.append_assoc] at hflat
  obtain ⟨left₁, hne₁, hflat₁, hrecv⟩ := recvMessage_head decode (by omega) hpayload hne hflat
  obtain ⟨left₂, hne₂, hflat₂, hread₂⟩ := readPart_arrived _ hne₁ (by omega) hflat₁
  obtain ⟨left, _, hrest, hread⟩ := readPart_arrived _ hne₂ (by omega) hflat₂
  exact ⟨left, hrest, by rw [hrecv, hread₂, if_pos ⟨hname, hname'⟩, hread]⟩

theorem recvMessage_truncated (hname : 0 < name.length) (hname' : name.length < 2 ^ 31)
    (hpayload : payload.length ≤ bufferSize.toNat) (hne : ∀ c ∈ chunks, c ≠ [])
    {missing : List UInt8} (hmissing : missing ≠ [])
    (hflat : chunks.flatten ++ missing = frame name payload) :
    ∃ sock, recvMessage bufferSize decode (chunks.map .data) = .closed sock := by
  have hsize := bufferSize.toNat_lt
  have hlen : 0 < missing.length := List.length_pos_iff.mpr hmissing
  have height := length_head name payload
  by_cases hhead : 8 ≤ chunks.flatten.length
  · obtain ⟨more, hmore, hrest⟩ := split_part hflat (by omega)
    obtain ⟨left₁, hne₁, hflat₁, hrecv⟩ :=
      recvMessage_head decode (by omega) hpayload hne hmore
    rw [hrecv]
    rw [← hflat₁] at hrest
    by_cases hnameIn : name.length ≤ left₁.flatten.length
    · obtain ⟨more₂, hmore₂, hrest₂⟩ := split_part hrest hnameIn
      obtain ⟨left₂, hne₂, hflat₂, hread₂⟩ := readPart_arrived _ hne₁ (by omega) hmore₂
      have hshort : left₂.flatten.length < payload.length := by
        rw [← hrest₂, hflat₂, List.length_append]
        omega
      rw [hread₂, if_pos ⟨hname, hname'⟩]
      exact readPart_short _ hne₂ (by omega) hshort
    · exact readPart_short _ hne₁ (by omega) (Nat.lt_of_not_le hnameIn)
  · exact readPart_short _ hne (by omega) (Nat.lt_of_not_le hhead)

/--
**Store message framing.**  For a name of 1 to 65535 bytes and a payload up to the
buffer size, in whatever pieces the message arrives and whatever follows it: if the
payload is not empty and its length is positive as an `int`, `recvMessage` takes exactly
the message off the socket and gives exactly this name and payload to `decode`, so that
the session is closed only if `decode` fails.  In the two other cases, and only then,
the complete message is consumed and the session closed without a call of `decode`.  If
the peer closes before the message is complete, the session is closed.
-/
theorem recvMessage_framing_iff
    (bufferSize : UInt32) (decode : List UInt8 → List UInt8 → Option H)
    (name payload : List UInt8) (hname : 1 ≤ name.length) (hname' : name.length ≤ 65535)
    (hpayload : payload.length ≤ bufferSize.toNat) :
    (∀ (chunks : List (List UInt8)) (rest : List UInt8),
      (∀ c ∈ chunks, c ≠ []) → chunks.flatten = frame name payload ++ rest →
      ∃ left : List (List UInt8), left.flatten = rest ∧
        recvMessage bufferSize decode (chunks.map .data) =
          if 0 < payload.length ∧ payload.length < 2 ^ 31 then
            .decoded name payload (decode name payload) (left.map .data)
          else
            .closed (left.map .data)) ∧
    (∀ (chunks : List (List UInt8)) (missing : List UInt8),
      (∀ c ∈ chunks, c ≠ []) → missing ≠ [] →
      chunks.flatten ++ missing = frame name payload →
      ∃ sock, recvMessage bufferSize decode (chunks.map .data) = .closed sock) := by
  constructor
  · intro chunks rest hne hflat
    exact recvMessage_frame decode hname (by omega) hpayload hne hflat
  · intro chunks missing hne hmissing hflat
    exact recvMessage_truncated decode hname (by omega) hpayload hne hmissing hflat

/-- A message in three pieces, with the first byte of the next one. -/
theorem recvMessage_framing_three_pieces :
    ∃ left : List (List UInt8), left.flatten = [9] ∧
      recvMessage 4096 (fun name data => some (name ++ data))
        ([[2, 0, 0], [0, 1, 0, 0, 0, 65, 7], [8, 9]].map .data) =
          .decoded [65] [7, 8] (some [65, 7, 8]) (left.map .data) := by
  have hall := (recvMessage_framing_iff 4096 (fun name data => some (name ++ data)) [65] [7, 8]
    (by decide) (by decide) (by decide)).1
  exact hall [[2, 0, 0], [0, 1, 0, 0, 0, 65, 7], [8, 9]] [9] (by decide) (by decide)

/-- A message with an empty payload arrives complete, and the session is closed. -/
theorem recvMessage_empty_payload_closed :
    frame [65] [] = [0, 0, 0, 0, 1, 0, 0, 0, 65] ∧
    recvMessage 4096 (fun name data => some (name ++ data))
      [.data [0, 0, 0, 0, 1, 0, 0, 0, 65]] = .closed [] := by
  decide

end Messages

end Store
end Civan
