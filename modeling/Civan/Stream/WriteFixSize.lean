import Mathlib.Tactic
import Civan.ByteArray.Append

/-!
# Sending a ByteArray through a stream

`SocketStream::write(ba, length)` offers the next bytes of the array to `sendmsg`
as one `iovec` per node and moves the position by what was accepted;
`Stream::writeFixSize(ba, length)` repeats it until all are sent.  The kernel
answers each call: the number of bytes accepted, or an error.
-/

namespace Civan
namespace Stream

open MachineInt
open Civan.ByteArray (Op Appending Positioned Represents)

section Model

/-- The answers of `sendmsg`, by number of the call and bytes offered; `none` is `-1`.
A socket that is not connected gives `-1` as well. -/
abbrev Kernel := ℕ → ℕ → Option ℕ

/-- `SocketStream::write(ba, length)`: the return value and the bytes that were sent. -/
def write (send : ℕ → Option ℕ) (length : ℕ) : Op (ℤ × List UInt8) := fun b =>
  match ByteArray.getReadBuffers length b with
  | .error e b' => .error e b'
  | .ok (_, iovs) b' =>
    match send (iovs.map Iovec.len).sum with
    | none => .ok (-1, []) b'
    | some accepted =>
      let sent := (iovs.flatMap b'.iovBytes).take accepted
      let rt := toInt32 accepted
      if rt > 0 then
        match ByteArray.setPosition (b'.getPosition + rt.toNat) b' with
        | .error e b'' => .error e b''
        | .ok _ b'' => .ok (rt, sent) b''
      else
        .ok (rt, sent) b'

/-- Appending writes, one after the other. -/
def appendAll : List (List UInt8) → Op Unit
  | [] => fun b => .ok () b
  | buf :: bufs => fun b =>
    match ByteArray.write buf b with
    | .error e b' => .error e b'
    | .ok _ b' => appendAll bufs b'

end Model

section Send

variable {b : ByteArray} {data : List UInt8} {p : ℕ}

theorem Appending.appendAll (h : Appending b data) (bufs : List (List UInt8)) :
    ∃ b', appendAll bufs b = .ok () b' ∧ Appending b' (data ++ bufs.flatten) := by
  induction bufs generalizing b data with
  | nil =>
    refine ⟨b, rfl, ?_⟩
    rw [List.flatten_nil, List.append_nil]
    exact h
  | cons buf bufs ih =>
    obtain ⟨b₁, hwrite, h₁, _⟩ := h.write buf
    obtain ⟨b', hrest, h'⟩ := ih h₁
    refine ⟨b', ?_, ?_⟩
    · simp only [Stream.appendAll, hwrite]
      exact hrest
    · rw [List.flatten_cons, ← List.append_assoc]
      exact h'

end Send

end Stream
end Civan
