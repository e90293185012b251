import Civan.ByteArray.AppendCalls
import Civan.ByteArray.StringRoundTrip

/-!
# ByteArray: strings with a 16-bit length

`writeStringF16` stores the length of its argument in a `uint16_t` and then all
the bytes.  From `2 ^ 16` bytes on the two disagree: the stored length is a
remainder, the read stops inside the string, and whatever was written behind it
is read from the wrong place.  Nothing refuses such a string.
-/

namespace Civan
namespace ByteArray

open Bytes MachineInt

section Frames

variable {b : ByteArray} {data : List UInt8}

theorem readStringF16_frame {n : ℕ} {m : List UInt8} (hm : m ≠ []) (hn : n % 2 ^ 16 ≤ m.length)
    (h : Holds b (fixedImage b.endian 2 (BitVec.ofNat 16 n) ++ m)) :
    ∃ b', readStringF16 b = .ok (m.take (n % 2 ^ 16)) b' ∧ Consumed b b' (2 + n % 2 ^ 16) := by
  obtain ⟨b₁, hread, hcons⟩ := readFixed_fixedImage (k := 1) h
  have h₁ := h.consumed hcons
  have hsize : (fixedImage b.endian 2 (BitVec.ofNat 16 n)).length = 2 := length_leBytes _ _
  rw [hsize] at hcons
  have hlen := h₁.length_eq
  have hahead := h₁.wf.getReadSize_le_ahead
  have hpos : 0 < m.length := List.length_pos_iff.mpr hm
  -- a byte is left behind the length, so a length of zero is read as well
  have hcur : b₁.cur ≠ none := by
    intro hnone
    have hnil := h₁.wf.cur_eq_none_iff.mp hnone
    rw [hnil, List.length_nil] at hahead
    omega
  obtain ⟨b', hstring, hcons'⟩ :=
    read_spec_of_cur h₁.wf (n := n % 2 ^ 16) hcur (by omega)
  have htake : b₁.ahead.take (n % 2 ^ 16) = m.take (n % 2 ^ 16) := by
    have hbytes := congrArg (List.take (n % 2 ^ 16)) h₁.bytes
    rw [List.take_take, Nat.min_eq_left (by omega)] at hbytes
    exact hbytes
  refine ⟨b', ?_, hcons.trans hcons'⟩
  rw [readStringF16, readFuint16, bind_of_ok hread, BitVec.toNat_ofNat,
    readString_eq (by omega), hstring, htake]

/-- What becomes of a string between other values. -/
theorem Appending.stringF16 (h : Appending b data) {s : List UInt8} (hs : s ≠ [])
    (after : List TypedWrite) :
    ∃ b₁ b₂ b₃ b₄,
      writeStringF16 s b = .ok () b₁ ∧
      ByteArray.writeAll after b₁ = .ok () b₂ ∧
      setPosition b.position b₂ = .ok () b₃ ∧
      readStringF16 b₃ = .ok (s.take (s.length % 2 ^ 16)) b₄ ∧
      b₁.position = b.position + 2 + s.length ∧
      b₄.position = b.position + 2 + s.length % 2 ^ 16 := by
  obtain ⟨b₁, hwrite, h₁, _, hend₁⟩ := h.typedWrite (.stringF16 s)
  obtain ⟨b₂, hafter, h₂, hend₂⟩ := h₁.writeAll after
  have hpos : data.length = b.position := h.represents.pos_eq
  have hpos₁ := h₁.represents.pos_eq
  obtain ⟨b₃, hset, h₃, _, _, hend₃⟩ :=
    h₂.represents.setPosition (v := data.length) (by simp only [List.length_append]; omega)
  have hend : b₃.endian = b.endian := hend₃.trans (hend₂.trans hend₁)
  have hholds := h₃.holds
  dsimp only at hholds
  rw [List.append_assoc, List.drop_left, TypedWrite.image, List.append_assoc, ← hend] at hholds
  have hmod : s.length % 2 ^ 16 ≤ s.length := Nat.mod_le _ _
  obtain ⟨b₄, hread, hcons⟩ :=
    readStringF16_frame (List.append_ne_nil_of_left_ne_nil hs _)
      (by rw [List.length_append]; omega) hholds
  rw [List.take_append_of_le_length hmod] at hread
  refine ⟨b₁, b₂, b₃, b₄, hwrite, hafter, hpos ▸ hset, hread, ?_, ?_⟩
  · have hsize : (fixedImage b.endian 2 (BitVec.ofNat 16 s.length)).length = 2 :=
      length_leBytes _ _
    simp only [TypedWrite.image, List.length_append, hsize] at hpos₁
    omega
  · rw [hcons.position_eq, ← h₃.represents.pos_eq]
    simp only
    omega

end Frames

/--
**Strings with a 16-bit length.**  A string is never refused.  After any values
and with any values behind it, the read gives it back and stops at the next value
exactly if its length fits in 16 bits.
-/
theorem stringF16_in_sync_iff {baseSize : ℕ} (hbase : 1 ≤ baseSize) (uninit : ℕ → UInt8)
    (little : Bool) (before : List TypedWrite) {s : List UInt8} (hs : s ≠ [])
    (after : List TypedWrite) :
    ∃ b₀ b₁ b₂ b₃ b₄ r,
      writeAll before (setIsLittleEndian little (new baseSize uninit)) = .ok () b₀ ∧
      writeStringF16 s b₀ = .ok () b₁ ∧
      b₀.position < b₁.position ∧
      writeAll after b₁ = .ok () b₂ ∧
      setPosition b₀.position b₂ = .ok () b₃ ∧
      readStringF16 b₃ = .ok r b₄ ∧
      (r = s ∧ b₄.position = b₁.position ↔ s.length < 2 ^ 16) := by
  have hstart : Appending (setIsLittleEndian little (new baseSize uninit)) [] :=
    appending_of_empty (wf_setIsLittleEndian (wf_new hbase uninit) little) rfl rfl rfl rfl
  obtain ⟨b₀, hbefore, h₀, _⟩ := hstart.writeAll before
  obtain ⟨b₁, b₂, b₃, b₄, hwrite, hafter, hset, hread, hnext, hend⟩ := h₀.stringF16 hs after
  refine ⟨b₀, b₁, b₂, b₃, b₄, _, hbefore, hwrite, by omega, hafter, hset, hread, ?_⟩
  constructor
  · rintro ⟨_, hposition⟩
    have := Nat.mod_lt s.length (Nat.two_pow_pos 16)
    omega
  · intro hlt
    have hmod : s.length % 2 ^ 16 = s.length := Nat.mod_eq_of_lt hlt
    rw [hmod] at hend ⊢
    exact ⟨List.take_length, hend.trans hnext.symm⟩

/-- Two bytes across one-byte nodes, between two numbers. -/
theorem stringF16_in_sync_between_numbers :
    ∃ b₀ b₁ b₂ b₃ b₄ r,
      writeAll [.fuint8 7] (setIsLittleEndian true (new 1 (fun _ => 0))) = .ok () b₀ ∧
      writeStringF16 [1, 2] b₀ = .ok () b₁ ∧
      b₀.position < b₁.position ∧
      writeAll [.int32 5] b₁ = .ok () b₂ ∧
      setPosition b₀.position b₂ = .ok () b₃ ∧
      readStringF16 b₃ = .ok r b₄ ∧
      (r = [1, 2] ∧ b₄.position = b₁.position ↔ [(1 : UInt8), 2].length < 2 ^ 16) :=
  stringF16_in_sync_iff (by decide) (fun _ => 0) true [.fuint8 7] (by decide) [.int32 5]

/-- A string of `2 ^ 16` bytes is stored, and read back as an empty one. -/
theorem stringF16_loses_long_string :
    ∃ b₁ b₂ b₃,
      writeStringF16 (List.replicate (2 ^ 16) 1) (new 4096 (fun _ => 0)) = .ok () b₁ ∧
      setPosition 0 b₁ = .ok () b₂ ∧
      readStringF16 b₂ = .ok [] b₃ ∧
      b₁.position = 2 + 2 ^ 16 ∧
      b₃.position = 2 := by
  have hnew : Appending (new 4096 (fun _ => 0)) [] := appending_new (by decide) _
  have hs : List.replicate (2 ^ 16) (1 : UInt8) ≠ [] := by
    apply List.ne_nil_of_length_pos
    rw [List.length_replicate]
    exact Nat.two_pow_pos 16
  obtain ⟨b₁, b₂, b₃, b₄, hwrite, hafter, hset, hread, hnext, hend⟩ := hnew.stringF16 hs []
  obtain rfl : b₁ = b₂ := (EStateM.Result.ok.inj hafter).2
  rw [List.length_replicate] at hread hnext hend
  rw [Nat.mod_self] at hread hend
  exact ⟨b₁, b₃, b₄, hwrite, hset, hread, hnext, hend⟩

end ByteArray
end Civan
