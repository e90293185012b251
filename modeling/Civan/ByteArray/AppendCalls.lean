import Civan.ByteArray.RoundTrip

/-!
# ByteArray: calls that append

Every write function of the class comes down to `write` on the bytes of its
argument, so an array that only sees write functions holds their images one
after the other, with the position at the end.
-/

namespace Civan
namespace ByteArray

open Bytes Transition

section Model

/-- The bytes a typed write appends. -/
def TypedWrite.image (e : Endian) : TypedWrite → List UInt8
  | .fint8 v => leBytes 1 v.toNat
  | .fuint8 v => leBytes 1 v.toNat
  | .fint16 v => fixedImage e 2 v
  | .fuint16 v => fixedImage e 2 v
  | .fint32 v => fixedImage e 4 v
  | .fuint32 v => fixedImage e 4 v
  | .fint64 v => fixedImage e 8 v
  | .fuint64 v => fixedImage e 8 v
  | .int32 v => varint (encodeZigzag32 v).toNat
  | .uint32 v => varint v.toNat
  | .int64 v => varint (encodeZigzag64 v).toNat
  | .uint64 v => varint v.toNat
  | .float v => fixedImage e 4 v
  | .double v => fixedImage e 8 v
  | .stringF16 s => fixedImage e 2 (BitVec.ofNat 16 s.length) ++ s
  | .stringF32 s => fixedImage e 4 (BitVec.ofNat 32 s.length) ++ s
  | .stringF64 s => fixedImage e 8 (BitVec.ofNat 64 s.length) ++ s
  | .stringVint s => varint (BitVec.ofNat 64 s.length).toNat ++ s

/-- Write the values in order. -/
def writeAll : List TypedWrite → Op Unit
  | [] => return ()
  | w :: ws => do
    w.perform
    writeAll ws

/-- The calls that append, or only choose the byte order. -/
def Call.isAppend : Call → Bool
  | .write _ => true
  | .typedWrite _ => true
  | .writeStringWithoutLength _ => true
  | .setIsLittleEndian _ => true
  | _ => false

end Model

section Writes

variable {b : ByteArray} {data : List UInt8}

/-- A length and then a string, as one append. -/
theorem Appending.lengthString (h : Appending b data)
    {x : Op Unit} {buf : List UInt8} (hx : x b = ByteArray.write buf b) (s : List UInt8) :
    ∃ b', (x >>= fun _ => ByteArray.write s) b = .ok () b' ∧
      Appending b' (data ++ (buf ++ s)) ∧ b'.baseSize = b.baseSize ∧
      b'.endian = b.endian := by
  obtain ⟨b₁, hlen, h₁, hbase₁, hend₁⟩ := h.write buf
  obtain ⟨b', hvalue, h', hbase', hend'⟩ := h₁.write s
  refine ⟨b', ?_, ?_, hbase'.trans hbase₁, hend'.trans hend₁⟩
  · rw [bind_of_ok (hx.trans hlen), hvalue]
  · rw [← List.append_assoc]
    exact h'

theorem Appending.typedWrite (h : Appending b data) (w : TypedWrite) :
    ∃ b', w.perform b = .ok () b' ∧
      Appending b' (data ++ w.image b.endian) ∧ b'.baseSize = b.baseSize ∧
      b'.endian = b.endian := by
  have hnumber : ∀ w : TypedWrite, w.perform b = ByteArray.write (w.image b.endian) b →
      ∃ b', w.perform b = .ok () b' ∧
        Appending b' (data ++ w.image b.endian) ∧ b'.baseSize = b.baseSize ∧
        b'.endian = b.endian := by
    intro w hw
    obtain ⟨b', hok, happ⟩ := h.write (w.image b.endian)
    exact ⟨b', hw.trans hok, happ⟩
  have hfixed : ∀ k (v : BitVec (8 * k)),
      writeFixed k v b = ByteArray.write (fixedImage b.endian k v) b :=
    fun _ _ => rfl
  cases w with
  | fint8 v => exact hnumber _ rfl
  | fuint8 v => exact hnumber _ rfl
  | fint16 v => exact hnumber _ rfl
  | fuint16 v => exact hnumber _ rfl
  | fint32 v => exact hnumber _ rfl
  | fuint32 v => exact hnumber _ rfl
  | fint64 v => exact hnumber _ rfl
  | fuint64 v => exact hnumber _ rfl
  | int32 v => exact hnumber _ rfl
  | uint32 v => exact hnumber _ rfl
  | int64 v => exact hnumber _ rfl
  | uint64 v => exact hnumber _ rfl
  | float v => exact hnumber _ rfl
  | double v => exact hnumber _ rfl
  | stringF16 s => exact h.lengthString (hfixed 2 _) s
  | stringF32 s => exact h.lengthString (hfixed 4 _) s
  | stringF64 s => exact h.lengthString (hfixed 8 _) s
  | stringVint s => exact h.lengthString rfl s

theorem Appending.writeAll (h : Appending b data) (ws : List TypedWrite) :
    ∃ b', ByteArray.writeAll ws b = .ok () b' ∧
      Appending b' (data ++ ws.flatMap (TypedWrite.image b.endian)) ∧
      b'.endian = b.endian := by
  induction ws generalizing b data with
  | nil =>
    refine ⟨b, rfl, ?_, rfl⟩
    rw [List.flatMap_nil, List.append_nil]
    exact h
  | cons w ws ih =>
    obtain ⟨b₁, hfirst, h₁, _, hend₁⟩ := h.typedWrite w
    obtain ⟨b', hrest, h', hend'⟩ := ih h₁
    refine ⟨b', ?_, ?_, hend'.trans hend₁⟩
    · rw [ByteArray.writeAll, bind_of_ok hfirst]
      exact hrest
    · rw [hend₁, List.append_assoc] at h'
      rw [List.flatMap_cons]
      exact h'

theorem Appending.setIsLittleEndian (h : Appending b data) (val : Bool) :
    Appending (ByteArray.setIsLittleEndian val b) data where
  represents :=
    { wf := wf_setIsLittleEndian h.represents.wf val
      pos_eq := h.represents.pos_eq
      data_eq := h.represents.data_eq
      cursor := h.represents.cursor }
  inPlace := h.inPlace
  cur_ne := h.cur_ne
  tight := h.tight

theorem Appending.call (h : Appending b data) {c : Call} (hc : c.isAppend = true) :
    ∃ b' data', c.perform b = .ok () b' ∧ Appending b' data' ∧ b'.baseSize = b.baseSize := by
  cases c with
  | write buf =>
    obtain ⟨b', hok, happ, hbase, _⟩ := h.write buf
    exact ⟨b', _, hok, happ, hbase⟩
  | typedWrite w =>
    obtain ⟨b', hok, happ, hbase, _⟩ := h.typedWrite w
    exact ⟨b', _, hok, happ, hbase⟩
  | writeStringWithoutLength s =>
    obtain ⟨b', hok, happ, hbase, _⟩ := h.write s
    exact ⟨b', _, hok, happ, hbase⟩
  | setIsLittleEndian val => exact ⟨_, data, rfl, h.setIsLittleEndian val, rfl⟩
  | _ => cases hc

theorem Appending.run (h : Appending b data)
    {calls : List Call} (hcalls : ∀ c ∈ calls, c.isAppend = true) :
    ∃ os b' data', callSystem.run b calls = some (os, b') ∧ Appending b' data' ∧
      b'.baseSize = b.baseSize := by
  induction calls generalizing b data with
  | nil => exact ⟨[], b, data, rfl, h, rfl⟩
  | cons c calls ih =>
    obtain ⟨b₁, data₁, hcall, h₁, hbase₁⟩ := h.call (hcalls c List.mem_cons_self)
    obtain ⟨os, b', data', hrun, h', hbase'⟩ :=
      ih h₁ fun d hd => hcalls d (List.mem_cons_of_mem _ hd)
    have hstep : callSystem.step b c = some (none, b₁) := by simp only [callSystem, hcall]
    refine ⟨none :: os, b', data', ?_, h', hbase'.trans hbase₁⟩
    exact callSystem.run_cons_eq_some.mpr ⟨none, b₁, os, hstep, hrun, rfl⟩

end Writes

end ByteArray
end Civan
