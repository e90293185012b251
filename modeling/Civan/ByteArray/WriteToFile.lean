import Mathlib.Tactic
import Civan.ByteArray.Append

/-!
# ByteArray: writing to a file

`writeToFile` hands the rest of the array to a stream, one node at a time.  The
loop takes the offset in the node off every chunk, also when the chunk ends
before the node does, so it is right only from the start of a node.  That is how
the logger calls it: after `setPosition(0)`.
-/

namespace Civan
namespace ByteArray

open MachineInt

/--
The loop of `writeToFile`: the bytes it hands to the stream.  `none` when it walks
off the list, or asks for bytes in front of a node or for a negative number of
them.  The `int64_t` values are exact, since no array has `2 ^ 63` bytes.
-/
def writeNodes (baseSize : ℕ) : List Node → ℕ → ℕ → Option (List UInt8)
  | [], _, readSize => if readSize = 0 then some [] else none
  | n :: rest, pos, readSize =>
    if readSize = 0 then
      some []
    else
      let diff := toInt32 (pos % baseSize)
      let len := ((if readSize > baseSize then baseSize else readSize : ℕ) : ℤ) - diff
      if diff < 0 ∨ len < 0 then
        none
      else
        match writeNodes baseSize rest (pos + len.toNat) (readSize - len.toNat) with
        | none => none
        | some bytes => some (n.load diff.toNat len.toNat ++ bytes)

/-- `writeToFile(ofs) const`: the bytes that reach the stream. -/
def writeToFile (b : ByteArray) : Option (List UInt8) :=
  writeNodes b.baseSize b.chain b.position b.getReadSize

theorem writeNodes_eq_take {baseSize : ℕ} {ns : List Node} (hsized : Sized baseSize ns)
    {pos readSize : ℕ} (hpos : pos % baseSize = 0) (hread : readSize ≤ (flat ns).length) :
    writeNodes baseSize ns pos readSize = some ((flat ns).take readSize) := by
  induction ns generalizing pos readSize with
  | nil =>
    have hzero : readSize = 0 := Nat.le_zero.mp hread
    simp [writeNodes, hzero]
  | cons n rest ih =>
    have hptr : n.ptr.length = baseSize := n.length_ptr.trans hsized.head
    rw [writeNodes]
    by_cases hzero : readSize = 0
    · simp [hzero]
    · have hdiff : toInt32 (pos % baseSize) = 0 := by
        rw [hpos]
        rfl
      rw [flat_cons, List.length_append, hptr] at hread
      simp only [if_neg hzero, hdiff, Int.sub_zero, Int.toNat_natCast, Int.toNat_zero,
        Int.natCast_nonneg, Int.lt_irrefl, false_or, not_lt.mpr, if_false]
      by_cases hlong : readSize > baseSize
      · -- a whole node
        rw [if_pos hlong, ih hsized.tail (by rw [Nat.add_mod_right, hpos]) (by omega)]
        have hnode : n.ptr.take baseSize = n.ptr := List.take_of_length_le hptr.le
        have hall : n.ptr.take readSize = n.ptr := List.take_of_length_le (by omega)
        simp only [Node.load, List.drop_zero, flat_cons, Option.some.injEq]
        rw [hnode, List.take_append, hall, hptr]
      · -- the last chunk
        rw [if_neg hlong, Nat.sub_self]
        have hrest : writeNodes baseSize rest (pos + readSize) 0 = some [] := by
          cases rest <;> rfl
        rw [hrest]
        simp only [Node.load, List.drop_zero, flat_cons, List.append_nil, Option.some.injEq]
        rw [List.take_append_of_le_length (by omega)]

theorem Positioned.writeToFile {b : ByteArray} {data : List UInt8} (h : Positioned b data 0) :
    writeToFile b = some data := by
  have hwf := h.represents.wf
  have hpos : b.position = 0 := h.represents.pos_eq.symm
  have hcur : b.cur = some 0 := by
    have hplace := h.inPlace (by rw [hpos]; exact hwf.capacity_pos)
    rw [hplace, hpos, Nat.zero_div]
  have hread : b.getReadSize = b.size := by rw [hwf.getReadSize_eq, hpos, Nat.sub_zero]
  rw [ByteArray.writeToFile, chain_of_cur hcur, List.drop_zero, hpos, hread,
    writeNodes_eq_take hwf.sized (Nat.zero_mod _) (by rw [hwf.length_flat]; exact hwf.size_le),
    ← h.represents.data_eq]

end ByteArray
end Civan
