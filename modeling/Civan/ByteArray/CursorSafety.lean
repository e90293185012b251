import Civan.ByteArray.Typed
import Civan.Lib.Transition

/-!
# ByteArray: when a call dereferences a null node

`read` and `setPosition` set `m_cur` to null when `m_position` reaches
`m_capacity`.  A later call that must grow the list, or that reads zero bytes,
goes through that null pointer.  The positional overloads can also walk off the
list, because one starts at `m_cur` and the other trusts a wrapped length.

`CallSafe` says, in terms of the state before the call, which calls do none of
this and end normally or with `out_of_range`.  The main result is exact: a run
is free of such faults if and only if every call in it was safe when it was made.
-/

namespace Civan
namespace ByteArray

open Transition Bytes MachineInt

/-- The typed write functions with their arguments. -/
inductive TypedWrite where
  | fint8 (v : BitVec 8)
  | fuint8 (v : BitVec 8)
  | fint16 (v : BitVec 16)
  | fuint16 (v : BitVec 16)
  | fint32 (v : BitVec 32)
  | fuint32 (v : BitVec 32)
  | fint64 (v : BitVec 64)
  | fuint64 (v : BitVec 64)
  | int32 (v : BitVec 32)
  | uint32 (v : BitVec 32)
  | int64 (v : BitVec 64)
  | uint64 (v : BitVec 64)
  | float (v : BitVec 32)
  | double (v : BitVec 64)
  | stringF16 (s : List UInt8)
  | stringF32 (s : List UInt8)
  | stringF64 (s : List UInt8)
  | stringVint (s : List UInt8)

def TypedWrite.perform : TypedWrite → Op Unit
  | .fint8 v => writeFint8 v
  | .fuint8 v => writeFuint8 v
  | .fint16 v => writeFint16 v
  | .fuint16 v => writeFuint16 v
  | .fint32 v => writeFint32 v
  | .fuint32 v => writeFuint32 v
  | .fint64 v => writeFint64 v
  | .fuint64 v => writeFuint64 v
  | .int32 v => writeInt32 v
  | .uint32 v => writeUint32 v
  | .int64 v => writeInt64 v
  | .uint64 v => writeUint64 v
  | .float v => writeFloat v
  | .double v => writeDouble v
  | .stringF16 s => writeStringF16 s
  | .stringF32 s => writeStringF32 s
  | .stringF64 s => writeStringF64 s
  | .stringVint s => writeStringVint s

/-- The typed read functions of numbers. -/
inductive NumberRead where
  | fint8
  | fuint8
  | fint16
  | fuint16
  | fint32
  | fuint32
  | fint64
  | fuint64
  | int32
  | uint32
  | int64
  | uint64
  | float
  | double
deriving DecidableEq, Repr

/-- The read functions of strings. -/
inductive StringRead where
  | f16
  | f32
  | f64
  | vint
deriving DecidableEq, Repr

/-- Forget the value a member function returns. -/
def void {α : Type} (x : Op α) : Op Unit := fun b =>
  match x b with
  | .ok _ b' => .ok () b'
  | .error e b' => .error e b'

def NumberRead.perform : NumberRead → Op Unit
  | .fint8 => void readFint8
  | .fuint8 => void readFuint8
  | .fint16 => void readFint16
  | .fuint16 => void readFuint16
  | .fint32 => void readFint32
  | .fuint32 => void readFuint32
  | .fint64 => void readFint64
  | .fuint64 => void readFuint64
  | .int32 => void readInt32
  | .uint32 => void readUint32
  | .int64 => void readInt64
  | .uint64 => void readUint64
  | .float => void readFloat
  | .double => void readDouble

def StringRead.perform : StringRead → Op (List UInt8)
  | .f16 => readStringF16
  | .f32 => readStringF32
  | .f64 => readStringF64
  | .vint => readStringVint

/-- The public calls. -/
inductive Call where
  | write (buf : List UInt8)
  | typedWrite (w : TypedWrite)
  | writeStringWithoutLength (s : List UInt8)
  | read (n : ℕ)
  | readAt (n position : ℕ)
  | numberRead (t : NumberRead)
  | stringRead (t : StringRead)
  | setPosition (v : ℕ)
  | setIsLittleEndian (val : Bool)
  | clear
  | toString
  | getReadBuffers (len : ℕ)
  | getReadBuffersAt (len position : ℕ)
  | getWriteBuffers (len : ℕ)

def Call.perform : Call → Op Unit
  | .write buf => ByteArray.write buf
  | .typedWrite w => w.perform
  | .writeStringWithoutLength s => ByteArray.writeStringWithoutLength s
  | .read n => void (ByteArray.read n)
  | .readAt n position => void (ByteArray.readAt n position)
  | .numberRead t => t.perform
  | .stringRead t => void t.perform
  | .setPosition v => ByteArray.setPosition v
  | .setIsLittleEndian val => modify (ByteArray.setIsLittleEndian val)
  | .clear => ByteArray.clear
  | .toString => void ByteArray.toString
  | .getReadBuffers len => void (ByteArray.getReadBuffers len)
  | .getReadBuffersAt len position => void (ByteArray.getReadBuffersAt len position)
  | .getWriteBuffers len => void (ByteArray.getWriteBuffers len)

/-- Runs of public calls.  A call completes, throws `out_of_range` (its text is
the output), or ends the run. -/
def callSystem : System ByteArray Call (Option String) where
  step b c :=
    match c.perform b with
    | .ok _ b' => some (none, b')
    | .error (.outOfRange what) b' => some (some what, b')
    | .error _ _ => none

/-- The bytes from the cursor to the end of the node list. -/
def ahead (b : ByteArray) : List UInt8 :=
  (flat b.chain).drop (b.position % b.baseSize)

/-- The length stored in the next `k` bytes, with `k`, if they can be read. -/
def fixedPrefix (k : ℕ) (b : ByteArray) : Option (ℕ × ℕ) :=
  if k ≤ b.getReadSize then
    some ((fixedValue b.endian k (b.ahead.take k)).toNat, k)
  else
    none

/-- A variable-length number at the start of `l`, with the bytes it takes. -/
def varintValue : List ℕ → BitVec 32 → List UInt8 → Option (BitVec 32 × ℕ)
  | [], v, _ => some (v, 0)
  | _ :: _, _, [] => none
  | i :: is, v, x :: l =>
    let b := BitVec.ofNat 8 x.toNat
    if b < 0x80 then
      some (orGroup v b i, 1)
    else
      match varintValue is (orGroup v (b &&& 0x7f) i) l with
      | none => none
      | some (v', k) => some (v', k + 1)

/-- The variable-length prefix in front of the cursor. -/
def vintPrefix (b : ByteArray) : Option (ℕ × ℕ) :=
  match varintValue shifts64 0 (b.ahead.take b.getReadSize) with
  | none => none
  | some (v, k) => some ((v.setWidth 64).toNat, k)

/-- The length prefix a string read finds, and how many bytes it takes. -/
def lengthPrefix (b : ByteArray) : StringRead → Option (ℕ × ℕ)
  | .f16 => fixedPrefix 2 b
  | .f32 => fixedPrefix 4 b
  | .f64 => fixedPrefix 8 b
  | .vint => vintPrefix b

/-- A stored length that a string read can act on: not beyond what a string can
hold, and not zero at the very end of the node list. -/
def PrefixSafe (b : ByteArray) (p : ℕ × ℕ) : Prop :=
  p.1 ≤ stringMaxSize ∧ (p.1 = 0 → b.ahead.length ≠ p.2)

/-- The calls that stay on the node list, judged by the state before them. -/
def CallSafe (b : ByteArray) : Call → Prop
  | .write buf => buf = [] ∨ b.cur ≠ none
  | .typedWrite _ => b.cur ≠ none
  | .writeStringWithoutLength s => s = [] ∨ b.cur ≠ none
  | .read n => 0 < n ∨ b.cur ≠ none
  | .readAt n position =>
    sizeSub b.size position < n ∨
      (b.cur ≠ none ∧ position % b.baseSize + n ≤ b.chain.length * b.baseSize)
  | .numberRead _ => True
  | .stringRead t => ∀ p, lengthPrefix b t = some p → PrefixSafe b p
  | .setPosition _ => True
  | .setIsLittleEndian _ => True
  | .clear => True
  | .toString => True
  | .getReadBuffers _ => True
  | .getReadBuffersAt len position =>
    min (sizeSub b.size position) len = 0 ∨
      position + min (sizeSub b.size position) len ≤ b.capacity
  | .getWriteBuffers len => len = 0 ∨ b.cur ≠ none

section Outcomes

variable {α β : Type}

/-- The outcome completes or throws `out_of_range` in a well-formed state if `P`
holds, and is a fault otherwise. -/
def Settles (P : Prop) : EStateM.Result Fault ByteArray α → Prop
  | .ok _ b => P ∧ Wf b
  | .error (.outOfRange _) b => P ∧ Wf b
  | .error .lengthError _ => ¬ P
  | .error .nullDeref _ => ¬ P

theorem Settles.congr {P Q : Prop} {r : EStateM.Result Fault ByteArray α} (h : Settles P r)
    (hPQ : P ↔ Q) :
    Settles Q r := by
  rw [← propext hPQ]
  exact h

theorem settles_void {P : Prop} {x : Op α} {b : ByteArray} :
    Settles P (void x b) ↔ Settles P (x b) := by
  unfold void
  cases x b with
  | ok a b' => rfl
  | error e b' =>
    cases e <;> rfl

theorem bind_of_ok {x : Op α} {f : α → Op β} {b b' : ByteArray} {a : α} (h : x b = .ok a b') :
    (x >>= f) b = f a b' := by
  change EStateM.bind x f b = f a b'
  simp only [EStateM.bind, h]

theorem bind_of_error {x : Op α} {f : α → Op β} {b b' : ByteArray} {e : Fault}
    (h : x b = .error e b') :
    (x >>= f) b = .error e b' := by
  change EStateM.bind x f b = .error e b'
  simp only [EStateM.bind, h]

theorem settles_bind_pure {P : Prop} {x : Op α} {f : α → β} {b : ByteArray} :
    Settles P ((x >>= fun a => (pure (f a) : Op β)) b) ↔ Settles P (x b) := by
  cases h : x b with
  | ok a b' =>
    rw [bind_of_ok h]
    rfl
  | error e b' =>
    rw [bind_of_error h]
    cases e <;> rfl

end Outcomes

section Writes

variable {b : ByteArray}

theorem write_keeps_cursor (h : Wf b) (hcur : b.cur ≠ none) (buf : List UInt8) :
    ∃ b', write buf b = .ok () b' ∧ Wf b' ∧ b'.cur ≠ none := by
  by_cases hbuf : buf = []
  · subst hbuf
    exact ⟨b, write_nil b, h, hcur⟩
  · obtain ⟨b₁, b', j, _, _, hwrite, hwritten⟩ := write_ok h hbuf hcur
    refine ⟨b', hwrite, hwritten.wf, ?_⟩
    rw [hwritten.cur_eq]
    simp

theorem settles_write (h : Wf b) (buf : List UInt8) :
    Settles (buf = [] ∨ b.cur ≠ none) (write buf b) := by
  by_cases hbuf : buf = []
  · subst hbuf
    simp [write_nil, Settles, h]
  · by_cases hcur : b.cur = none
    · rw [write_null h hbuf hcur]
      simp [Settles, hbuf, hcur]
    · obtain ⟨b', hwrite, hwf, _⟩ := write_keeps_cursor h hcur buf
      rw [hwrite]
      simp [Settles, hwf, hcur]

theorem settles_write_of_ne_nil (h : Wf b) {buf : List UInt8} (hbuf : buf ≠ []) :
    Settles (b.cur ≠ none) (write buf b) :=
  (settles_write h buf).congr (or_iff_right hbuf)

theorem settles_lengthString (h : Wf b)
    {x : Op Unit} {buf : List UInt8} (hx : x b = write buf b) (hbuf : buf ≠ []) (s : List UInt8) :
    Settles (b.cur ≠ none) ((x >>= fun _ => write s) b) := by
  by_cases hcur : b.cur = none
  · rw [bind_of_error (hx.trans (write_null h hbuf hcur))]
    simp [Settles, hcur]
  · obtain ⟨b₁, hwrite, hwf, hcur₁⟩ := write_keeps_cursor h hcur buf
    rw [bind_of_ok (hx.trans hwrite)]
    apply (settles_write hwf s).congr
    simp [hcur, hcur₁]

theorem leBytes_succ_ne_nil (k v : ℕ) : leBytes (k + 1) v ≠ [] := by
  simp [leBytes]

theorem settles_typedWrite (h : Wf b) (w : TypedWrite) :
    Settles (b.cur ≠ none) (w.perform b) := by
  have hwrite : ∀ k (v : BitVec (8 * (k + 1))),
      writeFixed (k + 1) v b = write (fixedImage b.endian (k + 1) v) b :=
    fun _ _ => rfl
  have hfixed : ∀ k (v : BitVec (8 * (k + 1))),
      Settles (b.cur ≠ none) (writeFixed (k + 1) v b) :=
    fun k _ => settles_write_of_ne_nil h (leBytes_succ_ne_nil k _)
  cases w with
  | fint8 v => exact settles_write_of_ne_nil h (leBytes_succ_ne_nil 0 _)
  | fuint8 v => exact settles_write_of_ne_nil h (leBytes_succ_ne_nil 0 _)
  | fint16 v => exact hfixed 1 v
  | fuint16 v => exact hfixed 1 v
  | fint32 v => exact hfixed 3 v
  | fuint32 v => exact hfixed 3 v
  | fint64 v => exact hfixed 7 v
  | fuint64 v => exact hfixed 7 v
  | int32 v => exact settles_write_of_ne_nil h (varint_ne_nil _)
  | uint32 v => exact settles_write_of_ne_nil h (varint_ne_nil _)
  | int64 v => exact settles_write_of_ne_nil h (varint_ne_nil _)
  | uint64 v => exact settles_write_of_ne_nil h (varint_ne_nil _)
  | float v => exact hfixed 3 v
  | double v => exact hfixed 7 v
  | stringF16 s => exact settles_lengthString h (hwrite 1 _) (leBytes_succ_ne_nil 1 _) s
  | stringF32 s => exact settles_lengthString h (hwrite 3 _) (leBytes_succ_ne_nil 3 _) s
  | stringF64 s => exact settles_lengthString h (hwrite 7 _) (leBytes_succ_ne_nil 7 _) s
  | stringVint s => exact settles_lengthString h rfl (varint_ne_nil _) s

end Writes

section Reads

variable {b : ByteArray}

theorem Wf.ahead_of_cur (h : Wf b) {i : ℕ} (hcur : b.cur = some i) :
    b.ahead = (flat b.nodes).drop (i * b.baseSize + b.position % b.baseSize) :=
  h.flat_chain_drop hcur _

theorem Wf.length_ahead (h : Wf b) {i : ℕ} (hcur : b.cur = some i) :
    b.ahead.length + b.position % b.baseSize = b.chain.length * b.baseSize := by
  have hlen := (h.sized_chain hcur).length_flat
  have hmod := h.mod_lt b.position
  have hpos : 0 < b.chain.length := List.length_pos_iff.mpr (h.chain_ne hcur)
  have hmul : b.baseSize ≤ b.chain.length * b.baseSize :=
    Nat.le_mul_of_pos_left _ hpos
  rw [ahead, List.length_drop, hlen]
  omega

/-- Everything readable lies ahead of the cursor. -/
theorem Wf.getReadSize_le_ahead (h : Wf b) : b.getReadSize ≤ b.ahead.length := by
  have hread := h.getReadSize_eq
  have hsle := h.size_le
  have hple := h.position_le
  cases hcur : b.cur with
  | none =>
    have := h.size_eq_of_null hcur
    omega
  | some i =>
    have hroom := h.chain_room (m := b.getReadSize) hcur (by omega)
    have hlen := h.length_ahead hcur
    omega

/-- The cursor is null exactly when nothing lies ahead of it. -/
theorem Wf.cur_eq_none_iff (h : Wf b) : b.cur = none ↔ b.ahead = [] := by
  constructor
  · intro hcur
    simp [ahead, chain_of_null hcur]
  · intro hnil
    cases hcur : b.cur with
    | none => rfl
    | some i =>
      have hlen := h.length_ahead hcur
      have hmod := h.mod_lt b.position
      have hpos : 0 < b.chain.length := List.length_pos_iff.mpr (h.chain_ne hcur)
      have hmul : b.baseSize ≤ b.chain.length * b.baseSize :=
        Nat.le_mul_of_pos_left _ hpos
      rw [hnil, List.length_nil] at hlen
      omega

/-- After a read the cursor looks at what followed the bytes read. -/
theorem ahead_afterRead (h : Wf b) {i n : ℕ} (hcur : b.cur = some i) (hn : n ≤ b.getReadSize) :
    (b.afterRead i n).ahead = b.ahead.drop n := by
  have hwf := wf_afterRead h hcur hn
  set r := b.position % b.baseSize with hr
  have hdiv : i * b.baseSize + r + n =
      (i + (r + n) / b.baseSize) * b.baseSize + (r + n) % b.baseSize := by
    have := Nat.div_add_mod' (r + n) b.baseSize
    rw [Nat.add_mul]
    omega
  have hmod : (b.position + n) % b.baseSize = (r + n) % b.baseSize := by rw [hr, Nat.mod_add_mod]
  have hdrop : b.ahead.drop n =
      (flat b.nodes).drop ((i + (r + n) / b.baseSize) * b.baseSize + (r + n) % b.baseSize) := by
    rw [h.ahead_of_cur hcur, List.drop_drop, ← hdiv]
  by_cases hlt : i + (r + n) / b.baseSize < b.nodes.length
  · have hcur' : (b.afterRead i n).cur = some (i + (r + n) / b.baseSize) := by
      simp only [afterRead, ← hr, nodeAt_of_lt hlt]
    rw [hwf.ahead_of_cur hcur', hdrop]
    simp only [afterRead, hmod]
  · have hcur' : (b.afterRead i n).cur = none := by
      simp only [afterRead, ← hr, nodeAt_of_ge (Nat.le_of_not_lt hlt)]
    have hmul := Nat.mul_le_mul_right b.baseSize (Nat.le_of_not_lt hlt)
    rw [hwf.cur_eq_none_iff.mp hcur', hdrop]
    symm
    apply List.drop_of_length_le
    rw [h.length_flat, h.capacity_eq]
    omega

/-- The cursor moved over `k` readable bytes and nothing else changed. -/
structure Consumed (b b' : ByteArray) (k : ℕ) : Prop where
  wf : Wf b'
  ahead_eq : b'.ahead = b.ahead.drop k
  readSize_eq : b'.getReadSize = b.getReadSize - k
  position_eq : b'.position = b.position + k
  endian_eq : b'.endian = b.endian

theorem Consumed.refl (h : Wf b) :
    Consumed b b 0 where
  wf := h
  ahead_eq := List.drop_zero.symm
  readSize_eq := (Nat.sub_zero _).symm
  position_eq := (Nat.add_zero _).symm
  endian_eq := rfl

theorem Consumed.trans {b₁ b₂ : ByteArray} {j k : ℕ}
    (h₁ : Consumed b b₁ j) (h₂ : Consumed b₁ b₂ k) :
    Consumed b b₂ (j + k) where
  wf := h₂.wf
  ahead_eq := by rw [h₂.ahead_eq, h₁.ahead_eq, List.drop_drop]
  readSize_eq := by rw [h₂.readSize_eq, h₁.readSize_eq, Nat.sub_sub]
  position_eq := by rw [h₂.position_eq, h₁.position_eq, Nat.add_assoc]
  endian_eq := h₂.endian_eq.trans h₁.endian_eq

/-- A read through a cursor that is not null, of no byte as well. -/
theorem read_spec_of_cur (h : Wf b) {n : ℕ} (hcur : b.cur ≠ none) (hn : n ≤ b.getReadSize) :
    ∃ b', read n b = .ok (b.ahead.take n) b' ∧ Consumed b b' n := by
  obtain ⟨i, hcur⟩ := Option.ne_none_iff_exists'.mp hcur
  have hwf := wf_afterRead h hcur hn
  have hread := h.getReadSize_eq
  refine ⟨b.afterRead i n, ?_, hwf, ahead_afterRead h hcur hn, ?_, rfl, rfl⟩
  · rw [read_ok h hcur hn, h.ahead_of_cur hcur]
  · rw [hwf.getReadSize_eq, hread]
    simp only [afterRead]
    omega

/-- A read of at least one byte, seen from the cursor. -/
theorem read_spec (h : Wf b) {n : ℕ} (hpos : 0 < n) (hn : n ≤ b.getReadSize) :
    ∃ b', read n b = .ok (b.ahead.take n) b' ∧ Consumed b b' n := by
  have hread := h.getReadSize_eq
  apply read_spec_of_cur h _ hn
  intro hcur
  have := h.size_eq_of_null hcur
  omega

theorem settles_read (h : Wf b) (n : ℕ) : Settles (0 < n ∨ b.cur ≠ none) (read n b) := by
  by_cases hn : n ≤ b.getReadSize
  · cases hcur : b.cur with
    | none =>
      have hread := h.getReadSize_eq
      have := h.size_eq_of_null hcur
      have hzero : n = 0 := by omega
      rw [read_null hcur hn]
      simp [Settles, hzero]
    | some i =>
      rw [read_ok h hcur hn]
      simp [Settles, wf_afterRead h hcur hn]
  · rw [read_throw (by omega)]
    exact ⟨Or.inl (by omega), h⟩

theorem settles_read_pos (h : Wf b) {n : ℕ} (hn : 0 < n) : Settles True (read n b) :=
  (settles_read h n).congr (iff_true_intro (Or.inl hn))

theorem settles_readFixed (h : Wf b) (k : ℕ) : Settles True (readFixed (k + 1) b) := by
  have hsettles := settles_read_pos h (Nat.succ_pos k)
  cases hread : read (k + 1) b with
  | ok l b' =>
    rw [hread] at hsettles
    rw [readFixed, bind_of_ok hread]
    exact hsettles
  | error e b' =>
    rw [hread] at hsettles
    rw [readFixed, bind_of_error hread]
    cases e <;> exact hsettles

theorem readFixed_spec (h : Wf b) {k : ℕ} (hk : k + 1 ≤ b.getReadSize) :
    ∃ b',
      readFixed (k + 1) b = .ok (fixedValue b.endian (k + 1) (b.ahead.take (k + 1))) b' ∧
      Consumed b b' (k + 1) := by
  obtain ⟨b', hread, hcons⟩ := read_spec h (Nat.succ_pos k) hk
  refine ⟨b', ?_, hcons⟩
  rw [readFixed, bind_of_ok hread, ← hcons.endian_eq]
  rfl

theorem readFuint8_spec (h : Wf b) {x : UInt8} {l : List UInt8} (hahead : b.ahead = x :: l)
    (hpos : 0 < b.getReadSize) :
    ∃ b', readFuint8 b = .ok (BitVec.ofNat 8 x.toNat) b' ∧ Consumed b b' 1 := by
  obtain ⟨b', hread, hcons⟩ := read_spec h Nat.one_pos hpos
  refine ⟨b', ?_, hcons⟩
  rw [readFuint8, bind_of_ok hread, hahead]
  simp only [ofLeBytes, List.take_succ_cons, List.take_zero, Nat.mul_zero, Nat.add_zero]
  rfl

/-- One byte at a time, the varint loop follows `varintValue`. -/
theorem readVarint_spec (is : List ℕ) (v : BitVec 32) (h : Wf b) :
    match varintValue is v (b.ahead.take b.getReadSize) with
    | none => ∃ what b', readVarint is v b = .error (.outOfRange what) b' ∧ Wf b'
    | some (v', k) =>
      k ≤ b.getReadSize ∧
      ∃ b', readVarint is v b = .ok v' b' ∧ Consumed b b' k := by
  induction is generalizing v b with
  | nil =>
    simp only [varintValue]
    exact ⟨Nat.zero_le _, b, rfl, Consumed.refl h⟩
  | cons i is ih =>
    by_cases hzero : b.getReadSize = 0
    · rw [hzero, List.take_zero]
      simp only [varintValue]
      refine ⟨"not enough len", b, ?_, h⟩
      have hthrow : readFuint8 b = .error (.outOfRange "not enough len") b := by
        rw [readFuint8, bind_of_error (read_throw (by omega))]
      rw [readVarint, bind_of_error hthrow]
    · have hle := h.getReadSize_le_ahead
      cases hl : b.ahead with
      | nil =>
        rw [hl] at hle
        simp only [List.length_nil] at hle
        omega
      | cons x l =>
        obtain ⟨m, hm⟩ : ∃ m, b.getReadSize = m + 1 :=
          Nat.exists_eq_succ_of_ne_zero hzero
        obtain ⟨b₁, hbyte, hcons⟩ := readFuint8_spec h hl (by omega)
        have hahead₁ : b₁.ahead = l := by
          rw [hcons.ahead_eq, hl, List.drop_succ_cons, List.drop_zero]
        rw [hm, List.take_succ_cons]
        simp only [varintValue]
        rw [readVarint, bind_of_ok hbyte]
        by_cases hlast : BitVec.ofNat 8 x.toNat < 0x80
        · rw [if_pos hlast, if_pos hlast]
          exact ⟨by omega, b₁, rfl, hcons⟩
        · rw [if_neg hlast, if_neg hlast]
          have hih := ih (orGroup v (BitVec.ofNat 8 x.toNat &&& 0x7f) i) hcons.wf
          rw [hahead₁, hcons.readSize_eq, hm, Nat.add_sub_cancel] at hih
          cases hrest :
              varintValue is (orGroup v (BitVec.ofNat 8 x.toNat &&& 0x7f) i) (l.take m) with
          | none =>
            rw [hrest] at hih
            exact hih
          | some p =>
            obtain ⟨v', k⟩ := p
            rw [hrest] at hih
            obtain ⟨hk, b', hrun, hcons'⟩ := hih
            refine ⟨by omega, b', hrun, ?_⟩
            rw [Nat.add_comm k 1]
            exact hcons.trans hcons'

theorem settles_readVarint (is : List ℕ) (v : BitVec 32) (h : Wf b) :
    Settles True (readVarint is v b) := by
  have hspec := readVarint_spec is v h
  cases hval : varintValue is v (b.ahead.take b.getReadSize) with
  | none =>
    rw [hval] at hspec
    obtain ⟨what, b', hrun, hwf⟩ := hspec
    rw [hrun]
    exact ⟨trivial, hwf⟩
  | some p =>
    rw [hval] at hspec
    obtain ⟨_, b', hrun, hcons⟩ := hspec
    rw [hrun]
    exact ⟨trivial, hcons.wf⟩

theorem settles_numberRead (h : Wf b) (t : NumberRead) : Settles True (t.perform b) := by
  have hbyte : Settles True (readFuint8 b) :=
    settles_bind_pure.mpr (settles_read_pos h Nat.one_pos)
  cases t with
  | fint8 => exact settles_void.mpr hbyte
  | fuint8 => exact settles_void.mpr hbyte
  | fint16 => exact settles_void.mpr (settles_readFixed h 1)
  | fuint16 => exact settles_void.mpr (settles_readFixed h 1)
  | fint32 => exact settles_void.mpr (settles_readFixed h 3)
  | fuint32 => exact settles_void.mpr (settles_readFixed h 3)
  | fint64 => exact settles_void.mpr (settles_readFixed h 7)
  | fuint64 => exact settles_void.mpr (settles_readFixed h 7)
  | int32 => exact settles_void.mpr (settles_bind_pure.mpr (settles_readVarint _ _ h))
  | uint32 => exact settles_void.mpr (settles_readVarint _ _ h)
  | int64 =>
    exact settles_void.mpr
      (settles_bind_pure.mpr (settles_bind_pure.mpr (settles_readVarint _ _ h)))
  | uint64 => exact settles_void.mpr (settles_bind_pure.mpr (settles_readVarint _ _ h))
  | float => exact settles_void.mpr (settles_readFixed h 3)
  | double => exact settles_void.mpr (settles_readFixed h 7)

theorem settles_readString {b' : ByteArray} {n k : ℕ} (hk : k ≤ b.ahead.length)
    (hcons : Consumed b b' k) :
    Settles (PrefixSafe b (n, k)) (readString n b') := by
  have hnull : b'.cur = none ↔ b.ahead.length = k := by
    rw [hcons.wf.cur_eq_none_iff, hcons.ahead_eq, List.drop_eq_nil_iff]
    omega
  rw [readString]
  by_cases hbig : stringMaxSize < n
  · rw [if_pos hbig]
    exact fun hsafe => absurd hsafe.1 (Nat.not_le.mpr hbig)
  · rw [if_neg hbig]
    apply (settles_read hcons.wf n).congr
    rw [ne_eq, hnull]
    constructor
    · rintro (hpos | hne)
      · exact ⟨Nat.le_of_not_lt hbig, fun hzero => absurd hzero hpos.ne'⟩
      · exact ⟨Nat.le_of_not_lt hbig, fun _ => hne⟩
    · rintro ⟨_, hne⟩
      by_cases hzero : n = 0
      · exact Or.inr (hne hzero)
      · exact Or.inl (Nat.pos_of_ne_zero hzero)

theorem settles_fixedString (h : Wf b) (k : ℕ) :
    Settles (∀ p, fixedPrefix (k + 1) b = some p → PrefixSafe b p)
      ((readFixed (k + 1) >>= fun size => readString size.toNat) b) := by
  by_cases hk : k + 1 ≤ b.getReadSize
  · obtain ⟨b', hread, hcons⟩ := readFixed_spec h hk
    have hle := Nat.le_trans hk h.getReadSize_le_ahead
    rw [bind_of_ok hread, fixedPrefix, if_pos hk]
    apply (settles_readString hle hcons).congr
    simp
  · have hthrow : readFixed (k + 1) b = .error (.outOfRange "not enough len") b := by
      rw [readFixed, bind_of_error (read_throw (by omega))]
    rw [bind_of_error hthrow, fixedPrefix, if_neg hk]
    simp [Settles, h]

theorem settles_vintString (h : Wf b) :
    Settles (∀ p, vintPrefix b = some p → PrefixSafe b p) (readStringVint b) := by
  have hspec := readVarint_spec shifts64 0 h
  rw [readStringVint, vintPrefix]
  cases hval : varintValue shifts64 0 (b.ahead.take b.getReadSize) with
  | none =>
    rw [hval] at hspec
    obtain ⟨what, b', hrun, hwf⟩ := hspec
    have hread : readUint64 b = .error (.outOfRange what) b' := by
      rw [readUint64, bind_of_error hrun]
    rw [bind_of_error hread]
    simp [Settles, hwf]
  | some p =>
    obtain ⟨v, k⟩ := p
    rw [hval] at hspec
    obtain ⟨hk, b', hrun, hcons⟩ := hspec
    have hread : readUint64 b = .ok (v.setWidth 64) b' := by
      rw [readUint64, bind_of_ok hrun]
      rfl
    have hle := Nat.le_trans hk h.getReadSize_le_ahead
    rw [bind_of_ok hread]
    apply (settles_readString hle hcons).congr
    simp

theorem settles_stringRead (h : Wf b) (t : StringRead) :
    Settles (∀ p, lengthPrefix b t = some p → PrefixSafe b p) (t.perform b) := by
  cases t with
  | f16 => exact settles_fixedString h 1
  | f32 => exact settles_fixedString h 3
  | f64 => exact settles_fixedString h 7
  | vint => exact settles_vintString h

theorem settles_readAt (h : Wf b) (n position : ℕ) :
    Settles (CallSafe b (.readAt n position)) (readAt n position b) := by
  by_cases hn : sizeSub b.size position < n
  · rw [readAt_throw hn]
    exact ⟨Or.inl hn, h⟩
  · by_cases hroom : b.cur ≠ none ∧ position % b.baseSize + n ≤ b.chain.length * b.baseSize
    · obtain ⟨i, hi⟩ := Option.ne_none_iff_exists'.mp hroom.1
      rw [readAt_ok h hi (by omega) hroom.2]
      exact ⟨Or.inr hroom, h⟩
    · have hbad : b.cur = none ∨
          b.chain.length * b.baseSize < position % b.baseSize + n := by
        by_cases hcur : b.cur = none
        · exact Or.inl hcur
        · exact Or.inr (Nat.lt_of_not_le fun hle => hroom ⟨hcur, hle⟩)
      rw [readAt_fault h (by omega) hbad]
      exact not_or.mpr ⟨hn, hroom⟩

theorem settles_toString (h : Wf b) : Settles True (toString b) := by
  cases hcur : b.cur with
  | none =>
    have hread := h.getReadSize_eq
    have := h.size_eq_of_null hcur
    rw [toString_empty (by omega)]
    exact ⟨trivial, h⟩
  | some i =>
    rw [toString_ok h hcur]
    exact ⟨trivial, h⟩

theorem settles_getReadBuffers (h : Wf b) (len : ℕ) : Settles True (getReadBuffers len b) := by
  cases hcur : b.cur with
  | none =>
    have hread := h.getReadSize_eq
    have := h.size_eq_of_null hcur
    rw [getReadBuffers_empty (by omega)]
    exact ⟨trivial, h⟩
  | some i =>
    obtain ⟨iovs, hbufs, _⟩ := getReadBuffers_ok h hcur
    rw [hbufs]
    exact ⟨trivial, h⟩

theorem settles_getReadBuffersAt (h : Wf b) (len position : ℕ) :
    Settles (CallSafe b (.getReadBuffersAt len position)) (getReadBuffersAt len position b) := by
  by_cases hroom : position + min (sizeSub b.size position) len ≤ b.capacity
  · obtain ⟨iovs, hbufs, _⟩ := getReadBuffersAt_ok h hroom
    rw [hbufs]
    exact ⟨Or.inr hroom, h⟩
  · by_cases hzero : min (sizeSub b.size position) len = 0
    · have hbufs : getReadBuffersAt len position b = .ok (0, []) b := by
        simp only [getReadBuffersAt]
        rw [if_pos hzero]
      rw [hbufs]
      exact ⟨Or.inl hzero, h⟩
    · rw [getReadBuffersAt_fault h (by omega) (by omega)]
      exact not_or.mpr ⟨hzero, hroom⟩

theorem settles_getWriteBuffers (h : Wf b) (len : ℕ) :
    Settles (len = 0 ∨ b.cur ≠ none) (getWriteBuffers len b) := by
  by_cases hlen : len = 0
  · subst hlen
    have hbufs : getWriteBuffers 0 b = .ok (0, []) b := by rw [getWriteBuffers, if_pos rfl]
    rw [hbufs]
    exact ⟨Or.inl rfl, h⟩
  · by_cases hcur : b.cur = none
    · rw [getWriteBuffers_null h (by omega) hcur]
      simp [Settles, hlen, hcur]
    · obtain ⟨b', i, iovs, hgrown, _, hbufs, _⟩ :=
        getWriteBuffers_ok h (Nat.pos_of_ne_zero hlen) hcur
      rw [hbufs]
      exact ⟨Or.inr hcur, hgrown.wf⟩

theorem wf_setIsLittleEndian (h : Wf b) (val : Bool) : Wf (setIsLittleEndian val b) :=
  ⟨h.base_pos, h.sized, h.nodes_ne, h.capacity_eq, h.position_le, h.size_le,
    h.cur_some, h.cur_none⟩

end Reads

/-- In a well-formed state a call ends properly exactly when it is safe. -/
theorem settles_perform {b : ByteArray} (h : Wf b) (c : Call) :
    Settles (CallSafe b c) (c.perform b) := by
  cases c with
  | write buf => exact settles_write h buf
  | typedWrite w => exact settles_typedWrite h w
  | writeStringWithoutLength s => exact settles_write h s
  | read n => exact settles_void.mpr (settles_read h n)
  | readAt n position => exact settles_void.mpr (settles_readAt h n position)
  | numberRead t => exact settles_numberRead h t
  | stringRead t => exact settles_void.mpr (settles_stringRead h t)
  | setPosition v =>
    simp only [Call.perform]
    by_cases hv : v ≤ b.capacity
    · rw [setPosition_ok h hv]
      exact ⟨trivial, wf_afterSetPosition h hv⟩
    · rw [setPosition_throw (by omega)]
      exact ⟨trivial, h⟩
  | setIsLittleEndian val => exact ⟨trivial, wf_setIsLittleEndian h val⟩
  | clear =>
    obtain ⟨b', hclear, hwf, _⟩ := clear_ok h
    simp only [Call.perform]
    rw [hclear]
    exact ⟨trivial, hwf⟩
  | toString => exact settles_void.mpr (settles_toString h)
  | getReadBuffers len => exact settles_void.mpr (settles_getReadBuffers h len)
  | getReadBuffersAt len position =>
    exact settles_void.mpr (settles_getReadBuffersAt h len position)
  | getWriteBuffers len => exact settles_void.mpr (settles_getWriteBuffers h len)

/-- What one step of a run of calls can be. -/
theorem callSystem_step_cases {b : ByteArray} (h : Wf b) (c : Call) :
    (∃ o b', callSystem.step b c = some (o, b') ∧ CallSafe b c ∧ Wf b') ∨
      (callSystem.step b c = none ∧ ¬ CallSafe b c) := by
  have hsettles := settles_perform h c
  simp only [callSystem]
  cases hperf : c.perform b with
  | ok u b' =>
    rw [hperf] at hsettles
    exact Or.inl ⟨none, b', rfl, hsettles⟩
  | error e b' =>
    rw [hperf] at hsettles
    cases e with
    | outOfRange what => exact Or.inl ⟨some what, b', rfl, hsettles⟩
    | lengthError => exact Or.inr ⟨rfl, hsettles⟩
    | nullDeref => exact Or.inr ⟨rfl, hsettles⟩

theorem callSystem_step_wf {b b' : ByteArray} {c : Call} {o : Option String} (h : Wf b)
    (hstep : callSystem.step b c = some (o, b')) :
    Wf b' := by
  rcases callSystem_step_cases h c with ⟨o₁, b₁, hsome, _, hwf⟩ | ⟨hnone, _⟩
  · rw [hstep, Option.some.injEq, Prod.mk.injEq] at hsome
    rw [hsome.2]
    exact hwf
  · simp [hstep] at hnone

theorem callSystem_step_isSome_iff {b : ByteArray} (h : Wf b) (c : Call) :
    (callSystem.step b c).isSome ↔ CallSafe b c := by
  rcases callSystem_step_cases h c with ⟨o, b', hsome, hsafe, _⟩ | ⟨hnone, hunsafe⟩
  · simp [hsome, hsafe]
  · simp [hnone, hunsafe]

/-- A run of public calls on a fresh array completes, each call ending normally
or with `out_of_range`, exactly when every call in it was safe. -/
theorem calls_complete_iff_callSafe (baseSize : ℕ) (uninit : ℕ → UInt8) (hbase : 1 ≤ baseSize)
    (calls : List Call) :
    (callSystem.run (new baseSize uninit) calls).isSome ↔
      callSystem.Along CallSafe (new baseSize uninit) calls :=
  callSystem.run_isSome_iff_along
    (fun _ _ _ _ h hstep => callSystem_step_wf h hstep)
    (fun _ c h => callSystem_step_isSome_iff h c)
    (wf_new hbase uninit) calls

/-- A run that fills, empties and rewinds the array. -/
theorem calls_complete_fill_read_rewind :
    (callSystem.run (new 2 fun _ => 0)
        [.write [1, 2], .setPosition 0, .read 2, .read 1, .setPosition 0,
          .write [3]]).isSome := by
  rw [calls_complete_iff_callSafe 2 (fun _ => 0) (by decide)]
  refine System.Along.cons (Or.inr (by decide)) rfl ?_
  refine System.Along.cons trivial rfl ?_
  refine System.Along.cons (Or.inl (by decide)) rfl ?_
  refine System.Along.cons (Or.inl (by decide)) rfl ?_
  refine System.Along.cons trivial rfl ?_
  exact System.Along.cons (Or.inr (by decide)) rfl trivial

/-- Write one byte into a one-byte node, seek to the end, write again: the
second write follows the null `m_cur`. -/
theorem write_at_capacity_derefs_null :
    ∃ os b b',
      callSystem.run (new 1 fun _ => 0) [.write [1], .setPosition 1] = some (os, b) ∧
      b.cur = none ∧
      (Call.write [2]).perform b = .error .nullDeref b' :=
  ⟨_, _, _, rfl, rfl, rfl⟩

end ByteArray
end Civan
