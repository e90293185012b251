import Civan.ByteArray.CursorSafety
import Civan.ByteArray.FileRoundTrip

/-!
# ByteArray: the counters over whole runs

A run may contain calls that throw: `out_of_range`, the `length_error` of a string read
whose stored length no string can have, and the `bad_alloc` of a call that gets only some
of the nodes it asks for.  In every state that such runs reach, as long as no null node
is dereferenced, the counters and the node list fit together, so that the unsigned
differences do not wrap and the loops that start at `m_cur` stay on the list.
-/

namespace Civan
namespace ByteArray

open Transition Bytes

section Model

/-- `addCapacity(size)` when the allocation of node number `count` throws `bad_alloc`:
the nodes before it are in the list, and `m_cur` has not moved.  `none` if the call
allocates no such node, or reads through a null `m_cur` first. -/
def addCapacityFails (size count : ℕ) (b : ByteArray) : Option ByteArray :=
  let oldCap := b.getCapacity
  if size ≠ 0 ∧ oldCap < size ∧ count < (size - oldCap + b.baseSize - 1) / b.baseSize then
    match b.chain with
    | [] => none
    | _ :: _ =>
      some
        { b with
          nodes := b.nodes ++ b.newNodes count
          capacity := b.capacity + count * b.baseSize }
  else
    none

/-- All public calls.  A call that writes in several parts and runs out of memory in one
of them is the calls for the parts before it and `badAlloc`. -/
inductive PublicCall where
  | call (c : Call)
  | toHexString
  | writeToFile
  | readFromFile (file : Option (List UInt8))
  | badAlloc (size count : ℕ)

/-- The state in which a call leaves the array, whether it returns or throws. -/
def stateAfter {α : Type} : EStateM.Result Fault ByteArray α → Option ByteArray
  | .ok _ b => some b
  | .error .nullDeref _ => none
  | .error _ b => some b

def PublicCall.perform : PublicCall → ByteArray → Option ByteArray
  | .call c, b => stateAfter (c.perform b)
  | .toHexString, b => stateAfter (ByteArray.toString b)
  | .writeToFile, b => b.writeToFile.map fun _ => b
  | .readFromFile file, b => (ByteArray.readFromFile file b).bind stateAfter
  | .badAlloc size count, b => addCapacityFails size count b

/-- Runs in which no null node is dereferenced. -/
def publicCalls : System ByteArray PublicCall Unit where
  step b c := (c.perform b).map fun b' => ((), b')

end Model

section Throws

variable {α β : Type}

/-- A result that leaves the array well formed, unless a null node was dereferenced. -/
def KeepsWf (r : EStateM.Result Fault ByteArray α) : Prop :=
  ∀ b ∈ stateAfter r, Wf b

/-- A member function that keeps the array well formed, also when it throws. -/
def Preserves (x : Op α) : Prop :=
  ∀ b, Wf b → KeepsWf (x b)

/-- A call that settles keeps the array well formed if its only fault is the null node. -/
theorem keepsWf_of_settles {P : Prop} {r : EStateM.Result Fault ByteArray α} (h : Settles P r)
    (hfault : ¬ P → ∃ b, r = .error .nullDeref b) :
    KeepsWf r := by
  intro b hb
  by_cases hP : P
  · cases r with
    | ok a b' =>
      cases hb
      exact h.2
    | error e b' =>
      cases e with
      | outOfRange what =>
        cases hb
        exact h.2
      | lengthError => exact absurd hP h
      | nullDeref => cases hb
  · obtain ⟨b', rfl⟩ := hfault hP
    cases hb

theorem preserves_pure (a : α) : Preserves (pure a : Op α) := by
  intro b h b' hb'
  cases hb'
  exact h

theorem preserves_lengthError : Preserves (throw .lengthError : Op α) := by
  intro b h b' hb'
  cases hb'
  exact h

theorem preserves_bind {x : Op α} {f : α → Op β} (hx : Preserves x) (hf : ∀ a, Preserves (f a)) :
    Preserves (x >>= f) := by
  intro b h
  cases hr : x b with
  | ok a b' =>
    rw [bind_of_ok hr]
    exact hf a b' (hx b h b' (by rw [hr]; rfl))
  | error e b' =>
    have hwf := hx b h
    rw [hr] at hwf
    rw [bind_of_error hr]
    cases e with
    | outOfRange what => exact hwf
    | lengthError => exact hwf
    | nullDeref => exact hwf

theorem preserves_void {x : Op α} (hx : Preserves x) : Preserves (void x) := by
  intro b h
  have hwf := hx b h
  rw [void]
  cases hr : x b with
  | ok a b' =>
    rw [hr] at hwf
    exact hwf
  | error e b' =>
    rw [hr] at hwf
    cases e with
    | outOfRange what => exact hwf
    | lengthError => exact hwf
    | nullDeref => exact hwf

theorem preserves_write (buf : List UInt8) : Preserves (write buf) := by
  intro b h
  refine keepsWf_of_settles (settles_write h buf) ?_
  intro hunsafe
  obtain ⟨hbuf, hcur⟩ := not_or.mp hunsafe
  exact ⟨b, write_null h hbuf (not_not.mp hcur)⟩

theorem preserves_read (n : ℕ) : Preserves (read n) := by
  intro b h
  refine keepsWf_of_settles (settles_read h n) ?_
  intro hunsafe
  obtain ⟨hn, hcur⟩ := not_or.mp hunsafe
  exact ⟨b, read_null (not_not.mp hcur) (by omega)⟩

theorem preserves_readVarint (is : List ℕ) (v : BitVec 32) : Preserves (readVarint is v) := by
  intro b h
  exact keepsWf_of_settles (settles_readVarint is v h) (fun hfalse => absurd trivial hfalse)

theorem preserves_get : Preserves (get : Op ByteArray) := by
  intro b h b' hb'
  cases hb'
  exact h

theorem preserves_readFixed (k : ℕ) : Preserves (readFixed k) :=
  preserves_bind (preserves_read k) fun _ =>
    preserves_bind preserves_get fun _ => preserves_pure _

/-- The throw of a length that no string can have comes after the prefix has been read. -/
theorem preserves_readString (size : ℕ) : Preserves (readString size) := by
  rw [readString]
  split_ifs
  · exact preserves_lengthError
  · exact preserves_read size

theorem preserves_stringRead (t : StringRead) : Preserves t.perform := by
  cases t with
  | f16 => exact preserves_bind (preserves_readFixed 2) fun _ => preserves_readString _
  | f32 => exact preserves_bind (preserves_readFixed 4) fun _ => preserves_readString _
  | f64 => exact preserves_bind (preserves_readFixed 8) fun _ => preserves_readString _
  | vint =>
    exact preserves_bind (preserves_bind (preserves_readVarint _ _) fun _ => preserves_pure _)
      fun _ => preserves_readString _

theorem preserves_writeFixed (k : ℕ) (v : BitVec (8 * k)) : Preserves (writeFixed k v) :=
  preserves_bind preserves_get fun _ => preserves_write _

theorem preserves_typedWrite (w : TypedWrite) : Preserves w.perform := by
  cases w with
  | fint8 v => exact preserves_write (leBytes 1 v.toNat)
  | fuint8 v => exact preserves_write (leBytes 1 v.toNat)
  | fint16 v => exact preserves_writeFixed 2 v
  | fuint16 v => exact preserves_writeFixed 2 v
  | fint32 v => exact preserves_writeFixed 4 v
  | fuint32 v => exact preserves_writeFixed 4 v
  | fint64 v => exact preserves_writeFixed 8 v
  | fuint64 v => exact preserves_writeFixed 8 v
  | int32 v => exact preserves_write _
  | uint32 v => exact preserves_write _
  | int64 v => exact preserves_write _
  | uint64 v => exact preserves_write _
  | float v => exact preserves_writeFixed 4 v
  | double v => exact preserves_writeFixed 8 v
  | stringF16 s => exact preserves_bind (preserves_writeFixed 2 _) fun _ => preserves_write s
  | stringF32 s => exact preserves_bind (preserves_writeFixed 4 _) fun _ => preserves_write s
  | stringF64 s => exact preserves_bind (preserves_writeFixed 8 _) fun _ => preserves_write s
  | stringVint s => exact preserves_bind (preserves_write _) fun _ => preserves_write s

theorem preserves_call (c : Call) : Preserves c.perform := by
  intro b h
  have hsettles := settles_perform h c
  have hsafe : CallSafe b c → KeepsWf (c.perform b) := fun hsafe =>
    keepsWf_of_settles hsettles fun hunsafe => absurd hsafe hunsafe
  cases c with
  | write buf => exact preserves_write buf b h
  | typedWrite w => exact preserves_typedWrite w b h
  | writeStringWithoutLength s => exact preserves_write s b h
  | read n => exact preserves_void (preserves_read n) b h
  | readAt n position =>
    refine preserves_void (x := readAt n position) ?_ b h
    intro b h
    refine keepsWf_of_settles (settles_readAt h n position) ?_
    intro hunsafe
    obtain ⟨hn, hroom⟩ := not_or.mp hunsafe
    refine ⟨b, readAt_fault h (by omega) ?_⟩
    by_cases hcur : b.cur = none
    · exact Or.inl hcur
    · exact Or.inr (Nat.lt_of_not_le fun hle => hroom ⟨hcur, hle⟩)
  | numberRead t => exact hsafe trivial
  | stringRead t => exact preserves_void (preserves_stringRead t) b h
  | setPosition v => exact hsafe trivial
  | setIsLittleEndian val => exact hsafe trivial
  | clear => exact hsafe trivial
  | toString => exact hsafe trivial
  | getReadBuffers len => exact hsafe trivial
  | getReadBuffersAt len position =>
    refine preserves_void (x := getReadBuffersAt len position) ?_ b h
    intro b h
    refine keepsWf_of_settles (settles_getReadBuffersAt h len position) ?_
    intro hunsafe
    obtain ⟨hzero, hroom⟩ := not_or.mp hunsafe
    exact ⟨b, getReadBuffersAt_fault h (by omega) (by omega)⟩
  | getWriteBuffers len =>
    refine preserves_void (x := getWriteBuffers len) ?_ b h
    intro b h
    refine keepsWf_of_settles (settles_getWriteBuffers h len) ?_
    intro hunsafe
    obtain ⟨hlen, hcur⟩ := not_or.mp hunsafe
    exact ⟨b, getWriteBuffers_null h (by omega) (not_not.mp hcur)⟩

end Throws

section Steps

variable {b b' : ByteArray}

/-- The nodes that were allocated before a `bad_alloc` only add to the capacity. -/
theorem wf_addCapacityFails (h : Wf b) {size count : ℕ}
    (hfails : addCapacityFails size count b = some b') :
    Wf b' := by
  rw [addCapacityFails] at hfails
  split_ifs at hfails with hneeds
  cases hcur : b.cur with
  | none =>
    rw [chain_of_null hcur] at hfails
    cases hfails
  | some i =>
    obtain ⟨n, rest, hchain⟩ := List.exists_cons_of_ne_nil (h.chain_ne hcur)
    rw [hchain, Option.some.injEq] at hfails
    have hlen : (b.newNodes count).length = count := by simp [newNodes]
    subst hfails
    exact
      { base_pos := h.base_pos
        sized := h.sized.append (sized_newNodes b count)
        nodes_ne := List.append_ne_nil_of_left_ne_nil h.nodes_ne _
        capacity_eq := by
          simp only [List.length_append, hlen, Nat.add_mul, h.capacity_eq]
        position_le := h.position_le
        size_le := Nat.le_trans h.size_le (Nat.le_add_right _ _)
        cur_some := by
          intro j hj
          have := h.cur_some j hj
          simp only [List.length_append]
          exact ⟨by omega, this.2⟩
        cur_none := by
          intro hnone
          rw [hcur] at hnone
          cases hnone }

theorem wf_readFromFileLoop
    {fuel : ℕ} {file : List UInt8} {r : EStateM.Result Fault ByteArray Bool} (h : Wf b)
    (hloop : readFromFileLoop fuel file b = some r) :
    KeepsWf r := by
  induction fuel generalizing file b with
  | zero => cases hloop
  | succ fuel ih =>
    rw [readFromFileLoop] at hloop
    have hwrite := preserves_write (file.take b.baseSize) b h
    cases hr : write (file.take b.baseSize) b with
    | ok u b₁ =>
      rw [hr] at hloop hwrite
      have hwf : Wf b₁ := hwrite b₁ rfl
      dsimp only at hloop
      split_ifs at hloop
      · cases hloop
        exact hwrite
      · exact ih hwf hloop
    | error e b₁ =>
      rw [hr] at hloop hwrite
      cases hloop
      cases e with
      | outOfRange what => exact hwrite
      | lengthError => exact hwrite
      | nullDeref => exact hwrite

theorem wf_perform (h : Wf b) {c : PublicCall} (hperform : c.perform b = some b') : Wf b' := by
  cases c with
  | call c => exact preserves_call c b h b' hperform
  | toHexString =>
    refine keepsWf_of_settles (settles_toString h) ?_ b' hperform
    exact fun hfalse => absurd trivial hfalse
  | writeToFile =>
    obtain ⟨_, _, rfl⟩ := Option.map_eq_some_iff.mp hperform
    exact h
  | readFromFile file =>
    obtain ⟨r, hr, hb'⟩ := Option.bind_eq_some_iff.mp hperform
    cases file with
    | none =>
      cases hr
      cases hb'
      exact h
    | some bytes => exact wf_readFromFileLoop h hr b' hb'
  | badAlloc size count => exact wf_addCapacityFails h hperform

theorem wf_of_reachable {baseSize : ℕ} {uninit : ℕ → UInt8} (hbase : 1 ≤ baseSize)
    (hb : publicCalls.Reachable (new baseSize uninit) b) :
    Wf b := by
  refine System.Reachable.invariant (I := Wf) ?_ (wf_new hbase uninit) hb
  intro b c o b' h hstep
  obtain ⟨b₁, hperform, heq⟩ := Option.map_eq_some_iff.mp hstep
  cases heq
  exact wf_perform h hperform

end Steps

section Bounds

variable {b : ByteArray}

/-- The counters, the number of nodes and the cursor fit together, and the two unsigned
differences do not wrap. -/
structure Bounded (b : ByteArray) : Prop where
  capacity_eq : b.capacity = b.baseSize * b.nodes.length
  position_le : b.position ≤ b.size
  size_le : b.size ≤ b.capacity
  cur_node : b.cur = none ∨ ∃ i, b.cur = some i ∧ i < b.nodes.length
  getReadSize_add : b.getReadSize + b.position = b.size
  getCapacity_add : b.getCapacity + b.position = b.capacity

/-- From `m_cur` on there are enough nodes for what the loops copy, so that none of them
comes to the end of the list. -/
structure LongEnough (b : ByteArray) : Prop where
  readable : b.position % b.baseSize + b.getReadSize ≤ b.chain.length * b.baseSize
  writable : ∀ n, 0 < n → ∃ b', addCapacity n b = .ok () b' ∧
    b'.position % b'.baseSize + n ≤ b'.chain.length * b'.baseSize
  write : ∀ buf, ∃ b', write buf b = .ok () b'
  read : ∀ n ≤ b.getReadSize, ∃ bytes b', read n b = .ok bytes b'
  getReadBuffers : ∀ len, ∃ iovs, getReadBuffers len b = .ok (min b.getReadSize len, iovs) b
  getWriteBuffers : ∀ len, ∃ iovs b', getWriteBuffers len b = .ok (len, iovs) b'

theorem Wf.bounded (h : Wf b) :
    Bounded b where
  capacity_eq := h.capacity_eq.trans (Nat.mul_comm _ _)
  position_le := h.position_le
  size_le := h.size_le
  cur_node := by
    cases hcur : b.cur with
    | none => exact Or.inl rfl
    | some i => exact Or.inr ⟨i, rfl, (h.cur_some i hcur).1⟩
  getReadSize_add := by
    rw [h.getReadSize_eq]
    exact Nat.sub_add_cancel h.position_le
  getCapacity_add := by
    rw [h.getCapacity_eq]
    exact Nat.sub_add_cancel (Nat.le_trans h.position_le h.size_le)

theorem Wf.longEnough (h : Wf b) (hcur : b.cur ≠ none) : LongEnough b := by
  obtain ⟨i, hi⟩ := Option.ne_none_iff_exists'.mp hcur
  have hread := h.bounded.getReadSize_add
  exact
    { readable := h.chain_room hi (by have := h.size_le; omega)
      writable := by
        intro n hn
        obtain ⟨b', hadd, hgrown⟩ := addCapacity_ok h hn hcur
        refine ⟨b', hadd, ?_⟩
        have hroom := hgrown.room
        rw [← hgrown.position_eq] at hroom
        cases hcur' : b'.cur with
        | none =>
          have := hgrown.wf.cur_none hcur'
          omega
        | some j => exact hgrown.wf.chain_room hcur' hroom
      write := by
        intro buf
        obtain ⟨b', hwrite, _⟩ := write_keeps_cursor h hcur buf
        exact ⟨b', hwrite⟩
      read := by
        intro n hn
        exact ⟨_, _, read_ok h hi hn⟩
      getReadBuffers := by
        intro len
        obtain ⟨iovs, hbuffers, _⟩ := getReadBuffers_ok h hi
        exact ⟨iovs, hbuffers⟩
      getWriteBuffers := by
        intro len
        cases len with
        | zero => exact ⟨[], b, rfl⟩
        | succ len =>
          obtain ⟨b', _, iovs, _, _, hbuffers, _⟩ :=
            getWriteBuffers_ok h (Nat.succ_pos len) hcur
          exact ⟨iovs, b', hbuffers⟩ }

/--
In every state that a run of public calls reaches on an array with nodes of at least one
byte, calls that throw included, the capacity is that of the nodes, the position is at
most the size and the size at most the capacity, and `m_cur` is null or one of the nodes.
The differences that `getReadSize` and `getCapacity` compute do not wrap, and unless
`m_cur` is null the list is long enough for the loops that start there.
-/
theorem publicCalls_bounded {baseSize : ℕ} {uninit : ℕ → UInt8} (hbase : 1 ≤ baseSize)
    (hb : publicCalls.Reachable (new baseSize uninit) b) :
    Bounded b ∧ (b.cur ≠ none → LongEnough b) :=
  ⟨(wf_of_reachable hbase hb).bounded, (wf_of_reachable hbase hb).longEnough⟩

/-- `setPosition` throws, a string read throws `length_error` after its prefix, and a
call that needs three nodes gets one. -/
def throwingRun : List PublicCall :=
  [.call (.typedWrite (.fuint64 (-1))), .call (.setPosition 100), .call (.setPosition 0),
    .call (.stringRead .f64), .badAlloc 20 1]

theorem publicCalls_bounded_throwing :
    ∃ b, publicCalls.Reachable (new 6 fun _ => 0) b ∧
      (b.cur ≠ none ∧ b.position = 8 ∧ b.capacity = 18) ∧
      Bounded b ∧ LongEnough b := by
  obtain ⟨b, hb, hstate⟩ := System.exists_reachableWhen
    (M := publicCalls) (P := fun _ _ => True) (new 6 fun _ => 0) throwingRun
    (fun b => b.cur ≠ none ∧ b.position = 8 ∧ b.capacity = 18) (by decide +kernel)
  have hbounded := publicCalls_bounded (by decide) hb.reachable
  exact ⟨b, hb.reachable, hstate, hbounded.1, hbounded.2 hstate.1⟩

end Bounds

end ByteArray
end Civan
