import Civan.ByteArray.NodeWalk

/-!
# ByteArray: the size invariant

`Wf` relates the counters, the node list and the cursor.  The cursor may lag
behind `m_position` (that is the defect of `write`), but it is never ahead of
it, and it is null only when `m_position` is the capacity.  This is enough for
every loop that starts at `m_cur` to find the bytes it asks for.

Each public operation gets one specification here; nothing above unfolds an
operation again.
-/

namespace Civan
namespace ByteArray

open MachineInt Segment

/-- The size invariant of `ByteArray`. -/
structure Wf (b : ByteArray) : Prop where
  base_pos : 0 < b.baseSize
  sized : Sized b.baseSize b.nodes
  nodes_ne : b.nodes ≠ []
  capacity_eq : b.capacity = b.nodes.length * b.baseSize
  position_le : b.position ≤ b.size
  size_le : b.size ≤ b.capacity
  cur_some : ∀ i, b.cur = some i → i < b.nodes.length ∧ i * b.baseSize ≤ b.position
  cur_none : b.cur = none → b.position = b.capacity

theorem wf_new {baseSize : ℕ} (hbase : 0 < baseSize) (uninit : ℕ → UInt8) :
    Wf (new baseSize uninit) where
  base_pos := hbase
  sized := by
    intro n hn
    rw [List.mem_singleton.mp hn]
    rfl
  nodes_ne := List.cons_ne_nil _ _
  capacity_eq := by simp [new]
  position_le := Nat.le_refl _
  size_le := Nat.zero_le _
  cur_some := by
    intro i hi
    simp only [new, Option.some.injEq] at hi
    subst hi
    simp [new]
  cur_none := by
    intro h
    simp [new] at h

section Cursor

variable {b : ByteArray}

theorem Wf.getReadSize_eq (h : Wf b) : b.getReadSize = b.size - b.position :=
  sizeSub_of_le h.position_le

theorem Wf.getCapacity_eq (h : Wf b) : b.getCapacity = b.capacity - b.position :=
  sizeSub_of_le (Nat.le_trans h.position_le h.size_le)

theorem Wf.length_flat (h : Wf b) : (flat b.nodes).length = b.capacity := by
  rw [h.sized.length_flat, h.capacity_eq]

theorem Wf.capacity_pos (h : Wf b) : 0 < b.capacity := by
  rw [h.capacity_eq]
  exact Nat.mul_pos (List.length_pos_iff.mpr h.nodes_ne) h.base_pos

theorem Wf.mod_lt (h : Wf b) (p : ℕ) : p % b.baseSize < b.baseSize :=
  Nat.mod_lt p h.base_pos

theorem chain_of_cur {i : ℕ} (hcur : b.cur = some i) : b.chain = b.nodes.drop i := by
  simp [chain, hcur]

theorem chain_of_null (hcur : b.cur = none) : b.chain = [] := by
  simp [chain, hcur]

theorem front_of_cur {i : ℕ} (hcur : b.cur = some i) : b.front = b.nodes.take i := by
  simp [front, hcur]

theorem advance_of_cur {i : ℕ} (hcur : b.cur = some i) (k : ℕ) :
    b.advance k = b.nodeAt (i + k) := by
  simp [advance, hcur]

theorem Wf.chain_ne (h : Wf b) {i : ℕ} (hcur : b.cur = some i) : b.chain ≠ [] := by
  have hi := (h.cur_some i hcur).1
  rw [chain_of_cur hcur]
  intro hnil
  have := List.drop_eq_nil_iff.mp hnil
  omega

theorem Wf.length_chain (h : Wf b) {i : ℕ} (hcur : b.cur = some i) :
    b.chain.length * b.baseSize + i * b.baseSize = b.capacity := by
  have hi := (h.cur_some i hcur).1
  rw [chain_of_cur hcur, List.length_drop, h.capacity_eq, ← Nat.add_mul]
  congr 1
  omega

theorem Wf.position_eq (_h : Wf b) :
    b.position / b.baseSize * b.baseSize + b.position % b.baseSize = b.position :=
  Nat.div_add_mod' b.position b.baseSize

/-- A cursor that is not ahead leaves room for everything below the capacity. -/
theorem Wf.chain_room (h : Wf b) {i m : ℕ} (hcur : b.cur = some i)
    (hm : b.position + m ≤ b.capacity) :
    b.position % b.baseSize + m ≤ b.chain.length * b.baseSize := by
  have hi : i ≤ b.position / b.baseSize :=
    (Nat.le_div_iff_mul_le h.base_pos).mpr (h.cur_some i hcur).2
  have hmul : i * b.baseSize ≤ b.position / b.baseSize * b.baseSize :=
    Nat.mul_le_mul_right _ hi
  have hlen := h.length_chain hcur
  have hpos := h.position_eq
  omega

theorem nodeAt_of_lt {k : ℕ} (hk : k < b.nodes.length) : b.nodeAt k = some k := by
  simp [nodeAt, hk]

theorem nodeAt_of_ge {k : ℕ} (hk : b.nodes.length ≤ k) : b.nodeAt k = none := by
  simp [nodeAt]
  omega

/-- A null cursor means that there is nothing left to read. -/
theorem Wf.size_eq_of_null (h : Wf b) (hcur : b.cur = none) :
    b.size = b.position ∧ b.position = b.capacity := by
  have h₁ := h.cur_none hcur
  have h₂ := h.position_le
  have h₃ := h.size_le
  omega

end Cursor

section AddCapacity

variable {b : ByteArray}

/-- What `addCapacity n` may change: nodes are appended, and the cursor moves
only from the end of a full list to the first new node. -/
structure Grown (b b' : ByteArray) (n : ℕ) : Prop where
  wf : Wf b'
  baseSize_eq : b'.baseSize = b.baseSize
  position_eq : b'.position = b.position
  size_eq : b'.size = b.size
  endian_eq : b'.endian = b.endian
  uninit_eq : b'.uninit = b.uninit
  nodes_eq : ∃ ext, b'.nodes = b.nodes ++ ext
  room : b.position + n ≤ b'.capacity
  tight : b'.capacity ≤ max b.capacity (b.position + n + b.baseSize - 1)
  cur_eq : b.position < b.capacity → b'.cur = b.cur
  cur_first : b.position = b.capacity → b'.cur = some (b.position / b.baseSize)

theorem sized_newNodes (b : ByteArray) (count : ℕ) : Sized b.baseSize (b.newNodes count) := by
  intro n hn
  obtain ⟨k, _, rfl⟩ := List.mem_map.mp hn
  rfl

/-- The rounded-up number of nodes covers the missing bytes and no more. -/
theorem ceil_mul_bounds {base m : ℕ} (hbase : 0 < base) :
    m ≤ (m + base - 1) / base * base ∧ (m + base - 1) / base * base ≤ m + base - 1 := by
  have hdiv := Nat.div_add_mod' (m + base - 1) base
  have hmod := Nat.mod_lt (m + base - 1) hbase
  omega

/-- The array after `addCapacity` has appended `count` nodes. -/
def extend (b : ByteArray) (count : ℕ) : ByteArray :=
  { b with
    nodes := b.nodes ++ b.newNodes count
    capacity := b.capacity + count * b.baseSize
    cur := if b.getCapacity = 0 then some b.nodes.length else b.cur }

theorem length_extend (b : ByteArray) (count : ℕ) :
    (b.extend count).nodes.length = b.nodes.length + count := by
  simp [extend, newNodes]

theorem Wf.extend (h : Wf b) {count : ℕ} (hcount : 0 < count) :
    Wf (b.extend count) where
  base_pos := h.base_pos
  sized := h.sized.append (sized_newNodes b count)
  nodes_ne := List.append_ne_nil_of_left_ne_nil h.nodes_ne _
  capacity_eq := by
    rw [length_extend]
    change b.capacity + count * b.baseSize = (b.nodes.length + count) * b.baseSize
    rw [Nat.add_mul, h.capacity_eq]
  position_le := h.position_le
  size_le := Nat.le_trans h.size_le (Nat.le_add_right _ _)
  cur_some := by
    have hcap := h.getCapacity_eq
    have hcapacity := h.capacity_eq
    intro j hj
    rw [length_extend]
    change j < b.nodes.length + count ∧ j * b.baseSize ≤ b.position
    simp only [ByteArray.extend] at hj
    split_ifs at hj with hzero
    · cases hj
      omega
    · have := h.cur_some j hj
      omega
  cur_none := by
    have hcap := h.getCapacity_eq
    intro hnone
    simp only [ByteArray.extend] at hnone
    split_ifs at hnone with hzero
    have := h.cur_none hnone
    omega

theorem Wf.grown_self (h : Wf b) {n : ℕ} (hn : 0 < n) (hroom : n ≤ b.getCapacity) :
    Grown b b n := by
  have hcap := h.getCapacity_eq
  exact
    { wf := h
      baseSize_eq := rfl
      position_eq := rfl
      size_eq := rfl
      endian_eq := rfl
      uninit_eq := rfl
      nodes_eq := ⟨[], by simp⟩
      room := by omega
      tight := by omega
      cur_eq := fun _ => rfl
      cur_first := by intro; omega }

theorem Wf.grown_extend (h : Wf b) {n : ℕ} (hroom : b.getCapacity < n) :
    Grown b (b.extend ((n - b.getCapacity + b.baseSize - 1) / b.baseSize)) n := by
  have hcap := h.getCapacity_eq
  have hple := Nat.le_trans h.position_le h.size_le
  have hbounds := ceil_mul_bounds (m := n - b.getCapacity) h.base_pos
  set count := (n - b.getCapacity + b.baseSize - 1) / b.baseSize
  have hcount : 0 < count := Nat.pos_of_mul_pos_right (by omega : 0 < count * b.baseSize)
  exact
    { wf := h.extend hcount
      baseSize_eq := rfl
      position_eq := rfl
      size_eq := rfl
      endian_eq := rfl
      uninit_eq := rfl
      nodes_eq := ⟨b.newNodes count, rfl⟩
      room := by
        change b.position + n ≤ b.capacity + count * b.baseSize
        omega
      tight := by
        change b.capacity + count * b.baseSize ≤ _
        omega
      cur_eq := by
        intro hlt
        exact if_neg (by omega)
      cur_first := by
        intro hfull
        rw [hfull, h.capacity_eq, Nat.mul_div_cancel _ h.base_pos]
        exact if_pos (by omega) }

theorem addCapacity_ok (h : Wf b) {n : ℕ} (hn : 0 < n) (hcur : b.cur ≠ none) :
    ∃ b', addCapacity n b = .ok () b' ∧ Grown b b' n := by
  obtain ⟨i, hi⟩ := Option.ne_none_iff_exists'.mp hcur
  rw [addCapacity, if_neg hn.ne']
  dsimp only
  by_cases hroom : b.getCapacity ≥ n
  · rw [if_pos hroom]
    exact ⟨b, rfl, h.grown_self hn hroom⟩
  · rw [if_neg hroom]
    cases hchain : b.chain with
    | nil => exact absurd hchain (h.chain_ne hi)
    | cons n₀ rest₀ => exact ⟨_, rfl, h.grown_extend (not_le.mp hroom)⟩

theorem addCapacity_null (h : Wf b) {n : ℕ} (hn : 0 < n) (hcur : b.cur = none) :
    addCapacity n b = .error .nullDeref b := by
  have hnull := h.size_eq_of_null hcur
  have hcap := h.getCapacity_eq
  rw [addCapacity, if_neg (by omega)]
  dsimp only
  rw [if_neg (by omega), chain_of_null hcur]

end AddCapacity

section Write

variable {b : ByteArray} {buf : List UInt8}

/-- What the copy loop of `write` does once there is room, from node `j` on. -/
structure Written (b b' : ByteArray) (j : ℕ) (buf : List UInt8) : Prop where
  wf : Wf b'
  baseSize_eq : b'.baseSize = b.baseSize
  capacity_eq : b'.capacity = b.capacity
  endian_eq : b'.endian = b.endian
  uninit_eq : b'.uninit = b.uninit
  position_eq : b'.position = b.position + buf.length
  size_eq : b'.size = max (b.position + buf.length) b.size
  cur_eq : b'.cur = some (j + (b.position % b.baseSize + buf.length - 1) / b.baseSize)
  flat_eq : flat b'.nodes = splice (flat b.nodes) (j * b.baseSize + b.position % b.baseSize) buf

theorem flat_front_chain {j : ℕ} (hcur : b.cur = some j) :
    flat b.nodes = flat b.front ++ flat b.chain := by
  rw [front_of_cur hcur, chain_of_cur hcur, ← flat_append, List.take_append_drop]

theorem Wf.length_flat_front (h : Wf b) {j : ℕ} (hcur : b.cur = some j) :
    (flat b.front).length = j * b.baseSize := by
  have hj := (h.cur_some j hcur).1
  rw [front_of_cur hcur, (h.sized.take j).length_flat, List.length_take, Nat.min_eq_left hj.le]

/-- The node with the last of `len` bytes exists, and does not begin after them. -/
theorem Wf.last_node (h : Wf b) {j len : ℕ} (hcur : b.cur = some j) (hlen : 0 < len)
    (hroom : b.position + len ≤ b.capacity) :
    j + (b.position % b.baseSize + len - 1) / b.baseSize < b.nodes.length ∧
      (j + (b.position % b.baseSize + len - 1) / b.baseSize) * b.baseSize ≤ b.position + len := by
  have hj := h.cur_some j hcur
  have hchainRoom := h.chain_room hcur hroom
  set k := (b.position % b.baseSize + len - 1) / b.baseSize
  have hkMul : k * b.baseSize ≤ b.position % b.baseSize + len - 1 := Nat.div_mul_le_self _ _
  constructor
  · have hlt : k < b.chain.length := by
      apply Nat.div_lt_of_lt_mul
      rw [Nat.mul_comm]
      omega
    rw [chain_of_cur hcur, List.length_drop] at hlt
    omega
  · have hjq : j * b.baseSize ≤ b.position / b.baseSize * b.baseSize :=
      Nat.mul_le_mul_right _ ((Nat.le_div_iff_mul_le h.base_pos).mpr hj.2)
    have hpos := h.position_eq
    rw [Nat.add_mul]
    omega

theorem fill_written (h : Wf b) {j : ℕ} (hcur : b.cur = some j) (hbuf : 0 < buf.length)
    (hroom : b.position + buf.length ≤ b.capacity) :
    ∃ chain' k,
      fill b.chain (b.position % b.baseSize) buf = some (chain', k) ∧
      Written b
        { b with
          nodes := b.front ++ chain'
          cur := b.advance k
          position := b.position + buf.length
          size := max (b.position + buf.length) b.size }
        j buf := by
  have hj := h.cur_some j hcur
  have hchain : Sized b.baseSize b.chain := by
    rw [chain_of_cur hcur]
    exact h.sized.drop j
  obtain ⟨chain', hfill, hsized, hlength, hflat⟩ :=
    fill_eq_some hchain (h.mod_lt b.position) hbuf (h.chain_room hcur hroom)
  obtain ⟨hkLt, hkMul⟩ := h.last_node hcur hbuf hroom
  have hnodes : (b.front ++ chain').length = b.nodes.length := by
    rw [List.length_append, hlength, front_of_cur hcur, chain_of_cur hcur,
      List.length_take, List.length_drop]
    omega
  have hadvance := (advance_of_cur hcur _).trans (nodeAt_of_lt hkLt)
  refine ⟨chain', _, hfill, ?_⟩
  exact
    { wf :=
        { base_pos := h.base_pos
          sized := by
            dsimp only
            rw [front_of_cur hcur]
            exact (h.sized.take j).append hsized
          nodes_ne := by
            dsimp only
            intro hnil
            rw [hnil] at hnodes
            exact h.nodes_ne (List.length_eq_zero_iff.mp hnodes.symm)
          capacity_eq := by
            dsimp only
            rw [hnodes, h.capacity_eq]
          position_le := Nat.le_max_left _ _
          size_le := Nat.max_le.mpr ⟨hroom, h.size_le⟩
          cur_some := by
            dsimp only
            intro i hi
            rw [hadvance, Option.some.injEq] at hi
            subst hi
            rw [hnodes]
            exact ⟨hkLt, hkMul⟩
          cur_none := by
            dsimp only
            intro hnone
            rw [hadvance] at hnone
            cases hnone }
      baseSize_eq := rfl
      capacity_eq := rfl
      endian_eq := rfl
      uninit_eq := rfl
      position_eq := rfl
      size_eq := rfl
      cur_eq := hadvance
      flat_eq := by
        dsimp only
        rw [flat_append, hflat, flat_front_chain hcur, ← h.length_flat_front hcur,
          splice_append_right] }

theorem write_ok (h : Wf b) (hbuf : buf ≠ []) (hcur : b.cur ≠ none) :
    ∃ b₁ b' j,
      Grown b b₁ buf.length ∧
      b₁.cur = some j ∧
      write buf b = .ok () b' ∧
      Written b₁ b' j buf := by
  have hlen : 0 < buf.length := List.length_pos_iff.mpr hbuf
  obtain ⟨b₁, hadd, hgrown⟩ := addCapacity_ok h hlen hcur
  have hne : b₁.cur ≠ none := by
    intro hnone
    by_cases hfull : b.position = b.capacity
    · rw [hgrown.cur_first hfull] at hnone
      exact absurd hnone (by simp)
    · have := Nat.le_trans h.position_le h.size_le
      rw [hgrown.cur_eq (by omega)] at hnone
      exact hcur hnone
  obtain ⟨j, hj⟩ := Option.ne_none_iff_exists'.mp hne
  have hroom : b₁.position + buf.length ≤ b₁.capacity := by
    rw [hgrown.position_eq]
    exact hgrown.room
  obtain ⟨chain', k, hfill, hwritten⟩ := fill_written hgrown.wf hj hlen hroom
  refine ⟨b₁, _, j, hgrown, hj, ?_, hwritten⟩
  rw [write, if_neg (by omega), hadd]
  dsimp only
  rw [hfill]

theorem write_nil (b : ByteArray) : write [] b = .ok () b := by
  rfl

theorem write_null (h : Wf b) (hbuf : buf ≠ []) (hcur : b.cur = none) :
    write buf b = .error .nullDeref b := by
  have hlen : 0 < buf.length := List.length_pos_iff.mpr hbuf
  rw [write, if_neg (by omega), addCapacity_null h hlen hcur]

end Write

section Read

variable {b : ByteArray}

theorem Wf.sized_chain (h : Wf b) {i : ℕ} (hcur : b.cur = some i) :
    Sized b.baseSize b.chain := by
  rw [chain_of_cur hcur]
  exact h.sized.drop i

/-- The bytes from the cursor on, read from the whole list. -/
theorem Wf.flat_chain_drop (h : Wf b) {i : ℕ} (hcur : b.cur = some i) (r : ℕ) :
    (flat b.chain).drop r = (flat b.nodes).drop (i * b.baseSize + r) := by
  rw [chain_of_cur hcur, h.sized.flat_drop, List.drop_drop]

/-- The state after reading `size` bytes with the cursor on node `i`. -/
def afterRead (b : ByteArray) (i size : ℕ) : ByteArray :=
  { b with
    position := b.position + size
    cur := b.nodeAt (i + (b.position % b.baseSize + size) / b.baseSize) }

theorem read_ok (h : Wf b) {i size : ℕ} (hcur : b.cur = some i) (hsize : size ≤ b.getReadSize) :
    read size b =
      .ok
        (((flat b.nodes).drop (i * b.baseSize + b.position % b.baseSize)).take size)
        (b.afterRead i size) := by
  have hread := h.getReadSize_eq
  have hple := h.position_le
  have hsle := h.size_le
  have hroom := h.chain_room (m := size) hcur (by omega)
  have hcopy :=
    copyOut_eq_some (h.sized_chain hcur) (h.chain_ne hcur) (h.mod_lt b.position) hroom
  rw [read, if_neg (by omega), hcopy]
  dsimp only
  rw [h.flat_chain_drop hcur, advance_of_cur hcur]
  rfl

theorem wf_afterRead (h : Wf b) {i size : ℕ} (hcur : b.cur = some i)
    (hsize : size ≤ b.getReadSize) :
    Wf (b.afterRead i size) := by
  have hread := h.getReadSize_eq
  have hple := h.position_le
  have hsle := h.size_le
  have hi := h.cur_some i hcur
  set k := (b.position % b.baseSize + size) / b.baseSize with hk
  have hkMul : k * b.baseSize ≤ b.position % b.baseSize + size :=
    Nat.div_mul_le_self _ _
  have hiMul : (i + k) * b.baseSize ≤ b.position + size := by
    have hiq : i * b.baseSize ≤ b.position / b.baseSize * b.baseSize :=
      Nat.mul_le_mul_right _ ((Nat.le_div_iff_mul_le h.base_pos).mpr hi.2)
    have hpos := h.position_eq
    rw [Nat.add_mul]
    omega
  exact
    { base_pos := h.base_pos
      sized := h.sized
      nodes_ne := h.nodes_ne
      capacity_eq := h.capacity_eq
      position_le := by
        dsimp only [afterRead]
        omega
      size_le := h.size_le
      cur_some := by
        intro j hj
        by_cases hlt : i + k < b.nodes.length
        · simp only [afterRead, nodeAt_of_lt hlt, ← hk, Option.some.injEq] at hj
          subst hj
          exact ⟨hlt, hiMul⟩
        · simp only [afterRead, ← hk, nodeAt_of_ge (Nat.le_of_not_lt hlt)] at hj
          exact absurd hj (by simp)
      cur_none := by
        intro hnone
        have hge : b.nodes.length ≤ i + k := by
          by_contra hlt
          simp only [afterRead, ← hk, nodeAt_of_lt (Nat.lt_of_not_le hlt)] at hnone
          exact absurd hnone (by simp)
        have hmul := Nat.mul_le_mul_right b.baseSize hge
        have hcap := h.capacity_eq
        dsimp only [afterRead]
        omega }

theorem read_throw {size : ℕ} (hsize : b.getReadSize < size) :
    read size b = .error (.outOfRange "not enough len") b := by
  rw [read, if_pos hsize]

theorem read_null {size : ℕ} (hcur : b.cur = none) (hsize : size ≤ b.getReadSize) :
    read size b = .error .nullDeref b := by
  rw [read, if_neg (by omega), chain_of_null hcur]
  rfl

/-- The positional read starts at `m_cur`, wherever `position` points. -/
theorem readAt_ok (h : Wf b) {i size position : ℕ} (hcur : b.cur = some i)
    (hsize : size ≤ sizeSub b.size position)
    (hroom : position % b.baseSize + size ≤ b.chain.length * b.baseSize) :
    readAt size position b =
      .ok
        (((flat b.nodes).drop (i * b.baseSize + position % b.baseSize)).take size)
        b := by
  have hcopy :=
    copyOut_eq_some (h.sized_chain hcur) (h.chain_ne hcur) (h.mod_lt position) hroom
  rw [readAt, if_neg (by omega), hcopy]
  dsimp only
  rw [h.flat_chain_drop hcur]

theorem readAt_throw {size position : ℕ} (hsize : sizeSub b.size position < size) :
    readAt size position b = .error (.outOfRange "not enough len") b := by
  rw [readAt, if_pos hsize]

theorem readAt_fault (h : Wf b) {size position : ℕ} (hsize : size ≤ sizeSub b.size position)
    (hroom : b.cur = none ∨ b.chain.length * b.baseSize < position % b.baseSize + size) :
    readAt size position b = .error .nullDeref b := by
  rw [readAt, if_neg (by omega)]
  cases hcur : b.cur with
  | none =>
    rw [chain_of_null hcur]
    rfl
  | some i =>
    have hlt := hroom.resolve_left (by simp [hcur])
    rw [copyOut_eq_none (h.sized_chain hcur) (h.mod_lt position) hlt]

theorem toString_ok (h : Wf b) {i : ℕ} (hcur : b.cur = some i) :
    toString b =
      .ok
        (((flat b.nodes).drop (i * b.baseSize + b.position % b.baseSize)).take b.getReadSize)
        b := by
  have hread := h.getReadSize_eq
  have hple := h.position_le
  have hsle := h.size_le
  rw [toString]
  by_cases hzero : b.getReadSize = 0
  · rw [if_pos hzero, hzero, List.take_zero]
  · rw [if_neg hzero]
    exact readAt_ok h hcur (Nat.le_refl _) (h.chain_room hcur (by omega))

theorem toString_empty (hzero : b.getReadSize = 0) : toString b = .ok [] b := by
  rw [toString, if_pos hzero]

end Read

section Seek

variable {b : ByteArray}

/-- The state after `setPosition v`. -/
def afterSetPosition (b : ByteArray) (v : ℕ) : ByteArray :=
  { b with
    position := v
    size := if v > b.size then v else b.size
    cur := b.nodeAt (v / b.baseSize) }

theorem setPosition_ok (h : Wf b) {v : ℕ} (hv : v ≤ b.capacity) :
    setPosition v b = .ok () (b.afterSetPosition v) := by
  have hseek : seek b.nodes v = some (v / b.baseSize) := by
    apply seek_eq_some h.base_pos h.sized h.nodes_ne
    rw [← h.capacity_eq]
    exact hv
  rw [setPosition, if_neg (by omega)]
  dsimp only
  rw [hseek]
  rfl

theorem setPosition_throw {v : ℕ} (hv : b.capacity < v) :
    setPosition v b = .error (.outOfRange "set position out of range") b := by
  rw [setPosition, if_pos hv]

theorem wf_afterSetPosition (h : Wf b) {v : ℕ} (hv : v ≤ b.capacity) :
    Wf (b.afterSetPosition v) where
  base_pos := h.base_pos
  sized := h.sized
  nodes_ne := h.nodes_ne
  capacity_eq := h.capacity_eq
  position_le := by
    dsimp only [afterSetPosition]
    split <;> omega
  size_le := by
    have := h.size_le
    dsimp only [afterSetPosition]
    split <;> omega
  cur_some := by
    intro j hj
    dsimp only [afterSetPosition] at hj ⊢
    by_cases hlt : v / b.baseSize < b.nodes.length
    · rw [nodeAt_of_lt hlt, Option.some.injEq] at hj
      subst hj
      exact ⟨hlt, Nat.div_mul_le_self v b.baseSize⟩
    · rw [nodeAt_of_ge (Nat.le_of_not_lt hlt)] at hj
      exact absurd hj (by simp)
  cur_none := by
    intro hnone
    dsimp only [afterSetPosition] at hnone ⊢
    have hge : b.nodes.length ≤ v / b.baseSize := by
      by_contra hlt
      rw [nodeAt_of_lt (Nat.lt_of_not_le hlt)] at hnone
      exact absurd hnone (by simp)
    have hmul : b.nodes.length * b.baseSize ≤ v :=
      (Nat.le_div_iff_mul_le h.base_pos).mp hge
    have hcap := h.capacity_eq
    omega

/-- `clear` returns to the state of a new array, keeping the root's bytes. -/
theorem clear_ok (h : Wf b) :
    ∃ b', clear b = .ok () b' ∧ Wf b' ∧
      b'.baseSize = b.baseSize ∧ b'.capacity = b.baseSize ∧
      b'.position = 0 ∧ b'.size = 0 ∧ b'.cur = some 0 := by
  cases hnodes : b.nodes with
  | nil => exact absurd hnodes h.nodes_ne
  | cons root rest =>
    have hroot : root.size = b.baseSize :=
      h.sized root (by rw [hnodes]; exact List.mem_cons_self)
    refine
      ⟨{ b with
          nodes := [root]
          size := 0
          capacity := root.size
          position := 0
          cur := some 0 },
        by simp only [clear, hnodes], ?_, rfl, hroot, rfl, rfl, rfl⟩
    exact
      { base_pos := h.base_pos
        sized := by
          intro n hn
          rw [List.mem_singleton.mp hn]
          exact hroot
        nodes_ne := List.cons_ne_nil _ _
        capacity_eq := by
          dsimp only
          rw [hroot, List.length_singleton, Nat.one_mul]
        position_le := Nat.le_refl _
        size_le := Nat.zero_le _
        cur_some := by
          dsimp only
          intro i hi
          rw [Option.some.injEq] at hi
          subst hi
          simp
        cur_none := by
          dsimp only
          intro hnone
          exact absurd hnone (by simp) }

end Seek

section Buffers

variable {b : ByteArray}

/-- The list `iovs` covers exactly `bytes`, one non-empty region per node. -/
structure Covers (b : ByteArray) (iovs : List Iovec) (bytes : List UInt8) : Prop where
  bytes_eq : iovs.flatMap b.iovBytes = bytes
  sum_len : (iovs.map Iovec.len).sum = bytes.length
  inside : ∀ iov ∈ iovs, 0 < iov.len ∧ iov.base + iov.len ≤ b.baseSize

theorem regions_covers (h : Wf b) {nextCap : Node → ℕ} {i p len : ℕ} {n : Node} {rest : List Node}
    (hcap : ∀ m ∈ b.nodes, nextCap m = b.baseSize) (hdrop : b.nodes.drop i = n :: rest)
    (hlen : 0 < len) (hroom : p % b.baseSize + len ≤ (n :: rest).length * b.baseSize) :
    ∃ iovs,
      regions nextCap i (n :: rest) (p % b.baseSize) (n.size - p % b.baseSize) len = some iovs ∧
      Covers b iovs (((flat b.nodes).drop (i * b.baseSize + p % b.baseSize)).take len) := by
  have hsized : Sized b.baseSize (n :: rest) := by
    rw [← hdrop]
    exact h.sized.drop i
  have hsub : ∀ m ∈ n :: rest, nextCap m = b.baseSize := by
    intro m hm
    rw [← hdrop] at hm
    exact hcap m (List.mem_of_mem_drop hm)
  have hncap : n.size - p % b.baseSize = b.baseSize - p % b.baseSize := by rw [hsized.head]
  obtain ⟨iovs, hreg, hbytes, hsum, hall⟩ :=
    regions_eq_some hsized hsub hdrop (h.mod_lt p) hncap hlen hroom
  have hflat :
      (flat (n :: rest)).drop (p % b.baseSize) =
        (flat b.nodes).drop (i * b.baseSize + p % b.baseSize) := by
    rw [← hdrop, h.sized.flat_drop, List.drop_drop]
  have hlength :
      (((flat b.nodes).drop (i * b.baseSize + p % b.baseSize)).take len).length = len := by
    rw [← hflat, List.length_take, List.length_drop, hsized.length_flat]
    omega
  refine ⟨iovs, hreg, ?_, ?_, hall⟩
  · rw [hbytes, hflat]
  · rw [hsum, hlength]

theorem chain_cons (h : Wf b) {i : ℕ} (hcur : b.cur = some i) :
    ∃ n rest, b.chain = n :: rest ∧ b.nodes.drop i = n :: rest := by
  cases hchain : b.chain with
  | nil => exact absurd hchain (h.chain_ne hcur)
  | cons n rest => exact ⟨n, rest, rfl, by rw [← chain_of_cur hcur, hchain]⟩

theorem getReadBuffers_ok (h : Wf b) {i len : ℕ} (hcur : b.cur = some i) :
    ∃ iovs,
      getReadBuffers len b = .ok (min b.getReadSize len, iovs) b ∧
      Covers b iovs
        (((flat b.nodes).drop
          (i * b.baseSize + b.position % b.baseSize)).take (min b.getReadSize len)) := by
  have hread := h.getReadSize_eq
  have hple := h.position_le
  have hsle := h.size_le
  simp only [getReadBuffers]
  by_cases hzero : min b.getReadSize len = 0
  · rw [if_pos hzero, hzero]
    refine ⟨[], rfl, ⟨by simp, by simp, ?_⟩⟩
    intro iov hiov
    exact absurd hiov (by simp)
  · rw [if_neg hzero]
    obtain ⟨n, rest, hchain, hdrop⟩ := chain_cons h hcur
    have hroom := h.chain_room (m := min b.getReadSize len) hcur (by omega)
    rw [hchain] at hroom
    obtain ⟨iovs, hreg, hcov⟩ :=
      regions_covers (p := b.position) h (fun _ _ => rfl) hdrop (Nat.pos_of_ne_zero hzero) hroom
    refine ⟨iovs, ?_, hcov⟩
    rw [hcur, hchain]
    dsimp only
    rw [hreg]

theorem getReadBuffers_empty {len : ℕ} (hzero : min b.getReadSize len = 0) :
    getReadBuffers len b = .ok (0, []) b := by
  simp only [getReadBuffers]
  rw [if_pos hzero]

theorem getReadBuffersAt_ok (h : Wf b) {len position : ℕ}
    (hroom : position + min (sizeSub b.size position) len ≤ b.capacity) :
    ∃ iovs,
      getReadBuffersAt len position b = .ok (min (sizeSub b.size position) len, iovs) b ∧
      Covers b iovs
        (((flat b.nodes).drop position).take (min (sizeSub b.size position) len)) := by
  simp only [getReadBuffersAt]
  by_cases hzero : min (sizeSub b.size position) len = 0
  · rw [if_pos hzero, hzero]
    refine ⟨[], rfl, ⟨by simp, by simp, ?_⟩⟩
    intro iov hiov
    exact absurd hiov (by simp)
  · rw [if_neg hzero]
    have hdiv := Nat.div_add_mod' position b.baseSize
    have hlt : position / b.baseSize < b.nodes.length := by
      apply Nat.div_lt_of_lt_mul
      rw [Nat.mul_comm, ← h.capacity_eq]
      omega
    cases hdrop : b.nodes.drop (position / b.baseSize) with
    | nil =>
      have := List.drop_eq_nil_iff.mp hdrop
      omega
    | cons n rest =>
      have hlength : (n :: rest).length * b.baseSize
          + position / b.baseSize * b.baseSize = b.capacity := by
        rw [← hdrop, List.length_drop, h.capacity_eq, ← Nat.add_mul]
        congr 1
        omega
      obtain ⟨iovs, hreg, hcov⟩ :=
        regions_covers (p := position) h h.sized hdrop (Nat.pos_of_ne_zero hzero) (by omega)
      rw [hdiv] at hcov
      refine ⟨iovs, ?_, hcov⟩
      dsimp only
      rw [hreg]

theorem getReadBuffersAt_fault (h : Wf b) {len position : ℕ}
    (hlen : 0 < min (sizeSub b.size position) len)
    (hroom : b.capacity < position + min (sizeSub b.size position) len) :
    getReadBuffersAt len position b = .error .nullDeref b := by
  simp only [getReadBuffersAt]
  rw [if_neg (by omega)]
  have hdiv := Nat.div_add_mod' position b.baseSize
  cases hdrop : b.nodes.drop (position / b.baseSize) with
  | nil => rfl
  | cons n rest =>
    have hsized : Sized b.baseSize (n :: rest) := by
      rw [← hdrop]
      exact h.sized.drop _
    have hlength : (n :: rest).length * b.baseSize
        + position / b.baseSize * b.baseSize = b.capacity := by
      have hpos : 0 < (b.nodes.drop (position / b.baseSize)).length := by
        rw [hdrop]
        simp
      rw [List.length_drop] at hpos
      rw [← hdrop, List.length_drop, h.capacity_eq, ← Nat.add_mul]
      congr 1
      omega
    have hshort : (n :: rest).length * b.baseSize <
        position % b.baseSize + min (sizeSub b.size position) len := by
      omega
    have hnone :=
      regions_eq_none (i := position / b.baseSize) hsized (h.mod_lt position) rfl hshort
    dsimp only
    rw [hsized.head, hnone]

/-- `getWriteBuffers(len)` makes room and cuts it into regions from the cursor on. -/
theorem getWriteBuffers_regions (h : Wf b) {len : ℕ} (hlen : 0 < len) (hcur : b.cur ≠ none) :
    ∃ b' i n rest iovs,
      Grown b b' len ∧
      b'.cur = some i ∧
      b'.nodes.drop i = n :: rest ∧
      getWriteBuffers len b = .ok (len, iovs) b' ∧
      regions Node.size i (n :: rest) (b'.position % b'.baseSize)
        (n.size - b'.position % b'.baseSize) len = some iovs ∧
      Covers b' iovs
        (((flat b'.nodes).drop (i * b'.baseSize + b'.position % b'.baseSize)).take len) := by
  obtain ⟨b', hadd, hgrown⟩ := addCapacity_ok h hlen hcur
  have hne : b'.cur ≠ none := by
    intro hnone
    have hfull := hgrown.wf.cur_none hnone
    have hroom := hgrown.room
    rw [hgrown.position_eq] at hfull
    omega
  obtain ⟨i, hi⟩ := Option.ne_none_iff_exists'.mp hne
  obtain ⟨n, rest, hchain, hdrop⟩ := chain_cons hgrown.wf hi
  have hroom : b'.position + len ≤ b'.capacity := by
    rw [hgrown.position_eq]
    exact hgrown.room
  have hchainRoom := hgrown.wf.chain_room hi hroom
  rw [hchain] at hchainRoom
  obtain ⟨iovs, hreg, hcov⟩ :=
    regions_covers (p := b'.position) hgrown.wf hgrown.wf.sized hdrop hlen hchainRoom
  refine ⟨b', i, n, rest, iovs, hgrown, hi, hdrop, ?_, hreg, hcov⟩
  rw [getWriteBuffers, if_neg (by omega), hadd]
  dsimp only
  rw [hi, hchain]
  dsimp only
  rw [hreg]

theorem getWriteBuffers_ok (h : Wf b) {len : ℕ} (hlen : 0 < len) (hcur : b.cur ≠ none) :
    ∃ b' i iovs,
      Grown b b' len ∧
      b'.cur = some i ∧
      getWriteBuffers len b = .ok (len, iovs) b' ∧
      Covers b' iovs
        (((flat b'.nodes).drop (i * b'.baseSize + b'.position % b'.baseSize)).take len) := by
  obtain ⟨b', i, _, _, iovs, hgrown, hi, _, hbuffers, _, hcov⟩ :=
    getWriteBuffers_regions h hlen hcur
  exact ⟨b', i, iovs, hgrown, hi, hbuffers, hcov⟩

theorem getWriteBuffers_null (h : Wf b) {len : ℕ} (hlen : 0 < len) (hcur : b.cur = none) :
    getWriteBuffers len b = .error .nullDeref b := by
  rw [getWriteBuffers, if_neg (by omega), addCapacity_null h hlen hcur]

end Buffers

end ByteArray
end Civan
