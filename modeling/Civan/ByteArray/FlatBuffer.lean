import Civan.ByteArray.SizeInvariant
import Civan.Lib.Transition

/-!
# ByteArray as a flat byte buffer

The purpose of `ByteArray` is a growing array of bytes with a position.
`FlatBuffer` states that purpose, and this module compares the two call by call.

`write` leaves `m_cur` on the node of the last byte it wrote.  When it ends
exactly on a node boundary and more nodes follow, the position belongs to the
next node and the cursor is one node behind.  The next `write`, `read`,
`toString` or `getReadBuffers` then works on the wrong node, until
`setPosition` or `clear` seats the cursor again.  Away from that state the
array refines the flat buffer.
-/

namespace Civan

open MachineInt Segment Transition

/-- What `ByteArray` is for: bytes and a position in them. -/
structure FlatBuffer where
  data : List UInt8
  pos : ℕ
deriving DecidableEq, Repr

/-- The calls compared with the flat buffer. -/
inductive BufferCall where
  | write (buf : List UInt8)
  | read (n : ℕ)
  | setPosition (v : ℕ)
  | clear
  | toString
  | getReadBuffers (len : ℕ)
deriving DecidableEq, Repr

/-- What a call gives back: nothing, bytes, an `out_of_range`, or the number of
bytes offered together with the contents of the regions. -/
inductive CallResult where
  | done
  | bytes (l : List UInt8)
  | thrown
  | view (n : ℕ) (contents : List UInt8)
deriving DecidableEq, Repr

/-- The result of a call with `getPosition()` and `getReadSize()` after it. -/
structure Observation where
  result : CallResult
  position : ℕ
  readSize : ℕ
deriving DecidableEq, Repr

namespace FlatBuffer

def empty : FlatBuffer where
  data := []
  pos := 0

def readSize (a : FlatBuffer) : ℕ :=
  a.data.length - a.pos

def observe (a : FlatBuffer) (r : CallResult) : Observation :=
  ⟨r, a.pos, a.readSize⟩

/-- The meaning of each call on a flat buffer. -/
def apply (a : FlatBuffer) : BufferCall → CallResult × FlatBuffer
  | .write buf => (.done, { data := splice a.data a.pos buf, pos := a.pos + buf.length })
  | .read n =>
    if a.pos + n ≤ a.data.length then
      (.bytes ((a.data.drop a.pos).take n), { a with pos := a.pos + n })
    else
      (.thrown, a)
  | .setPosition v => (.done, { a with pos := v })
  | .clear => (.done, empty)
  | .toString => (.bytes (a.data.drop a.pos), a)
  | .getReadBuffers len => (.view (min a.readSize len) ((a.data.drop a.pos).take len), a)

/-- The flat buffer as a transition system. -/
def system : System FlatBuffer BufferCall Observation where
  step a c := some ((a.apply c).2.observe (a.apply c).1, (a.apply c).2)

end FlatBuffer

namespace ByteArray

def observe (b : ByteArray) (r : CallResult) : Observation :=
  ⟨r, b.getPosition, b.getReadSize⟩

/-- Turn the outcome of a member function into an observation; a null
dereference ends the run. -/
def settle {α : Type} (f : α → ByteArray → CallResult) :
    EStateM.Result Fault ByteArray α → Option (Observation × ByteArray)
  | .ok a b => some (b.observe (f a b), b)
  | .error .nullDeref _ => none
  | .error _ b => some (b.observe .thrown, b)

/-- The array as a transition system.  `setPosition` is called with values up
to `m_size` only. -/
def bufferSystem : System ByteArray BufferCall Observation where
  step b c :=
    match c with
    | .write buf => settle (fun _ _ => .done) (write buf b)
    | .read n => settle (fun l _ => .bytes l) (read n b)
    | .setPosition v => if v ≤ b.size then settle (fun _ _ => .done) (setPosition v b) else none
    | .clear => settle (fun _ _ => .done) (clear b)
    | .toString => settle (fun l _ => .bytes l) (toString b)
    | .getReadBuffers len =>
      settle (fun r b' => .view r.1 (r.2.flatMap b'.iovBytes)) (getReadBuffers len b)

/-- The cursor stands on the node before the one that holds `m_position`. -/
def CursorBehind (b : ByteArray) : Prop :=
  0 < b.position ∧
  b.position < b.capacity ∧
  b.position % b.baseSize = 0 ∧
  b.cur = some (b.position / b.baseSize - 1)

/-- The calls that copy or expose at least one byte in the state `b`. -/
def MovesBytes (b : ByteArray) : BufferCall → Prop
  | .write buf => buf ≠ []
  | .read n => 0 < n ∧ n ≤ b.getReadSize
  | .setPosition _ => False
  | .clear => False
  | .toString => 0 < b.getReadSize
  | .getReadBuffers len => 0 < min b.getReadSize len

/-- No byte is moved through a cursor that was left behind. -/
def CursorSeated (b : ByteArray) (c : BufferCall) : Prop :=
  MovesBytes b c → ¬ CursorBehind b

/-- The cursor stands on the node that holds `m_position`. -/
def InPlace (b : ByteArray) : Prop :=
  b.position < b.capacity → b.cur = some (b.position / b.baseSize)

/-- The array holds the contents of the flat buffer `a`. -/
structure Represents (b : ByteArray) (a : FlatBuffer) : Prop where
  wf : Wf b
  pos_eq : a.pos = b.position
  data_eq : a.data = (flat b.nodes).take b.size
  cursor : InPlace b ∨ CursorBehind b

section Representation

variable {b : ByteArray} {a : FlatBuffer}

theorem Represents.length_data (h : Represents b a) : a.data.length = b.size := by
  rw [h.data_eq, List.length_take, h.wf.length_flat]
  exact Nat.min_eq_left h.wf.size_le

theorem Represents.readSize_eq (h : Represents b a) : b.getReadSize = a.readSize := by
  rw [h.wf.getReadSize_eq, FlatBuffer.readSize, h.length_data, h.pos_eq]

/-- Related states look the same from outside. -/
theorem Represents.observe_eq (h : Represents b a) (r : CallResult) :
    b.observe r = a.observe r := by
  rw [observe, FlatBuffer.observe, getPosition, h.pos_eq, h.readSize_eq]

theorem Represents.inPlace (h : Represents b a) {c : BufferCall} (hmoves : MovesBytes b c)
    (hseated : CursorSeated b c) :
    InPlace b :=
  h.cursor.resolve_right (hseated hmoves)

theorem Represents.bytes_at_cursor (h : Represents b a) {i n : ℕ} (hcur : b.cur = some i)
    (hplace : 0 < n → InPlace b) (hn : n ≤ b.getReadSize) :
    ((flat b.nodes).drop (i * b.baseSize + b.position % b.baseSize)).take n =
      (a.data.drop a.pos).take n := by
  cases n with
  | zero => rw [List.take_zero, List.take_zero]
  | succ n =>
    have hread := h.wf.getReadSize_eq
    have hsle := h.wf.size_le
    have hi : i = b.position / b.baseSize := by
      have hsome := hplace (Nat.succ_pos n) (by omega)
      rw [hcur, Option.some.injEq] at hsome
      exact hsome
    rw [hi, h.wf.position_eq, h.data_eq, h.pos_eq, List.drop_take, List.take_take]
    congr 1
    omega

end Representation

section Steps

variable {b : ByteArray} {a : FlatBuffer}

/-- A settled outcome is either a result or an `out_of_range` with its state. -/
theorem settle_ok {α : Type} {f : α → ByteArray → CallResult}
    {r : α} {o : Observation} {b₀ b' : ByteArray} (h : settle f (.ok r b₀) = some (o, b')) :
    o = b₀.observe (f r b₀) ∧ b' = b₀ := by
  simp only [settle, Option.some.injEq, Prod.mk.injEq] at h
  exact ⟨h.1.symm, h.2.symm⟩

/-- The abstract step that answers `r` and ends in `a'`. -/
theorem flat_step {c : BufferCall} {r : CallResult} {a' : FlatBuffer} {b' : ByteArray}
    (happly : a.apply c = (r, a')) (hrep : Represents b' a') :
    ∃ t, FlatBuffer.system.step a c = some (b'.observe r, t) ∧ Represents b' t := by
  refine ⟨a', ?_, hrep⟩
  simp only [FlatBuffer.system, happly]
  rw [hrep.observe_eq r]

theorem last_byte_node {base p n : ℕ} (hbase : 0 < base) (hn : 0 < n) :
    p / base + (p % base + n - 1) / base = (p + n - 1) / base := by
  have hp := Nat.div_add_mod' p base
  have hsum : p + n - 1 = p % base + n - 1 + p / base * base := by omega
  rw [hsum, Nat.add_mul_div_right _ _ hbase, Nat.add_comm]

/-- The node of the last byte is the node of the position, unless the position
is a node boundary. -/
theorem pred_div_cases {base m : ℕ} (hbase : 0 < base) (hm : 0 < m) :
    (m - 1) / base = m / base ∨ (m % base = 0 ∧ (m - 1) / base = m / base - 1) := by
  have hdiv := Nat.div_add_mod' m base
  by_cases hmod : m % base = 0
  · right
    refine ⟨hmod, ?_⟩
    have hq : 0 < m / base := by
      rcases Nat.eq_zero_or_pos (m / base) with hz | hp
      · rw [hz] at hdiv
        omega
      · exact hp
    have hmul : m / base * base = (m / base - 1) * base + base := by
      rw [← Nat.succ_mul]
      congr 1
      omega
    have hsum : m - 1 = base - 1 + (m / base - 1) * base := by omega
    rw [hsum, Nat.add_mul_div_right _ _ hbase, Nat.div_eq_of_lt (by omega), Nat.zero_add]
  · left
    have hlt := Nat.mod_lt m hbase
    have hsum : m - 1 = m % base - 1 + m / base * base := by omega
    rw [hsum, Nat.add_mul_div_right _ _ hbase, Nat.div_eq_of_lt (by omega), Nat.zero_add]

theorem Grown.cur_inPlace {b' : ByteArray} {n i : ℕ} (hgrown : Grown b b' n)
    (h : Wf b) (hplace : InPlace b) (hi : b'.cur = some i) :
    i = b.position / b.baseSize := by
  rcases Nat.lt_or_eq_of_le (Nat.le_trans h.position_le h.size_le) with hlt | hfull
  · rw [hgrown.cur_eq hlt, hplace hlt, Option.some.injEq] at hi
    exact hi.symm
  · rw [hgrown.cur_first hfull, Option.some.injEq] at hi
    exact hi.symm

theorem Grown.length_nodes_of_room {b' : ByteArray} {n : ℕ} (hgrown : Grown b b' n)
    (h : Wf b) (hroom : b.position + n ≤ b.capacity) :
    b'.nodes.length = b.nodes.length := by
  have hbase := h.base_pos
  have htight : b'.nodes.length * b.baseSize < (b.nodes.length + 1) * b.baseSize := by
    have h₁ := hgrown.tight
    have h₂ := hgrown.wf.capacity_eq
    have h₃ := h.capacity_eq
    rw [hgrown.baseSize_eq] at h₂
    rw [Nat.succ_mul]
    omega
  have hle := Nat.lt_of_mul_lt_mul_right htight
  obtain ⟨ext, hext⟩ := hgrown.nodes_eq
  rw [hext, List.length_append] at hle ⊢
  omega

/-- A write through a seated cursor splices the bytes in. -/
theorem represents_write (h : Represents b a) {buf : List UInt8} (hbuf : buf ≠ [])
    (hplace : InPlace b) (hcur : b.cur ≠ none) :
    ∃ b', write buf b = .ok () b' ∧
      Represents b' { data := splice a.data a.pos buf, pos := a.pos + buf.length } := by
  obtain ⟨b₁, b', j, hgrown, hj, hwrite, hwritten⟩ := write_ok h.wf hbuf hcur
  have hlen : 0 < buf.length := List.length_pos_iff.mpr hbuf
  have hple := Nat.le_trans h.wf.position_le h.wf.size_le
  have hbase := h.wf.base_pos
  have hjEq := hgrown.cur_inPlace h.wf hplace hj
  have hoff : j * b₁.baseSize + b₁.position % b₁.baseSize = b.position := by
    rw [hgrown.baseSize_eq, hgrown.position_eq, hjEq]
    exact h.wf.position_eq
  refine ⟨b', hwrite, hwritten.wf, ?_, ?_, ?_⟩
  · rw [hwritten.position_eq, hgrown.position_eq, h.pos_eq]
  · obtain ⟨ext, hext⟩ := hgrown.nodes_eq
    have hcut : (flat b₁.nodes).take b.size = (flat b.nodes).take b.size := by
      rw [hext, flat_append, List.take_append_of_le_length]
      rw [h.wf.length_flat]
      exact h.wf.size_le
    have hroom : b.position + buf.length ≤ (flat b₁.nodes).length := by
      rw [hgrown.wf.length_flat]
      exact hgrown.room
    rw [hwritten.flat_eq, hoff, hwritten.size_eq, hgrown.position_eq, hgrown.size_eq,
      Nat.max_comm, take_splice h.wf.position_le hroom, hcut, h.data_eq, h.pos_eq]
  · have hcur' : b'.cur = some ((b.position + buf.length - 1) / b.baseSize) := by
      rw [hwritten.cur_eq, hgrown.baseSize_eq, hgrown.position_eq, hjEq,
        last_byte_node hbase hlen]
    have hbase' : b'.baseSize = b.baseSize := hwritten.baseSize_eq.trans hgrown.baseSize_eq
    have hpos' : b'.position = b.position + buf.length := by
      rw [hwritten.position_eq, hgrown.position_eq]
    rcases pred_div_cases (m := b.position + buf.length) hbase (by omega) with
      hsame | ⟨hmod, hpred⟩
    · left
      intro _
      rw [hcur', hsame, hbase', hpos']
    · by_cases hlt : b'.position < b'.capacity
      · right
        refine ⟨by omega, hlt, ?_, ?_⟩
        · rw [hpos', hbase']
          exact hmod
        · rw [hcur', hpred, hbase', hpos']
      · left
        intro hcontra
        exact absurd hcontra hlt

theorem afterRead_zero (h : Wf b) {i : ℕ} (hcur : b.cur = some i) : b.afterRead i 0 = b := by
  have hi := (h.cur_some i hcur).1
  simp only [afterRead, Nat.add_zero, Nat.div_eq_of_lt (h.mod_lt b.position),
    nodeAt_of_lt hi, ← hcur]

theorem represents_afterRead (h : Represents b a) {i n : ℕ} (hcur : b.cur = some i)
    (hplace : 0 < n → InPlace b) (hn : n ≤ b.getReadSize) :
    Represents (b.afterRead i n) { a with pos := a.pos + n } := by
  cases n with
  | zero =>
    rw [afterRead_zero h.wf hcur]
    exact h
  | succ n =>
    have hread := h.wf.getReadSize_eq
    have hsle := h.wf.size_le
    have hbase := h.wf.base_pos
    have hi : i = b.position / b.baseSize := by
      have hsome := hplace (Nat.succ_pos n) (by omega)
      rw [hcur, Option.some.injEq] at hsome
      exact hsome
    refine ⟨wf_afterRead h.wf hcur hn, ?_, h.data_eq, Or.inl ?_⟩
    · simp only [afterRead, h.pos_eq]
    · intro hlt
      simp only [afterRead] at hlt ⊢
      have hsum : b.position + (n + 1) =
          b.position % b.baseSize + (n + 1) + b.position / b.baseSize * b.baseSize := by
        have := h.wf.position_eq
        omega
      have hnode : i + (b.position % b.baseSize + (n + 1)) / b.baseSize =
          (b.position + (n + 1)) / b.baseSize := by
        rw [hi, hsum, Nat.add_mul_div_right _ _ hbase, Nat.add_comm]
      rw [hnode, nodeAt_of_lt]
      apply Nat.div_lt_of_lt_mul
      rw [Nat.mul_comm, ← h.wf.capacity_eq]
      exact hlt

theorem inPlace_afterSetPosition (h : Wf b) (v : ℕ) : InPlace (b.afterSetPosition v) := by
  intro hlt
  simp only [afterSetPosition] at hlt ⊢
  rw [nodeAt_of_lt]
  apply Nat.div_lt_of_lt_mul
  rw [Nat.mul_comm, ← h.capacity_eq]
  exact hlt

theorem represents_setPosition (h : Represents b a) {v : ℕ} (hv : v ≤ b.size) :
    Represents (b.afterSetPosition v) { a with pos := v } := by
  have hcap : v ≤ b.capacity := Nat.le_trans hv h.wf.size_le
  refine ⟨wf_afterSetPosition h.wf hcap, rfl, ?_, Or.inl (inPlace_afterSetPosition h.wf v)⟩
  simp only [afterSetPosition, if_neg (Nat.not_lt.mpr hv)]
  exact h.data_eq

/-- A call that takes the array to a state that the flat buffer goes along with. -/
def Simulated (b : ByteArray) (a : FlatBuffer) (c : BufferCall) : Prop :=
  ∀ o b', bufferSystem.step b c = some (o, b') →
    ∃ a', FlatBuffer.system.step a c = some (o, a') ∧ Represents b' a'

theorem Represents.simulated_write {buf : List UInt8} (h : Represents b a)
    (hseated : CursorSeated b (.write buf)) :
    Simulated b a (.write buf) := by
  intro o b' hstep
  simp only [bufferSystem] at hstep
  by_cases hbuf : buf = []
  · subst hbuf
    rw [write_nil] at hstep
    obtain ⟨rfl, rfl⟩ := settle_ok hstep
    exact flat_step (by simp [FlatBuffer.apply]) h
  · have hcur : b.cur ≠ none := by
      intro hnone
      rw [write_null h.wf hbuf hnone] at hstep
      exact absurd hstep (by simp [settle])
    obtain ⟨b₁, hwrite, hrep⟩ :=
      represents_write h hbuf (h.inPlace (c := .write buf) hbuf hseated) hcur
    rw [hwrite] at hstep
    obtain ⟨rfl, rfl⟩ := settle_ok hstep
    exact flat_step rfl hrep

theorem Represents.simulated_read {n : ℕ} (h : Represents b a)
    (hseated : CursorSeated b (.read n)) :
    Simulated b a (.read n) := by
  intro o b' hstep
  simp only [bufferSystem] at hstep
  have hread := h.readSize_eq
  have hlen := h.length_data
  have hpos := h.pos_eq
  have hple := h.wf.position_le
  have hsize := h.wf.getReadSize_eq
  by_cases hn : n ≤ b.getReadSize
  · cases hcur : b.cur with
    | none =>
      rw [read_null hcur hn] at hstep
      exact absurd hstep (by simp [settle])
    | some i =>
      have hplace : 0 < n → InPlace b :=
        fun hpos => h.inPlace (c := .read n) ⟨hpos, hn⟩ hseated
      rw [read_ok h.wf hcur hn, h.bytes_at_cursor hcur hplace hn] at hstep
      obtain ⟨rfl, rfl⟩ := settle_ok hstep
      refine flat_step ?_ (represents_afterRead h hcur hplace hn)
      simp only [FlatBuffer.apply]
      rw [if_pos (by omega)]
  · rw [read_throw (by omega)] at hstep
    simp only [settle, Option.some.injEq, Prod.mk.injEq] at hstep
    obtain ⟨rfl, rfl⟩ := hstep
    refine flat_step ?_ h
    simp only [FlatBuffer.apply]
    rw [if_neg (by omega)]

theorem Represents.simulated_setPosition {v : ℕ} (h : Represents b a) :
    Simulated b a (.setPosition v) := by
  intro o b' hstep
  simp only [bufferSystem] at hstep
  by_cases hv : v ≤ b.size
  · rw [if_pos hv, setPosition_ok h.wf (Nat.le_trans hv h.wf.size_le)] at hstep
    obtain ⟨rfl, rfl⟩ := settle_ok hstep
    exact flat_step rfl (represents_setPosition h hv)
  · rw [if_neg hv] at hstep
    exact absurd hstep (by simp)

theorem Represents.simulated_clear (h : Represents b a) : Simulated b a .clear := by
  intro o b' hstep
  simp only [bufferSystem] at hstep
  obtain ⟨b₁, hclear, hwf, _, _, hpos, hsize, hcur⟩ := clear_ok h.wf
  rw [hclear] at hstep
  obtain ⟨rfl, rfl⟩ := settle_ok hstep
  refine flat_step rfl ⟨hwf, ?_, ?_, Or.inl ?_⟩
  · rw [hpos]
    rfl
  · rw [hsize, List.take_zero]
    rfl
  · intro _
    rw [hcur, hpos, Nat.zero_div]

theorem Represents.cur_eq (h : Represents b a) (hplace : InPlace b) (hread : 0 < b.getReadSize) :
    b.cur = some (b.position / b.baseSize) := by
  have hsize := h.wf.getReadSize_eq
  have hsle := h.wf.size_le
  exact hplace (by omega)

theorem Represents.simulated_toString (h : Represents b a) (hseated : CursorSeated b .toString) :
    Simulated b a .toString := by
  intro o b' hstep
  simp only [bufferSystem] at hstep
  by_cases hzero : b.getReadSize = 0
  · rw [toString_empty hzero] at hstep
    obtain ⟨rfl, rfl⟩ := settle_ok hstep
    refine flat_step ?_ h
    have hdrop : a.data.drop a.pos = [] := by
      apply List.drop_of_length_le
      have := h.readSize_eq
      simp only [FlatBuffer.readSize] at this
      omega
    simp only [FlatBuffer.apply, hdrop]
  · have hread : 0 < b.getReadSize := Nat.pos_of_ne_zero hzero
    have hplace : InPlace b := h.inPlace (c := .toString) hread hseated
    have hcur := h.cur_eq hplace hread
    rw [toString_ok h.wf hcur, h.bytes_at_cursor hcur (fun _ => hplace) (Nat.le_refl _)] at hstep
    obtain ⟨rfl, rfl⟩ := settle_ok hstep
    refine flat_step ?_ h
    simp only [FlatBuffer.apply, CallResult.bytes.injEq, Prod.mk.injEq, and_true]
    rw [List.take_of_length_le]
    rw [List.length_drop, h.readSize_eq]
    exact Nat.le_refl _

theorem Represents.simulated_getReadBuffers {len : ℕ} (h : Represents b a)
    (hseated : CursorSeated b (.getReadBuffers len)) :
    Simulated b a (.getReadBuffers len) := by
  intro o b' hstep
  simp only [bufferSystem] at hstep
  have hmin : (a.data.drop a.pos).take len =
      (a.data.drop a.pos).take (min b.getReadSize len) := by
    rw [h.readSize_eq, FlatBuffer.readSize, Nat.min_comm, ← List.take_take,
      ← List.length_drop, List.take_length]
  by_cases hzero : min b.getReadSize len = 0
  · rw [getReadBuffers_empty hzero] at hstep
    obtain ⟨rfl, rfl⟩ := settle_ok hstep
    refine flat_step ?_ h
    simp only [FlatBuffer.apply, hmin, hzero, ← h.readSize_eq, List.take_zero, List.flatMap_nil]
  · have hplace : InPlace b :=
      h.inPlace (c := .getReadBuffers len) (Nat.pos_of_ne_zero hzero) hseated
    have hcur := h.cur_eq hplace (by omega)
    obtain ⟨iovs, hbufs, hcov⟩ := getReadBuffers_ok h.wf hcur
    have hbytes :=
      h.bytes_at_cursor hcur (fun _ => hplace) (Nat.min_le_left b.getReadSize len)
    rw [hbufs] at hstep
    obtain ⟨rfl, rfl⟩ := settle_ok hstep
    refine flat_step ?_ h
    simp only [FlatBuffer.apply, hcov.bytes_eq, hbytes, ← hmin, ← h.readSize_eq]

/-- One step of the array is one step of the flat buffer. -/
theorem bufferSystem_step_simulates {c : BufferCall} (h : Represents b a)
    (hseated : CursorSeated b c) :
    Simulated b a c := by
  cases c with
  | write buf => exact h.simulated_write hseated
  | read n => exact h.simulated_read hseated
  | setPosition v => exact h.simulated_setPosition
  | clear => exact h.simulated_clear
  | toString => exact h.simulated_toString hseated
  | getReadBuffers len => exact h.simulated_getReadBuffers hseated

theorem represents_new {baseSize : ℕ} (hbase : 0 < baseSize) (uninit : ℕ → UInt8) :
    Represents (new baseSize uninit) FlatBuffer.empty where
  wf := wf_new hbase uninit
  pos_eq := rfl
  data_eq := rfl
  cursor := by
    left
    intro _
    simp [new]

end Steps

/-- What a run without a null dereference shows is what the flat buffer shows. -/
def RefinesFlatBuffer
    (baseSize : ℕ) (uninit : ℕ → UInt8) (calls : List BufferCall) : Prop :=
  ∀ obs b', bufferSystem.run (new baseSize uninit) calls = some (obs, b') →
    ∃ a', FlatBuffer.system.run FlatBuffer.empty calls = some (obs, a')

/--
**Refinement of the flat buffer.**  Every run that moves no byte through a
cursor left behind by a write shows exactly what the flat buffer shows.
-/
theorem refinesFlatBuffer_of_cursorSeated {baseSize : ℕ} (hbase : 1 ≤ baseSize)
    (uninit : ℕ → UInt8) (calls : List BufferCall)
    (hseated : bufferSystem.Along CursorSeated (new baseSize uninit) calls) :
    RefinesFlatBuffer baseSize uninit calls := by
  intro obs b' hrun
  obtain ⟨a', hflat, _⟩ :=
    System.run_simulation (R := Represents) (P := CursorSeated)
      (fun _ _ _ o b' hR hP hstep => bufferSystem_step_simulates hR hP o b' hstep)
      (represents_new hbase uninit) hseated hrun
  exact ⟨a', hflat⟩

instance (b : ByteArray) : Decidable (CursorBehind b) :=
  inferInstanceAs (Decidable (_ ∧ _ ∧ _ ∧ _))

instance (b : ByteArray) (c : BufferCall) : Decidable (MovesBytes b c) :=
  match c with
  | .write buf => inferInstanceAs (Decidable (buf ≠ []))
  | .read n => inferInstanceAs (Decidable (0 < n ∧ n ≤ b.getReadSize))
  | .setPosition _ => inferInstanceAs (Decidable False)
  | .clear => inferInstanceAs (Decidable False)
  | .toString => inferInstanceAs (Decidable (0 < b.getReadSize))
  | .getReadBuffers len => inferInstanceAs (Decidable (0 < min b.getReadSize len))

instance (b : ByteArray) (c : BufferCall) : Decidable (CursorSeated b c) :=
  inferInstanceAs (Decidable (_ → _))

/-- Overwriting up to a node boundary is harmless when the cursor is seated
again before the next byte moves. -/
theorem refinesFlatBuffer_reseated :
    RefinesFlatBuffer 2 (fun _ => 0)
      [.write [1, 2, 3, 4], .setPosition 0, .write [9, 8], .setPosition 2, .read 2] := by
  apply refinesFlatBuffer_of_cursorSeated (by decide)
  refine System.Along.cons (by decide) rfl ?_
  refine System.Along.cons (by decide) rfl ?_
  refine System.Along.cons (by decide) rfl ?_
  refine System.Along.cons (by decide) rfl ?_
  exact System.Along.cons (by decide) rfl trivial

/-- Two overwrites in a row, the first ending on a node boundary: the second
goes to the first node again, and `toString` shows it. -/
theorem not_refinesFlatBuffer_boundary_overwrite :
    ¬ RefinesFlatBuffer 2 (fun _ => 0)
      [.write [1, 2, 3, 4], .setPosition 0, .write [9, 8], .write [7],
        .setPosition 0, .toString] := by
  intro h
  have hcode :
      (bufferSystem.run (new 2 (fun _ => 0))
        [.write [1, 2, 3, 4], .setPosition 0, .write [9, 8], .write [7],
          .setPosition 0, .toString]).map Prod.fst =
        some
          [⟨.done, 4, 0⟩, ⟨.done, 0, 4⟩, ⟨.done, 2, 2⟩, ⟨.done, 3, 1⟩,
            ⟨.done, 0, 4⟩, ⟨.bytes [7, 8, 3, 4], 0, 4⟩] := by
    decide
  obtain ⟨⟨obs, b'⟩, hrun, hobs⟩ := Option.map_eq_some_iff.mp hcode
  obtain ⟨a', hflat⟩ := h obs b' hrun
  have hspec := congrArg (Option.map Prod.fst) hflat
  rw [Option.map_some] at hspec
  dsimp only at hobs hspec
  rw [hobs] at hspec
  revert hspec
  decide

end ByteArray
end Civan
