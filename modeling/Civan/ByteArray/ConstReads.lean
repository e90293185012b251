import Civan.ByteArray.AppendCalls

/-!
# ByteArray: reading at a position of one's own

`read(buf, size, position)` and `getReadBuffers(buffers, len, position)` take
the position from their caller and leave the array as it is.  The second walks
from the root and agrees with the overload that starts at the cursor.  The first
starts at the cursor's node and takes only the offset from `position`, so it
answers for the wrong node unless the cursor happens to stand on the right one,
and its bound wraps for a position beyond the contents.
-/

namespace Civan
namespace ByteArray

open MachineInt Transition

section Positional

variable {b : ByteArray} {size position : ℕ}

/-- What the positional read is for. -/
def positionalRead (size position : ℕ) : Op (List UInt8) := fun b =>
  if position + size ≤ b.size then
    .ok (((flat b.nodes).drop position).take size) b
  else
    .error (.outOfRange "not enough len") b

/-- The bytes at the offset of `position` in the node of the current position. -/
def nodeBytes (b : ByteArray) (size position : ℕ) : List UInt8 :=
  ((flat b.nodes).drop (b.position / b.baseSize * b.baseSize + position % b.baseSize)).take size

/-- The requests for which the position of the caller and the current one go together: within
the contents, the node is that of the current position or nothing is asked for; beyond them,
the wrapping bound is still too small. -/
def Serves (b : ByteArray) (size position : ℕ) : Prop :=
  if position + size ≤ b.size then
    b.position < b.capacity ∧ (size = 0 ∨ position / b.baseSize = b.position / b.baseSize)
  else
    sizeSub b.size position < size

/-- The arrays differ at most in their bytes. -/
structure SameShape (b b' : ByteArray) : Prop where
  baseSize_eq : b'.baseSize = b.baseSize
  capacity_eq : b'.capacity = b.capacity
  size_eq : b'.size = b.size
  position_eq : b'.position = b.position
  cur_eq : b'.cur = b.cur

theorem SameShape.refl (b : ByteArray) : SameShape b b :=
  ⟨rfl, rfl, rfl, rfl, rfl⟩

theorem SameShape.serves_iff {b' : ByteArray} (h : SameShape b b') :
    Serves b' size position ↔ Serves b size position := by
  rw [Serves, Serves, h.baseSize_eq, h.capacity_eq, h.size_eq, h.position_eq]

theorem nodeAt_eq_of_capacity {b' : ByteArray} (h : Wf b) (h' : Wf b')
    (hbase : b'.baseSize = b.baseSize) (hcap : b'.capacity = b.capacity) (k : ℕ) :
    b'.nodeAt k = b.nodeAt k := by
  have hmul : b'.nodes.length * b.baseSize = b.nodes.length * b.baseSize := by
    rw [← h.capacity_eq, ← hcap, h'.capacity_eq, hbase]
  rw [nodeAt, nodeAt, Nat.eq_of_mul_eq_mul_right h.base_pos hmul]

theorem SameShape.seated {b' : ByteArray} (hshape : SameShape b b') (h : Wf b)
    (hseated : b.cur = b.nodeAt (b.position / b.baseSize)) (hreach : callSystem.Reachable b b') :
    Wf b' ∧ b'.cur = b'.nodeAt (b'.position / b'.baseSize) := by
  have h' : Wf b' := hreach.invariant (fun _ _ _ _ h hstep => callSystem_step_wf h hstep) h
  refine ⟨h', ?_⟩
  rw [hshape.cur_eq, hseated, hshape.position_eq, hshape.baseSize_eq,
    nodeAt_eq_of_capacity h h' hshape.baseSize_eq hshape.capacity_eq]

/-- A request beyond the contents ends well only by the throw. -/
theorem readAt_beyond_iff (h : Wf b) (hbeyond : ¬ position + size ≤ b.size) :
    readAt size position b = positionalRead size position b ↔ sizeSub b.size position < size := by
  rw [positionalRead, if_neg hbeyond]
  constructor
  · intro heq
    by_contra hbound
    by_cases hroom : b.cur = none ∨ b.chain.length * b.baseSize < position % b.baseSize + size
    · rw [readAt_fault h (Nat.le_of_not_lt hbound) hroom] at heq
      cases heq
    · obtain ⟨hcur, hchain⟩ := not_or.mp hroom
      obtain ⟨i, hi⟩ := Option.ne_none_iff_exists'.mp hcur
      rw [readAt_ok h hi (Nat.le_of_not_lt hbound) (Nat.le_of_not_lt hchain)] at heq
      cases heq
  · exact readAt_throw

/-- A request within the contents is answered from the cursor's node. -/
theorem readAt_within_iff (h : Wf b) (hseated : b.cur = b.nodeAt (b.position / b.baseSize))
    (hwithin : position + size ≤ b.size) :
    readAt size position b = positionalRead size position b ↔
      b.position < b.capacity ∧
        b.nodeBytes size position = ((flat b.nodes).drop position).take size := by
  have hsle := h.size_le
  have hbound : size ≤ sizeSub b.size position := by
    rw [sizeSub_of_le (by omega)]
    omega
  rw [positionalRead, if_pos hwithin]
  by_cases hlt : b.position < b.capacity
  · have hcur : b.cur = some (b.position / b.baseSize) := by
      rw [hseated, nodeAt_of_lt]
      apply Nat.div_lt_of_lt_mul
      rw [Nat.mul_comm, ← h.capacity_eq]
      exact hlt
    by_cases hroom : position % b.baseSize + size ≤ b.chain.length * b.baseSize
    · rw [readAt_ok h hcur hbound hroom, EStateM.Result.ok.injEq]
      simp only [hlt, true_and, and_true, nodeBytes]
    · -- the node list ends inside the request: there are too few bytes to be the right ones
      rw [readAt_fault h hbound (Or.inr (Nat.lt_of_not_le hroom))]
      refine iff_of_false nofun ?_
      rintro ⟨_, hbytes⟩
      have hmod := h.mod_lt position
      have hone : b.baseSize ≤ b.chain.length * b.baseSize :=
        Nat.le_mul_of_pos_left _ (List.length_pos_iff.mpr (h.chain_ne hcur))
      have hlen := congrArg List.length hbytes
      have hchain := h.length_chain hcur
      rw [nodeBytes, List.length_take, List.length_take, List.length_drop, List.length_drop,
        h.length_flat] at hlen
      omega
  · have hcur : b.cur = none := by
      rw [hseated, nodeAt_of_ge]
      rw [Nat.le_div_iff_mul_le h.base_pos, ← h.capacity_eq]
      exact Nat.le_of_not_lt hlt
    rw [readAt_fault h hbound (Or.inl hcur)]
    exact iff_of_false nofun fun hserves => hlt hserves.1

theorem readAt_of_serves (h : Wf b) (hseated : b.cur = b.nodeAt (b.position / b.baseSize))
    (hserves : Serves b size position) :
    readAt size position b = positionalRead size position b := by
  rw [Serves] at hserves
  by_cases hwithin : position + size ≤ b.size
  · rw [if_pos hwithin] at hserves
    refine (readAt_within_iff h hseated hwithin).mpr ⟨hserves.1, ?_⟩
    rcases hserves.2 with rfl | hnode
    · rw [nodeBytes, List.take_zero, List.take_zero]
    · rw [nodeBytes, ← hnode, Nat.div_add_mod']
  · rw [if_neg hwithin] at hserves
    exact (readAt_beyond_iff h hwithin).mpr hserves

/-- The public calls can write over any byte of the contents and come back. -/
theorem exists_overwritten (h : Wf b) (hseated : b.cur = b.nodeAt (b.position / b.baseSize))
    (hp : position < b.size) (c : UInt8) :
    ∃ b', callSystem.Reachable b b' ∧ SameShape b b' ∧
      flat b'.nodes = (flat b.nodes).set position c := by
  have hsle := h.size_le
  have hle := h.position_le
  have hset₁ := setPosition_ok h (v := position) (by omega)
  have hwf₁ := wf_afterSetPosition h (v := position) (by omega)
  have hplace₁ := inPlace_afterSetPosition h position
  have hcur₁ : (b.afterSetPosition position).cur ≠ none := by
    rw [hplace₁ (show position < b.capacity by omega)]
    exact Option.some_ne_none _
  obtain ⟨b₁, b₂, j, hgrown, hj, hwrite, hwritten⟩ :=
    write_ok hwf₁ (List.cons_ne_nil c []) hcur₁
  -- there is room for the byte, so no node is added
  have hnodes : b₁.nodes = b.nodes := by
    obtain ⟨ext, hext⟩ := hgrown.nodes_eq
    have hlength := hgrown.length_nodes_of_room hwf₁ (show position + 1 ≤ b.capacity by omega)
    rw [hext, List.length_append] at hlength
    have hnil : ext = [] := List.length_eq_zero_iff.mp (by omega)
    rw [hext, hnil, List.append_nil]
    rfl
  have hbase : b₂.baseSize = b.baseSize := hwritten.baseSize_eq.trans hgrown.baseSize_eq
  have hcap : b₂.capacity = b.capacity := by
    rw [hwritten.capacity_eq, hgrown.wf.capacity_eq, hnodes, hgrown.baseSize_eq, h.capacity_eq]
    rfl
  have hsize : b₂.size = b.size := by
    rw [hwritten.size_eq, hgrown.position_eq, hgrown.size_eq]
    simp only [afterSetPosition, if_neg (show ¬ position > b.size by omega), List.length_singleton]
    omega
  have hset₂ := setPosition_ok hwritten.wf (v := b.position) (by omega)
  refine ⟨b₂.afterSetPosition b.position, ⟨[.setPosition position, .write [c],
    .setPosition b.position], [none, none, none], ?_⟩, ⟨hbase, hcap, ?_, rfl, ?_⟩, ?_⟩
  · simp [System.run, callSystem, Call.perform, hset₁, hwrite, hset₂]
  · rw [← hsize]
    simp only [afterSetPosition, if_neg (show ¬ b.position > b₂.size by omega)]
  · rw [hseated, ← nodeAt_eq_of_capacity h hwritten.wf hbase hcap, ← hbase]
    rfl
  · have hflat := hwritten.flat_eq
    rw [hgrown.cur_inPlace hwf₁ hplace₁ hj, hgrown.baseSize_eq, hgrown.position_eq,
      hwf₁.position_eq, hnodes] at hflat
    refine hflat.trans ?_
    rw [List.set_eq_take_append_cons_drop,
      if_pos (show position < (flat b.nodes).length by rw [h.length_flat]; omega)]
    simp [Segment.splice, afterSetPosition]

/-- In another node some contents give the wrong bytes. -/
theorem exists_wrong_bytes (h : Wf b) (hseated : b.cur = b.nodeAt (b.position / b.baseSize))
    (hwithin : position + size ≤ b.size) (hsize : size ≠ 0)
    (hnode : position / b.baseSize ≠ b.position / b.baseSize) :
    ∃ b', callSystem.Reachable b b' ∧ SameShape b b' ∧
      b'.nodeBytes size position ≠ ((flat b'.nodes).drop position).take size := by
  have hlt : position < (flat b.nodes).length := by
    have hsle := h.size_le
    rw [h.length_flat]
    omega
  have hne : b.position / b.baseSize * b.baseSize + position % b.baseSize ≠ position := by
    intro heq
    have hmod := Nat.div_add_mod' position b.baseSize
    exact hnode (Nat.eq_of_mul_eq_mul_right h.base_pos (by omega))
  -- a byte other than the one at the same offset of the cursor's node
  obtain ⟨c, hc⟩ : ∃ c : UInt8, (flat b.nodes)[b.position / b.baseSize * b.baseSize +
      position % b.baseSize]? ≠ some c := by
    by_contra hall
    have h₀ := not_not.mp (not_exists.mp hall 0)
    have h₁ := not_not.mp (not_exists.mp hall 1)
    exact absurd (h₀.symm.trans h₁) (by decide)
  obtain ⟨b', hreach, hshape, hflat⟩ :=
    exists_overwritten h hseated (by omega : position < b.size) c
  refine ⟨b', hreach, hshape, ?_⟩
  intro heq
  have hfirst := congrArg (fun l : List UInt8 => l[0]?) heq
  simp only [nodeBytes, hshape.baseSize_eq, hshape.position_eq, hflat,
    List.getElem?_take_of_lt (Nat.pos_of_ne_zero hsize), List.getElem?_drop, Nat.add_zero,
    List.getElem?_set_self hlt, List.getElem?_set_ne hne.symm] at hfirst
  exact hc hfirst

end Positional

/--
**Positional read.**  Whatever the array went through and wherever `setPosition` put the
position, the read gives the stored bytes, or throws beyond them, for all contents that the
public calls can put there, exactly if the caller's position is in the node of the current
one (or no byte is asked for), or the request is beyond the contents and the bound, which
wraps for a position beyond them, is still too small.
-/
theorem readAt_positional_iff {baseSize : ℕ} (hbase : 1 ≤ baseSize) (uninit : ℕ → UInt8)
    {b₀ b : ByteArray} (hreach : callSystem.Reachable (new baseSize uninit) b₀)
    {v : ℕ} (hset : setPosition v b₀ = .ok () b) (size position : ℕ) :
    (∀ b', callSystem.Reachable b b' → SameShape b b' →
      readAt size position b' = positionalRead size position b') ↔
      Serves b size position := by
  have hwf₀ : Wf b₀ :=
    System.Reachable.invariant (fun _ _ _ _ h hstep => callSystem_step_wf h hstep)
      (wf_new hbase uninit) hreach
  have hv : v ≤ b₀.capacity := by
    by_contra hgt
    rw [setPosition_throw (Nat.lt_of_not_le hgt)] at hset
    cases hset
  rw [setPosition_ok hwf₀ hv, EStateM.Result.ok.injEq] at hset
  have hwf : Wf b := hset.2 ▸ wf_afterSetPosition hwf₀ hv
  have hseated : b.cur = b.nodeAt (b.position / b.baseSize) := by
    rw [← hset.2]
    rfl
  constructor
  · intro hall
    have hself := hall b ⟨[], [], rfl⟩ (.refl b)
    rw [Serves]
    by_cases hwithin : position + size ≤ b.size
    · rw [if_pos hwithin]
      refine ⟨((readAt_within_iff hwf hseated hwithin).mp hself).1, ?_⟩
      by_contra hother
      obtain ⟨hsize, hnode⟩ := not_or.mp hother
      obtain ⟨b', hreach', hshape, hwrong⟩ := exists_wrong_bytes hwf hseated hwithin hsize hnode
      obtain ⟨hwf', hseated'⟩ := hshape.seated hwf hseated hreach'
      have hright := (readAt_within_iff hwf' hseated' (hshape.size_eq ▸ hwithin)).mp
        (hall b' hreach' hshape)
      exact hwrong hright.2
    · rw [if_neg hwithin]
      exact (readAt_beyond_iff hwf hwithin).mp hself
  · intro hserves b' hreach' hshape
    obtain ⟨hwf', hseated'⟩ := hshape.seated hwf hseated hreach'
    exact readAt_of_serves hwf' hseated' (hshape.serves_iff.mpr hserves)

/-- One byte of the second node, with the position in that node. -/
theorem readAt_positional_in_node :
    ∃ b₀ b,
      callSystem.run (new 2 (fun _ => 0)) [.write [1, 2, 3, 4]] = some ([none], b₀) ∧
      setPosition 3 b₀ = .ok () b ∧
      readAt 1 2 b = positionalRead 1 2 b ∧
      positionalRead 1 2 b = .ok [3] b :=
  ⟨_, _, rfl, rfl,
    (readAt_positional_iff Nat.one_lt_two.le (fun _ => 0)
      ⟨[.write [1, 2, 3, 4]], [none], rfl⟩ (v := 3) rfl 1 2).mpr
      ⟨by decide, Or.inr rfl⟩ _ ⟨[], [], rfl⟩ (.refl _), rfl⟩

/-- The same byte with the position in the first node: its byte comes back instead. -/
theorem readAt_answers_from_cursor_node :
    ∃ b₀ b,
      write [1, 2, 3, 4] (new 2 (fun _ => 0)) = .ok () b₀ ∧
      setPosition 0 b₀ = .ok () b ∧
      readAt 1 2 b = .ok [1] b ∧
      positionalRead 1 2 b = .ok [3] b :=
  ⟨_, _, rfl, rfl, rfl, rfl⟩

section Views

variable {b : ByteArray} {data : List UInt8} {pos : ℕ}

theorem regions_congr {f g : Node → ℕ} {ns : List Node} (hfg : ∀ n ∈ ns, f n = g n)
    (i npos ncap len : ℕ) :
    regions f i ns npos ncap len = regions g i ns npos ncap len := by
  induction ns generalizing i npos ncap len with
  | nil => rfl
  | cons n rest ih =>
    have hrest : ∀ m ∈ rest, f m = g m := fun m hm => hfg m (List.mem_cons_of_mem _ hm)
    have hhead : rest.head?.elim 0 f = rest.head?.elim 0 g := by
      cases rest with
      | nil => rfl
      | cons m rest => exact hrest m List.mem_cons_self
    rw [regions, regions, hhead, ih hrest]

theorem regions_node_lt {f : Node → ℕ} {ns : List Node} {i npos ncap len : ℕ} {iovs : List Iovec}
    (h : regions f i ns npos ncap len = some iovs) :
    ∀ iov ∈ iovs, iov.node < i + ns.length := by
  induction ns generalizing i npos ncap len iovs with
  | nil => cases h
  | cons n rest ih =>
    rw [regions] at h
    rw [List.length_cons]
    by_cases hfit : len ≤ ncap
    · rw [if_pos hfit, Option.some.injEq] at h
      subst h
      intro iov hiov
      rw [List.mem_singleton.mp hiov]
      dsimp only
      omega
    · rw [if_neg hfit] at h
      cases hrest : regions f (i + 1) rest 0 (rest.head?.elim 0 f) (len - ncap) with
      | none => simp [hrest] at h
      | some tail =>
        simp only [hrest, Option.some.injEq] at h
        subst h
        intro iov hiov
        rcases List.mem_cons.mp hiov with rfl | htail
        · dsimp only
          omega
        · have := ih hrest iov htail
          omega

theorem Positioned.getReadBuffersAt_eq (h : Positioned b data pos) (len : ℕ) :
    getReadBuffersAt len pos b = getReadBuffers len b := by
  have hwf := h.represents.wf
  have hpos : pos = b.position := h.represents.pos_eq
  subst hpos
  have hread := hwf.getReadSize_eq
  have hsle := hwf.size_le
  simp only [getReadBuffersAt, getReadBuffers]
  rw [← getReadSize]
  by_cases hzero : min b.getReadSize len = 0
  · rw [if_pos hzero, if_pos hzero]
  · have hcur := h.inPlace (by omega)
    rw [if_neg hzero, if_neg hzero, hcur, chain_of_cur hcur]
    cases hdrop : b.nodes.drop (b.position / b.baseSize) with
    | nil => rfl
    | cons n rest =>
      have hsize : ∀ m ∈ n :: rest, m.size = b.baseSize := by
        rw [← hdrop]
        exact hwf.sized.drop _
      dsimp only
      rw [regions_congr (g := fun _ => b.baseSize) hsize]

theorem getReadBuffers_node_lt (h : Wf b) {len k : ℕ} {iovs : List Iovec}
    (hbufs : getReadBuffers len b = .ok (k, iovs) b) :
    ∀ iov ∈ iovs, iov.node < b.nodes.length := by
  intro iov hiov
  unfold getReadBuffers at hbufs
  dsimp only at hbufs
  by_cases hzero : min b.getReadSize len = 0
  · rw [if_pos hzero] at hbufs
    cases hbufs
    cases hiov
  · rw [if_neg hzero] at hbufs
    cases hcur : b.cur with
    | none =>
      rw [hcur] at hbufs
      cases hbufs
    | some i =>
      obtain ⟨n, rest, hchain, hdrop⟩ := chain_cons h hcur
      have hi := (h.cur_some i hcur).1
      have hlength := congrArg List.length hdrop
      rw [List.length_drop] at hlength
      rw [hcur, hchain] at hbufs
      dsimp only at hbufs
      cases hregions : regions (fun _ => b.baseSize) i (n :: rest)
          (b.position % b.baseSize) (n.size - b.position % b.baseSize)
          (min b.getReadSize len) with
      | none =>
        rw [hregions] at hbufs
        cases hbufs
      | some cut =>
        rw [hregions] at hbufs
        cases hbufs
        have := regions_node_lt hregions iov hiov
        omega

theorem getReadBuffers_inside (h : Wf b) {len k : ℕ} {iovs : List Iovec} {bytes : List UInt8}
    (hbufs : getReadBuffers len b = .ok (k, iovs) b) (hcovers : Covers b iovs bytes) :
    ∀ iov ∈ iovs, 0 < iov.len ∧
      ∃ n, b.nodes[iov.node]? = some n ∧ iov.base + iov.len ≤ n.size := by
  intro iov hiov
  obtain ⟨hpos, hfit⟩ := hcovers.inside iov hiov
  have hget := List.getElem?_eq_getElem (getReadBuffers_node_lt h hbufs iov hiov)
  refine ⟨hpos, _, hget, ?_⟩
  rw [h.sized _ (List.getElem_mem _)]
  exact hfit

theorem Positioned.getReadBuffers (h : Positioned b data pos) (len : ℕ) :
    ∃ iovs,
      ByteArray.getReadBuffers len b = .ok (min len (data.length - pos), iovs) b ∧
      Covers b iovs ((data.drop pos).take (min len (data.length - pos))) := by
  have hwf := h.represents.wf
  have hread : b.getReadSize = data.length - pos := h.represents.readSize_eq
  rw [← hread, Nat.min_comm]
  by_cases hzero : min b.getReadSize len = 0
  · rw [hzero, getReadBuffers_empty hzero]
    exact ⟨[], rfl, ⟨by simp, by simp, nofun⟩⟩
  · have hsize := hwf.getReadSize_eq
    have hsle := hwf.size_le
    have hcur := h.inPlace (by omega)
    obtain ⟨iovs, hbufs, hcovers⟩ := @getReadBuffers_ok b hwf _ len hcur
    rw [h.represents.bytes_at_cursor hcur (fun _ => h.inPlace) (Nat.min_le_left _ _)] at hcovers
    exact ⟨iovs, hbufs, hcovers⟩

end Views

/--
**Scatter views.**  Behind any position in appended contents, both overloads give
the same regions; these are the readable bytes up to `len`, in order, none of them
empty and each within one node.
-/
theorem scatterViews_agree {baseSize : ℕ} (hbase : 1 ≤ baseSize) (uninit : ℕ → UInt8)
    {calls : List Call} (hcalls : ∀ c ∈ calls, c.isAppend = true) (len : ℕ) :
    ∃ os b, callSystem.run (new baseSize uninit) calls = some (os, b) ∧
      ∀ p ≤ b.size, ∃ b' iovs text,
        setPosition p b = .ok () b' ∧
        toString b' = .ok text b' ∧
        getReadBuffers len b' = .ok (min len (b.size - p), iovs) b' ∧
        getReadBuffersAt len p b' = .ok (min len (b.size - p), iovs) b' ∧
        (iovs.map Iovec.len).sum = min len (b.size - p) ∧
        (∀ iov ∈ iovs, 0 < iov.len ∧
          ∃ n, b'.nodes[iov.node]? = some n ∧ iov.base + iov.len ≤ n.size) ∧
        iovs.flatMap b'.iovBytes = text.take (min len (b.size - p)) := by
  obtain ⟨os, b, data, hrun, happ, _⟩ := (appending_new hbase uninit).run hcalls
  refine ⟨os, b, hrun, fun p hp => ?_⟩
  have hlen : data.length = b.size := happ.represents.length_data
  obtain ⟨b', hset, hpos, _, _, _⟩ := happ.represents.setPosition (v := p) (by rw [hlen]; exact hp)
  obtain ⟨iovs, hbufs, hcovers⟩ := hpos.getReadBuffers len
  have hat := hpos.getReadBuffersAt_eq len
  have hsum := hcovers.sum_len
  rw [List.length_take, List.length_drop] at hsum
  rw [hlen] at hbufs hcovers hsum
  refine ⟨b', iovs, data.drop p, hset, hpos.toString, hbufs, hat.trans hbufs, ?_,
    getReadBuffers_inside hpos.represents.wf hbufs hcovers, hcovers.bytes_eq⟩
  omega

/-- Five bytes in nodes of two, from the middle of the first node on. -/
theorem scatterViews_agree_across_nodes :
    (∀ c ∈ [Call.write [1, 2, 3], .typedWrite (.fuint16 5)], c.isAppend = true) ∧
    ∃ os b, callSystem.run (new 2 (fun _ => 0))
        [.write [1, 2, 3], .typedWrite (.fuint16 5)] = some (os, b) ∧
      ∀ p ≤ b.size, ∃ b' iovs text,
        setPosition p b = .ok () b' ∧
        toString b' = .ok text b' ∧
        getReadBuffers 4 b' = .ok (min 4 (b.size - p), iovs) b' ∧
        getReadBuffersAt 4 p b' = .ok (min 4 (b.size - p), iovs) b' ∧
        (iovs.map Iovec.len).sum = min 4 (b.size - p) ∧
        (∀ iov ∈ iovs, 0 < iov.len ∧
          ∃ n, b'.nodes[iov.node]? = some n ∧ iov.base + iov.len ≤ n.size) ∧
        iovs.flatMap b'.iovBytes = text.take (min 4 (b.size - p)) :=
  ⟨by decide, scatterViews_agree Nat.one_lt_two.le (fun _ => 0) (by decide) 4⟩

end ByteArray
end Civan
