import Mathlib.Tactic
import Civan.ByteArray.Append
import Civan.Lib.TransferLoop

/-!
# Receiving into a ByteArray through a stream

`SocketStream::read(ba, length)` makes room for `length` bytes, offers the free
regions behind the position to `recvmsg` as one `iovec` per node and moves the
position by what arrived; `Stream::readFixSize(ba, length)` repeats it until all
bytes are there.  `recvmsg` fills the regions in order and may stop anywhere.
-/

namespace Civan
namespace Stream

open MachineInt Segment TransferLoop
open Civan.ByteArray (Op Positioned Represents Sized Wf InPlace flat regions)

section Model

/-- The answers of `recvmsg`, by number of the call and room offered; `none` is `-1`.
A socket that is not connected gives `-1` as well. -/
abbrev Source := ℕ → ℕ → Option (List UInt8)

/-- `recvmsg` as one that is asked for `total` bytes: its state is the number of the call. -/
def receive (recv : Source) (call total : ℕ) : ℤ × List UInt8 × ℕ :=
  match recv call total with
  | none => (-1, [], call + 1)
  | some bytes => (bytes.length, bytes, call + 1)

/-- The bytes go into the regions one after the other. -/
def scatter : List Iovec → List UInt8 → List Node → List Node
  | [], _, ns => ns
  | iov :: iovs, bytes, ns =>
    scatter iovs (bytes.drop iov.len)
      (ns.modify iov.node fun n => n.store iov.base (bytes.take iov.len))

/-- What one call of `read` shows: its return value, the bytes that arrived, and the
number of nodes after its `getWriteBuffers`. -/
structure Chunk where
  ret : ℤ
  bytes : List UInt8
  nodes : ℕ
deriving DecidableEq, Repr

/-- The return value, if the loop came to an end, the bytes that arrived, and the number
of nodes after each `getWriteBuffers`. -/
structure FixRead where
  ret : Option ℤ
  bytes : List UInt8
  nodes : List ℕ
deriving DecidableEq, Repr

/-- `SocketStream::read(ba, length)`. -/
def read (recv : ℕ → Option (List UInt8)) (length : ℕ) : Op Chunk := fun b =>
  match ByteArray.getWriteBuffers length b with
  | .error e b₁ => .error e b₁
  | .ok (_, iovs) b₁ =>
    match recv (iovs.map Iovec.len).sum with
    | none => .ok ⟨-1, [], b₁.nodes.length⟩ b₁
    | some bytes =>
      let b₂ := { b₁ with nodes := scatter iovs bytes b₁.nodes }
      let rt := toInt32 bytes.length
      if rt > 0 then
        match ByteArray.setPosition (b₂.getPosition + rt.toNat) b₂ with
        | .error e b₃ => .error e b₃
        | .ok _ b₃ => .ok ⟨rt, bytes, b₁.nodes.length⟩ b₃
      else
        .ok ⟨rt, bytes, b₁.nodes.length⟩ b₂

/-- The loop of `Stream::readFixSize(ba, length)`, before call number `call`. -/
def readFixSizeLoop (recv : Source) (length : ℕ) : ℕ → ℕ → ℤ → Op FixRead
  | fuel, call, left => fun b =>
    if left ≤ 0 then
      .ok ⟨some (toInt32 length), [], []⟩ b
    else
      match fuel with
      | 0 => .ok ⟨none, [], []⟩ b
      | fuel + 1 =>
        match read (recv call) left.toNat b with
        | .error e b' => .error e b'
        | .ok c b' =>
          if c.ret ≤ 0 then
            .ok ⟨some c.ret, c.bytes, [c.nodes]⟩ b'
          else
            match readFixSizeLoop recv length fuel (call + 1) (left - c.ret) b' with
            | .error e b'' => .error e b''
            | .ok r b'' => .ok ⟨r.ret, c.bytes ++ r.bytes, c.nodes :: r.nodes⟩ b''

/-- `Stream::readFixSize(ba, length)`, for at most `fuel` calls of `read`. -/
def readFixSize (recv : Source) (fuel length : ℕ) : Op FixRead :=
  readFixSizeLoop recv length fuel 0 (toInt64 length)

end Model

section Scatter

variable {nextCap : Node → ℕ} {b npos len : ℕ} {iovs : List Iovec}

theorem modify_append_cons (pre : List Node) (n : Node) (rest : List Node) (f : Node → Node) :
    (pre ++ n :: rest).modify pre.length f = pre ++ f n :: rest := by
  induction pre with
  | nil => rfl
  | cons m pre ih => simpa using ih

/-- What arrives in the regions is spliced into the nodes they were cut from. -/
theorem scatter_regions (pre : List Node) {ns : List Node} (hns : Sized b ns)
    (hcap : ∀ n ∈ ns, nextCap n = b) (hpos : npos < b)
    (hregions : regions nextCap pre.length ns npos (b - npos) len = some iovs)
    {bytes : List UInt8} (hbytes : bytes.length ≤ len) :
    ∃ ns', scatter iovs bytes (pre ++ ns) = pre ++ ns' ∧ Sized b ns' ∧
      ns'.length = ns.length ∧ flat ns' = splice (flat ns) npos bytes := by
  induction ns generalizing pre npos len iovs bytes with
  | nil => cases hregions
  | cons n rest ih =>
    have hn : n.size = b := hns.head
    have hptr : n.ptr.length = b := n.length_ptr.trans hn
    rw [regions] at hregions
    by_cases hfit : len ≤ b - npos
    · rw [if_pos hfit, Option.some.injEq] at hregions
      subst hregions
      refine ⟨n.store npos bytes :: rest, ?_, ?_, rfl, ?_⟩
      · simp only [scatter, modify_append_cons]
        rw [List.take_of_length_le hbytes]
      · exact Sized.cons ((n.store_size npos bytes).trans hn) hns.tail
      · rw [ByteArray.flat_cons, ByteArray.flat_cons, n.store_ptr (by omega),
          splice_append_left (by omega)]
    · rw [if_neg hfit] at hregions
      cases hrest : regions nextCap (pre.length + 1) rest 0
          (rest.head?.elim 0 nextCap) (len - (b - npos)) with
      | none => simp [hrest] at hregions
      | some iovs' =>
        simp only [hrest, Option.some.injEq] at hregions
        subst hregions
        have hcap' : ∀ m ∈ rest, nextCap m = b :=
          fun m hm => hcap m (List.mem_cons_of_mem _ hm)
        have hne : rest ≠ [] := by
          rintro rfl
          cases hrest
        rw [ByteArray.head_nextCap hcap' hne] at hrest
        have hdrop : (bytes.drop (b - npos)).length ≤ len - (b - npos) := by
          rw [List.length_drop]
          omega
        obtain ⟨rest', hscatter, hsized, hlength, hflat⟩ :=
          ih (pre ++ [n.store npos (bytes.take (b - npos))]) hns.tail hcap'
            (Nat.zero_lt_of_lt hpos) (by simpa using hrest) hdrop
        refine ⟨n.store npos (bytes.take (b - npos)) :: rest', ?_, ?_, ?_, ?_⟩
        · simp only [scatter, modify_append_cons]
          simpa using hscatter
        · exact Sized.cons ((n.store_size _ _).trans hn) hsized
        · rw [List.length_cons, List.length_cons, hlength]
        · have hin : npos + (bytes.take (b - npos)).length ≤ n.size := by
            rw [List.length_take]
            omega
          rw [ByteArray.flat_cons, ByteArray.flat_cons, n.store_ptr hin, hflat,
            splice_append (by omega), hptr]

end Scatter

section Receive

/-- Every `recvmsg` delivers at least one byte and at most what there is room for. -/
def PartialRecvs (recv : Source) : Prop :=
  ∀ call total, 0 < total → ∃ bytes, recv call total = some bytes ∧
    1 ≤ bytes.length ∧ bytes.length ≤ total

theorem Answers.cons_receive
    {recv : Source} {call left last : ℕ} {bytes : List UInt8} {answers : List (ℤ × List UInt8)}
    (hleft : 0 < left) (hanswer : recv call left = some bytes) (hpos : 1 ≤ bytes.length)
    (h : Answers (receive recv) (left - bytes.length) (call + 1) answers last) :
    Answers (receive recv) left call (((bytes.length : ℤ), bytes) :: answers) last := by
  have hreceive : receive recv call left = ((bytes.length : ℤ), bytes, call + 1) := by
    rw [receive, hanswer]
  exact .cons hleft hreceive (Int.natCast_pos.mpr hpos) h

variable {b : ByteArray} {data : List UInt8}

/-- `getWriteBuffers` makes room at the cursor, and what is put into its regions is
spliced into the nodes there. -/
theorem getWriteBuffers_scatter (h : Wf b) {len : ℕ} (hlen : 0 < len) (hcur : b.cur ≠ none) :
    ∃ b' i iovs,
      ByteArray.Grown b b' len ∧ b'.cur = some i ∧
      ByteArray.getWriteBuffers len b = .ok (len, iovs) b' ∧
      (iovs.map Iovec.len).sum = len ∧
      ∀ bytes : List UInt8, bytes.length ≤ len →
        Sized b'.baseSize (scatter iovs bytes b'.nodes) ∧
        (scatter iovs bytes b'.nodes).length = b'.nodes.length ∧
        flat (scatter iovs bytes b'.nodes) =
          splice (flat b'.nodes) (i * b'.baseSize + b'.position % b'.baseSize) bytes := by
  obtain ⟨b', i, n, rest, iovs, hgrown, hi, hdrop, hbuffers, hregions, hcovers⟩ :=
    ByteArray.getWriteBuffers_regions h hlen hcur
  have hwf := hgrown.wf
  have hlt := (hwf.cur_some i hi).1
  have hroom : b'.position + len ≤ b'.capacity := by
    rw [hgrown.position_eq]
    exact hgrown.room
  have hsum : (iovs.map Iovec.len).sum = len := by
    have hchain := hwf.chain_room hi hroom
    rw [ByteArray.chain_of_cur hi] at hchain
    rw [hcovers.sum_len, List.length_take, ← List.drop_drop, ← hwf.sized.flat_drop,
      List.length_drop, (hwf.sized.drop i).length_flat]
    omega
  refine ⟨b', i, iovs, hgrown, hi, hbuffers, hsum, ?_⟩
  intro bytes hbytes
  have hsplit : b'.nodes = b'.nodes.take i ++ n :: rest := by rw [← hdrop, List.take_append_drop]
  have hlength : (b'.nodes.take i).length = i :=
    List.length_take_of_le hlt.le
  have hsized : Sized b'.baseSize (n :: rest) := by
    rw [← hdrop]
    exact hwf.sized.drop i
  have hfront : (flat (b'.nodes.take i)).length = i * b'.baseSize := by
    rw [(hwf.sized.take i).length_flat, hlength]
  rw [hsized.head] at hregions
  rw [← hlength] at hregions
  obtain ⟨ns', hscatter, hsized', hlength', hflat⟩ :=
    scatter_regions _ hsized hsized (hwf.mod_lt _) hregions hbytes
  rw [← hsplit] at hscatter
  rw [hscatter]
  refine ⟨(hwf.sized.take i).append hsized', ?_, ?_⟩
  · rw [List.length_append, hlength', ← List.length_append, ← hsplit]
  · rw [ByteArray.flat_append, hflat, ← splice_append_right, ← ByteArray.flat_append, ← hsplit,
      hfront]

theorem Wf.setNodes (h : Wf b) {ns : List Node} (hsized : Sized b.baseSize ns)
    (hlength : ns.length = b.nodes.length) :
    Wf { b with nodes := ns } where
  base_pos := h.base_pos
  sized := hsized
  nodes_ne := by
    rw [← List.length_pos_iff, hlength, List.length_pos_iff]
    exact h.nodes_ne
  capacity_eq := by
    rw [hlength]
    exact h.capacity_eq
  position_le := h.position_le
  size_le := h.size_le
  cur_some := by
    rw [hlength]
    exact h.cur_some
  cur_none := h.cur_none

/-- With the bytes spliced in at the position, moving the position appends them. -/
theorem positioned_of_spliced {l bytes : List UInt8} (h : Wf b) (hsize : b.size = data.length)
    (hflat : flat b.nodes = splice l data.length bytes) (hdata : l.take data.length = data)
    (hpos : 1 ≤ bytes.length)
    (hroom : data.length + bytes.length ≤ b.capacity) (hl : b.capacity = l.length) :
    Positioned (b.afterSetPosition (data.length + bytes.length))
      (data ++ bytes) (data ++ bytes).length where
  represents :=
    { wf := ByteArray.wf_afterSetPosition h hroom
      pos_eq := List.length_append
      data_eq := by
        have htake := take_splice (l := l) (s := bytes) (Nat.le_refl data.length) (by omega)
        rw [Nat.max_eq_right (Nat.le_add_right _ _), hdata, splice_length] at htake
        simp only [ByteArray.afterSetPosition]
        rw [if_pos (by omega), hflat, htake]
      cursor := Or.inl (ByteArray.inPlace_afterSetPosition h _) }
  inPlace := ByteArray.inPlace_afterSetPosition h _

/-- One partial read: what arrived is appended, and the position follows. -/
theorem read_received (h : Positioned b data data.length) (hcur : b.cur ≠ none)
    {left : ℕ} {bytes : List UInt8} {recv : ℕ → Option (List UInt8)} (hint : left < 2 ^ 31)
    (hrecv : recv left = some bytes) (hpos : 1 ≤ bytes.length) (hle : bytes.length ≤ left) :
    ∃ b₁ iovs b', ByteArray.getWriteBuffers left b = .ok (left, iovs) b₁ ∧
      read recv left b = .ok ⟨bytes.length, bytes, b₁.nodes.length⟩ b' ∧
      Positioned b' (data ++ bytes) (data ++ bytes).length ∧
      data.length + left ≤ b'.capacity ∧ b'.nodes.length = b₁.nodes.length ∧
      (data.length + left ≤ b.capacity → b₁.nodes.length = b.nodes.length) := by
  have hwf := h.represents.wf
  have hposition : b.position = data.length := h.represents.pos_eq.symm
  have hsize : b.size = data.length := h.represents.length_data.symm
  obtain ⟨b₁, i, iovs, hgrown, hi, hbuffers, hsum, hscatter⟩ :=
    getWriteBuffers_scatter hwf (by omega : 0 < left) hcur
  obtain ⟨hsized, hlength, hflat⟩ := hscatter bytes hle
  have hplace := hgrown.cur_inPlace hwf h.inPlace hi
  rw [hplace, hgrown.baseSize_eq, hgrown.position_eq, hwf.position_eq, hposition] at hflat
  have hwf₂ := Wf.setNodes hgrown.wf hsized hlength
  have hroom := hgrown.room
  rw [hposition] at hroom
  have hcap : data.length + bytes.length ≤ b₁.capacity :=
    Nat.le_trans (Nat.add_le_add_left hle _) hroom
  have hset := ByteArray.setPosition_ok hwf₂ hcap
  have hrt : toInt32 bytes.length = bytes.length := toInt32_of_lt (by omega)
  have hdata : (flat b₁.nodes).take data.length = data := by
    obtain ⟨ext, hext⟩ := hgrown.nodes_eq
    have hlen : data.length ≤ (flat b.nodes).length := by
      rw [hwf.length_flat, ← hsize]
      exact hwf.size_le
    rw [hext, ByteArray.flat_append, List.take_append_of_le_length hlen, ← hsize]
    exact h.represents.data_eq.symm
  refine ⟨b₁, iovs, _, hbuffers, ?_,
    positioned_of_spliced hwf₂ (hgrown.size_eq.trans hsize) hflat hdata hpos hcap
      hgrown.wf.length_flat.symm,
    hroom, hlength, ?_⟩
  · have hnext : b₁.position + bytes.length = data.length + bytes.length := by
      rw [hgrown.position_eq, hposition]
    rw [read, hbuffers]
    simp only [hsum, hrecv, hrt, Int.toNat_natCast, ByteArray.getPosition, hnext, hset]
    rw [if_pos (Int.natCast_pos.mpr hpos)]
  · intro hroom'
    exact hgrown.length_nodes_of_room hwf (by omega)

theorem readFixSizeLoop_receives {recv : Source} (hrecv : PartialRecvs recv)
    (length : ℕ) {fuel left : ℕ} (call : ℕ) (h : Positioned b data data.length)
    (hroom : data.length + left ≤ b.capacity) (hint : left < 2 ^ 31) (hfuel : left ≤ fuel) :
    ∃ b' r answers, readFixSizeLoop recv length fuel call left b = .ok r b' ∧
      r.ret = some (toInt32 length) ∧ r.bytes.length = left ∧
      Answers (receive recv) left call answers (call + answers.length) ∧
      r.bytes = items answers ∧ r.nodes = List.replicate answers.length b.nodes.length ∧
      Positioned b' (data ++ r.bytes) (data ++ r.bytes).length := by
  induction fuel generalizing b data left call with
  | zero =>
    obtain rfl := Nat.le_zero.mp hfuel
    refine ⟨b, _, [], rfl, rfl, rfl, .done _, rfl, rfl, ?_⟩
    rw [List.append_nil]
    exact h
  | succ fuel ih =>
    by_cases hzero : left = 0
    · subst hzero
      refine ⟨b, _, [], rfl, rfl, rfl, .done _, rfl, rfl, ?_⟩
      rw [List.append_nil]
      exact h
    · obtain ⟨bytes, hanswer, hpos, hle⟩ := hrecv call left (by omega)
      have hcur : b.cur ≠ none := by
        have hposition : b.position = data.length := h.represents.pos_eq.symm
        rw [h.inPlace (by omega)]
        exact Option.some_ne_none _
      obtain ⟨b₁, _, b₂, _, hread, h₂, hcap₂, hnodes₂, hnodes₁⟩ :=
        read_received h hcur hint hanswer hpos hle
      have hroom₂ : (data ++ bytes).length + (left - bytes.length) ≤ b₂.capacity := by
        rw [List.length_append]
        omega
      obtain ⟨b', r, answers, hrest, hret, hlength, hanswers, hbytes, hnodes, h'⟩ :=
        ih (call + 1) h₂ hroom₂ (by omega) (by omega)
      have hleft : (left : ℤ) - bytes.length = ((left - bytes.length : ℕ) : ℤ) := by omega
      rw [Nat.add_right_comm] at hanswers
      refine ⟨b', ⟨r.ret, bytes ++ r.bytes, b₁.nodes.length :: r.nodes⟩, _, ?_, hret, ?_,
        Answers.cons_receive (by omega) hanswer hpos hanswers, ?_, ?_, ?_⟩
      · simp only [readFixSizeLoop, Int.toNat_natCast, hread, hleft, hrest]
        rw [if_neg (by omega), if_neg (by omega)]
      · simp only [List.length_append, hlength]
        omega
      · simp only [hbytes, items, List.flatMap_cons]
      · rw [hnodes, hnodes₂, hnodes₁ hroom, List.length_cons, List.replicate_succ]
      · simp only [← List.append_assoc]
        exact h'

/--
For every node size: receiving `n` bytes into a new array, whatever part of them each
`recvmsg` delivers, returns `n` and leaves the position and the size at `n`.  The calls are
those of `recvmsg`, each for what is left; all nodes are there after the first
`getWriteBuffers`, at every call and at the end; read from the start, the array holds the
bytes of the answers in order.
-/
theorem readFixSize_receives {baseSize : ℕ} (hbase : 1 ≤ baseSize) (uninit : ℕ → UInt8)
    {n : ℕ} (hn : 0 < n) (hint : n < 2 ^ 31) {recv : Source} (hrecv : PartialRecvs recv)
    {fuel : ℕ} (hfuel : n ≤ fuel) :
    ∃ r b b₁ iovs b₂ answers,
      readFixSize recv fuel n (ByteArray.new baseSize uninit) = .ok r b ∧
      r.ret = some (n : ℤ) ∧ r.bytes.length = n ∧ b.getPosition = n ∧ b.size = n ∧
      Answers (receive recv) n 0 answers answers.length ∧ r.bytes = items answers ∧
      ByteArray.getWriteBuffers n (ByteArray.new baseSize uninit) = .ok (n, iovs) b₁ ∧
      r.nodes = List.replicate answers.length b₁.nodes.length ∧
      ByteArray.setPosition 0 b = .ok () b₂ ∧
      ByteArray.toString b₂ = .ok r.bytes b₂ := by
  have hnew := ByteArray.appending_new hbase uninit
  obtain ⟨fuel, rfl⟩ : ∃ k, fuel = k + 1 := ⟨fuel - 1, by omega⟩
  obtain ⟨bytes, hanswer, hpos, hle⟩ := hrecv 0 n hn
  -- only the first call finds too few nodes
  obtain ⟨b₁, iovs, b', hbuffers, hread, h', hcap, hnodes', _⟩ :=
    read_received ⟨hnew.represents, hnew.inPlace⟩ hnew.cur_ne hint hanswer hpos hle
  rw [List.nil_append] at h'
  rw [List.length_nil, Nat.zero_add] at hcap
  have hroom : bytes.length + (n - bytes.length) ≤ b'.capacity := by omega
  obtain ⟨b, r, answers, hrest, hret, hlength, hanswers, hbytes, hnodes, h⟩ :=
    readFixSizeLoop_receives hrecv n 1 h' hroom (by omega) (by omega : n - bytes.length ≤ fuel)
  obtain ⟨b₂, hset, hstart, _⟩ := h.represents.setPosition (v := 0) (Nat.zero_le _)
  have hn' : (bytes ++ r.bytes).length = n := by
    rw [List.length_append]
    omega
  rw [Nat.add_comm] at hanswers
  refine ⟨⟨r.ret, bytes ++ r.bytes, b₁.nodes.length :: r.nodes⟩, b, b₁, iovs, b₂, _,
    ?_, ?_, hn', ?_, ?_, Answers.cons_receive hn hanswer hpos hanswers, ?_, hbuffers, ?_,
    hset, ?_⟩
  · have hleft : (n : ℤ) - bytes.length = ((n - bytes.length : ℕ) : ℤ) := by omega
    rw [readFixSize, toInt64_of_lt (by omega)]
    simp only [readFixSizeLoop, Int.toNat_natCast, hread, hleft, hrest]
    rw [if_neg (by omega), if_neg (by omega)]
  · simp only [hret, toInt32_of_lt hint]
  · exact h.represents.pos_eq.symm.trans hn'
  · exact h.represents.length_data.symm.trans hn'
  · simp only [hbytes, items, List.flatMap_cons]
  · rw [hnodes, hnodes', List.length_cons, List.replicate_succ]
  · exact hstart.toString

/-- Three bytes into nodes of two, first one byte and then two. -/
theorem readFixSize_receives_across_nodes :
    ∃ r b b₂,
      readFixSize (fun call total => some ((if call = 0 then [1] else [2, 3]).take total)) 3 3
        (ByteArray.new 2 (fun _ => 0)) = .ok r b ∧
      r.ret = some 3 ∧ r.bytes.length = 3 ∧ b.getPosition = 3 ∧
      ByteArray.setPosition 0 b = .ok () b₂ ∧
      ByteArray.toString b₂ = .ok r.bytes b₂ := by
  have hrecv : PartialRecvs
      (fun call total => some ((if call = 0 then [1] else [2, 3]).take total)) := by
    intro call total htotal
    refine ⟨_, rfl, ?_, List.length_take_le _ _⟩
    rw [List.length_take]
    split <;> simp <;> omega
  obtain ⟨r, b, _, _, b₂, _, hrun, hret, hlength, hposition, _, _, _, _, _, hset, hstring⟩ :=
    readFixSize_receives (by decide : 1 ≤ 2) (fun _ => 0) (by decide : 0 < 3) (by decide) hrecv
      (Nat.le_refl 3)
  exact ⟨r, b, b₂, hrun, hret, hlength, hposition, hset, hstring⟩

end Receive

end Stream
end Civan
