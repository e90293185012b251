import Civan.Http.Session
import Civan.Lib.Segment
import Civan.Lib.TransferLoop

/-!
# Transferring a fixed number of bytes

`Stream::readFixSize(buffer, length)` and `Stream::writeFixSize(buffer, length)`
repeat the partial transfers of a stream until `length` bytes went through.  The
loops are right; what they return is not always.  `length` comes back as an `int`,
so that a complete transfer of no byte, or of `2 ^ 31` bytes and more, can look like
a failure, and the loops do not start at all for a length that is negative as
`int64_t`.

The stream is any type of states with a `read` and a `write` on it.
-/

namespace Civan
namespace Stream

open MachineInt Segment TransferLoop

section Model

variable {σ : Type}

/-- `read(buffer, length)`: the value returned, the bytes stored and the stream after. -/
abbrev ReadOp (σ : Type) := σ → ℕ → ℤ × List UInt8 × σ

/-- `write(buffer, length)` on the bytes at `buffer`. -/
abbrev WriteOp (σ : Type) := σ → List UInt8 → ℤ × σ

/-- A result is not positive, or between 1 and the number of bytes asked for, and as
many bytes are stored. -/
def PartialReads (read : ReadOp σ) : Prop :=
  ∀ s n, (read s n).1 ≤ n ∧ (read s n).2.1.length = (read s n).1.toNat

def PartialWrites (write : WriteOp σ) : Prop :=
  ∀ s bytes, (write s bytes).1 ≤ bytes.length

/-- The stream, the memory at `buffer`, and the bytes that came in so far. -/
structure Reading (σ : Type) where
  stream : σ
  buffer : List UInt8
  received : List UInt8

/-- The stream, and the bytes it took so far. -/
structure Writing (σ : Type) where
  stream : σ
  sent : List UInt8

/-- `read((char*)buffer + offset, left)`. -/
def readPart (read : ReadOp σ) (s : Reading σ) (offset left : ℕ) : ℤ × Reading σ :=
  let r := read s.stream left
  (r.1,
    { stream := r.2.2
      buffer := overwrite s.buffer offset r.2.1
      received := s.received ++ r.2.1 })

/-- `write((const char*)buffer + offset, left)`. -/
def writePart (write : WriteOp σ) (buffer : List UInt8) (s : Writing σ) (offset left : ℕ) :
    ℤ × Writing σ :=
  let offered := (buffer.drop offset).take left
  let r := write s.stream offered
  (r.1, { stream := r.2, sent := s.sent ++ offered.take r.1.toNat })

/-- Both loops, which differ in the transfer they repeat: `left` is an `int64_t`, and
the result an `int`. -/
def transferFixSize {τ : Type} (op : τ → ℕ → ℕ → ℤ × τ) (length : ℕ) (s : τ) :
    Option (Run τ) :=
  loop op (toInt32 length) ((toInt64 length).toNat + 1) (toInt64 length) 0 s

/-- `readFixSize(buffer, length)`. -/
def readFixSizeRaw (read : ReadOp σ) (length : ℕ) (buffer : List UInt8) (s : σ) :
    Option (Run (Reading σ)) :=
  transferFixSize (readPart read) length ⟨s, buffer, []⟩

/-- `writeFixSize(buffer, length)`. -/
def writeFixSizeRaw (write : WriteOp σ) (length : ℕ) (buffer : List UInt8) (s : σ) :
    Option (Run (Writing σ)) :=
  transferFixSize (writePart write buffer) length ⟨s, []⟩

/-- `write` asked to take the last `left` bytes of the buffer, with those it took. -/
def offer (write : WriteOp σ) (buffer : List UInt8) : ReadOp σ := fun s left =>
  let offered := buffer.drop (buffer.length - left)
  let r := write s offered
  (r.1, offered.take r.1.toNat, r.2)

/-- A run of a loop that moved the bytes `moved` tells what the stream answered. -/
structure Tells {τ : Type} (length : ℕ) (answers : List (ℤ × List UInt8)) (moved : List UInt8)
    (r : Run τ) : Prop where
  offset_eq : r.offset = total answers
  moved_eq : moved = items answers
  failed_eq : r.failed = failure answers
  ret_eq : r.ret = (failure answers).getD (toInt32 length)

/-- The result is positive after a complete transfer, and the failing result after
any other. -/
def Reports {τ : Type} (length : ℕ) (r : Run τ) : Prop :=
  if r.offset = length then 0 < r.ret else r.ret ≤ 0 ∧ r.failed = some r.ret

end Model

section Transfers

variable {σ τ : Type} {length : ℕ}

/-- A length that is negative as `int64_t` leaves nothing to transfer. -/
theorem toNat_toInt64 (hlength : length < 2 ^ 64) :
    length < 2 ^ 63 ∧ (toInt64 length).toNat = length ∨
      ¬ length < 2 ^ 63 ∧ (toInt64 length).toNat = 0 := by
  by_cases hsmall : length < 2 ^ 63
  · exact Or.inl ⟨hsmall, by rw [toInt64_of_lt hsmall, Int.toNat_natCast]⟩
  · have hneg := toInt64_neg (Nat.le_of_not_lt hsmall) hlength
    exact Or.inr ⟨hsmall, Int.toNat_eq_zero.mpr hneg.le⟩

/-- What a loop returns, and when that reports the transfer. -/
theorem transferFixSize_reports {op : τ → ℕ → ℕ → ℤ × τ} {I : ℕ → τ → Prop}
    (hlength : length < 2 ^ 64) (hbound : ∀ s offset n, (op s offset n).1 ≤ n)
    (hstep : ∀ s offset n, 0 < n → offset + n ≤ length → I offset s →
      I (offset + (op s offset n).1.toNat) (op s offset n).2)
    {s : τ} (hI : I 0 s) :
    ∃ r, transferFixSize op length s = some r ∧ I r.offset r.state ∧
      Ends op (toInt32 length) (toInt64 length).toNat r ∧
      (Reports length r ↔ length < 2 ^ 63 ∧ (r.offset < length ∨ 0 < toInt32 length)) := by
  have hint := toNat_toInt64 hlength
  have hsteps : ∀ s offset n, 0 < n → offset + n = (toInt64 length).toNat → I offset s →
      I (offset + (op s offset n).1.toNat) (op s offset n).2 :=
    fun s offset n hn hsum => hstep s offset n hn (by omega)
  obtain ⟨r, hloop, hinv, hends⟩ : ∃ r, transferFixSize op length s = some r ∧ _ :=
    loop_ends hbound hsteps (Nat.lt_succ_self _) (Nat.zero_add _) hI
  refine ⟨r, hloop, hinv, hends, ?_⟩
  rcases hint with ⟨hsmall, hint⟩ | ⟨hlarge, hint⟩
  · rw [hint] at hends
    cases hends with
    | complete hret _ hoffset =>
      rw [Reports, if_pos hoffset, hret, hoffset]
      constructor
      · intro hpos
        exact ⟨hsmall, Or.inr hpos⟩
      · rintro ⟨_, hpos⟩
        exact hpos.resolve_left (Nat.lt_irrefl _)
    | failed hret hfailed hoffset _ =>
      rw [Reports, if_neg hoffset.ne]
      exact iff_of_true ⟨hret, hfailed⟩ ⟨hsmall, Or.inl hoffset⟩
  · -- negative as `int64_t`: the loop is over before the first transfer
    rw [hint] at hends
    cases hends with
    | complete _ hfailed hoffset =>
      rw [Reports, if_neg (by omega), hfailed]
      exact iff_of_false (fun h => nomatch h.2) fun h => hlarge h.1
    | failed _ _ hoffset _ => omega

/-- The calls of a loop are those of the stream underneath, asked for what is left. -/
theorem transferFixSize_answers
    {op : τ → ℕ → ℕ → ℤ × τ} (ask : ReadOp σ) (view : τ → σ) (got : τ → List UInt8)
    (hlength : length < 2 ^ 64) (hbound : ∀ s offset n, (op s offset n).1 ≤ n)
    (hask : ∀ s offset n, 0 < n → offset + n = length →
      ∃ xs, ask (view s) n = ((op s offset n).1, xs, view (op s offset n).2) ∧
        got (op s offset n).2 = got s ++ xs)
    {s : τ} {r : Run τ} (hgot : got s = [])
    (hrun : transferFixSize op length s = some r)
    (hends : Ends op (toInt32 length) (toInt64 length).toNat r) :
    ∃ answers, Answers ask (toInt64 length).toNat (view s) answers (view r.state) ∧
      Tells length answers (got r.state) r := by
  have hint := toNat_toInt64 hlength
  obtain ⟨answers, hanswers, hoffset, hitems, hfailed⟩ :=
    loop_answers hbound (fun s offset n hn hsum => hask s offset n hn (by omega))
      (Nat.zero_add _) hrun
  rw [Nat.zero_add] at hoffset
  rw [hgot, List.nil_append] at hitems
  have hret : r.ret = r.failed.getD (toInt32 length) := by
    cases hends with
    | complete hret hnone _ => rw [hret, hnone, Option.getD_none]
    | failed _ hsome _ _ => rw [hsome, Option.getD_some]
  exact ⟨answers, hanswers, ⟨hoffset, hitems, hfailed, hfailed ▸ hret⟩⟩

/-- What came in stands at the start of the buffer, in order. -/
def ReadInPlace (buffer : List UInt8) (offset : ℕ) (s : Reading σ) : Prop :=
  s.received.length = offset ∧ s.buffer = s.received ++ buffer.drop offset

theorem readPart_inPlace {read : ReadOp σ} (hread : PartialReads read)
    {buffer : List UInt8} (hbuffer : buffer.length = length) {s : Reading σ} {offset n : ℕ}
    (hfit : offset + n ≤ length) (h : ReadInPlace buffer offset s) :
    ReadInPlace buffer (offset + (readPart read s offset n).1.toNat)
      (readPart read s offset n).2 := by
  obtain ⟨hlen, hbuf⟩ := h
  obtain ⟨hle, hbytes⟩ := hread s.stream n
  simp only [readPart, ReadInPlace]
  refine ⟨by rw [List.length_append, hlen, hbytes], ?_⟩
  have htotal : s.buffer.length = length := by
    rw [hbuf, List.length_append, List.length_drop, hlen]
    omega
  rw [overwrite_eq_splice (by rw [htotal, hbytes]; omega), splice, hbuf, ← hlen, List.take_left,
    ← List.drop_drop, List.drop_left, List.drop_drop, hbytes]

/-- The stream took the first bytes of the buffer, in order. -/
def WrittenInOrder (buffer : List UInt8) (offset : ℕ) (s : Writing σ) : Prop :=
  s.sent = buffer.take offset

theorem writePart_inOrder {write : WriteOp σ} (hwrite : PartialWrites write)
    {buffer : List UInt8} {s : Writing σ} {offset n : ℕ} (h : WrittenInOrder buffer offset s) :
    WrittenInOrder buffer (offset + (writePart write buffer s offset n).1.toNat)
      (writePart write buffer s offset n).2 := by
  have hle := hwrite s.stream ((buffer.drop offset).take n)
  rw [List.length_take] at hle
  simp only [writePart, WrittenInOrder] at h ⊢
  rw [h, List.take_add, List.take_take, Nat.min_eq_left (by omega)]

/-- With `n` bytes of the buffer left, those offered are its last `n`. -/
theorem writePart_offer (write : WriteOp σ) {buffer : List UInt8} (s : Writing σ) {offset n : ℕ}
    (hsum : buffer.length = offset + n) :
    ∃ xs, offer write buffer s.stream n = ((writePart write buffer s offset n).1, xs,
        (writePart write buffer s offset n).2.stream) ∧
      (writePart write buffer s offset n).2.sent = s.sent ++ xs := by
  have hoffered : (buffer.drop offset).take n = buffer.drop (buffer.length - n) := by
    rw [hsum, Nat.add_sub_cancel, List.take_of_length_le]
    rw [List.length_drop]
    omega
  simp only [offer, writePart, hoffered]
  exact ⟨_, rfl, rfl⟩

end Transfers

/--
**Transfers of a fixed size.**  Whatever a stream answers, both loops come to an end.  Their
calls are those of the stream, each for what is left, and they tell its answers: the bytes
that went through are the ones it gave or took, the first of the buffer, in order.  The result
reports the transfer exactly if the length is positive as `int64_t` and either the
transfer failed or the length is positive as `int` too.
-/
theorem fixSize_reports_iff {σ : Type} {read : ReadOp σ} (hread : PartialReads read)
    {write : WriteOp σ} (hwrite : PartialWrites write) {length : ℕ} (hlength : length < 2 ^ 64)
    {buffer : List UInt8} (hbuffer : buffer.length = length) (s : σ) :
    (∃ r answers, readFixSizeRaw read length buffer s = some r ∧
      Answers read (toInt64 length).toNat s answers r.state.stream ∧
      Tells length answers r.state.received r ∧
      r.state.received.length = r.offset ∧
      r.state.buffer = r.state.received ++ buffer.drop r.offset ∧
      (Reports length r ↔ length < 2 ^ 63 ∧ (r.offset < length ∨ 0 < toInt32 length))) ∧
    (∃ r answers, writeFixSizeRaw write length buffer s = some r ∧
      Answers (offer write buffer) (toInt64 length).toNat s answers r.state.stream ∧
      Tells length answers r.state.sent r ∧
      r.state.sent = buffer.take r.offset ∧
      (Reports length r ↔ length < 2 ^ 63 ∧ (r.offset < length ∨ 0 < toInt32 length))) := by
  constructor
  · have hbound : ∀ s offset n, (readPart read s offset n).1 ≤ n :=
      fun s _ n => (hread s.stream n).1
    obtain ⟨r, hrun, ⟨hlen, hbuf⟩, hends, hreports⟩ :=
      transferFixSize_reports (I := ReadInPlace buffer) hlength hbound
        (fun _ _ _ _ hfit h => readPart_inPlace hread hbuffer hfit h)
        (s := ⟨s, buffer, []⟩) ⟨rfl, rfl⟩
    obtain ⟨answers, hanswers, htells⟩ :=
      transferFixSize_answers read Reading.stream Reading.received hlength hbound
        (fun _ _ _ _ _ => ⟨_, rfl, rfl⟩) rfl hrun hends
    exact ⟨r, answers, hrun, hanswers, htells, hlen, hbuf, hreports⟩
  · have hbound : ∀ s offset n, (writePart write buffer s offset n).1 ≤ n := by
      intro s offset n
      have hle := hwrite s.stream ((buffer.drop offset).take n)
      rw [List.length_take] at hle
      simp only [writePart]
      omega
    obtain ⟨r, hrun, hsent, hends, hreports⟩ :=
      transferFixSize_reports (I := WrittenInOrder buffer) hlength hbound
        (fun _ _ _ _ _ h => writePart_inOrder hwrite h)
        (s := ⟨s, []⟩) rfl
    obtain ⟨answers, hanswers, htells⟩ :=
      transferFixSize_answers (offer write buffer) Writing.stream Writing.sent hlength hbound
        (fun s offset n _ hsum => writePart_offer write s (hbuffer.trans hsum.symm)) rfl hrun hends
    exact ⟨r, answers, hrun, hanswers, htells, hsent, hreports⟩

/-- A stream that hands out its bytes one at a time. -/
def oneByteRead : ReadOp (List UInt8) := fun s n =>
  ((s.take (min n 1)).length, s.take (min n 1), s.drop (min n 1))

/-- A stream that takes one byte at a time. -/
def oneByteWrite : WriteOp (List UInt8) := fun s bytes =>
  ((bytes.take 1).length, s)

theorem partialReads_oneByteRead : PartialReads oneByteRead := by
  intro s n
  simp only [oneByteRead, List.length_take]
  omega

theorem partialWrites_oneByteWrite : PartialWrites oneByteWrite := by
  intro s bytes
  simp only [oneByteWrite, List.length_take]
  omega

/-- Two bytes, one at a time. -/
theorem fixSize_reports_byte_by_byte :
    (∃ r, readFixSizeRaw oneByteRead 2 [0, 0] [7, 8] = some r ∧ Reports 2 r) ∧
    (∃ r, writeFixSizeRaw oneByteWrite 2 [0, 0] [7, 8] = some r ∧ Reports 2 r) := by
  have hsmall : (2 : ℕ) < 2 ^ 63 := by decide
  have hpos : 0 < toInt32 2 := by
    rw [toInt32_of_lt (by decide)]
    decide
  obtain ⟨⟨r, _, hread, _, _, _, _, hreports⟩, ⟨r', _, hwrite, _, _, _, hreports'⟩⟩ :=
    fixSize_reports_iff partialReads_oneByteRead partialWrites_oneByteWrite
      (by decide : 2 < 2 ^ 64) (rfl : [(0 : UInt8), 0].length = 2) [7, 8]
  exact ⟨⟨r, hread, hreports.mpr ⟨hsmall, Or.inr hpos⟩⟩,
    ⟨r', hwrite, hreports'.mpr ⟨hsmall, Or.inr hpos⟩⟩⟩

/-- A stream that always delivers, as much as an `int` can say. -/
def zeroRead : ReadOp Unit := fun _ n =>
  (((min n (2 ^ 31 - 1) : ℕ) : ℤ), List.replicate (min n (2 ^ 31 - 1)) 0, ())

theorem zeroRead_completes {length : ℕ} (hlength : length < 2 ^ 63) (buffer : List UInt8) :
    ∃ r, readFixSizeRaw zeroRead length buffer () = some r ∧
      r.offset = length ∧ r.ret = toInt32 length := by
  have hbound : ∀ s offset n, (readPart zeroRead s offset n).1 ≤ n := by
    intro s offset n
    simp only [readPart, zeroRead]
    omega
  obtain ⟨r, hrun, _, hends, _⟩ :=
    transferFixSize_reports (I := fun _ _ => True) (by omega : length < 2 ^ 64) hbound
      (fun _ _ _ _ _ _ => trivial) (s := ⟨(), buffer, []⟩) trivial
  refine ⟨r, hrun, ?_⟩
  rw [toInt64_of_lt hlength, Int.toNat_natCast] at hends
  cases hends with
  | complete hret _ hoffset => exact ⟨hoffset, hret⟩
  | failed hret _ _ hop =>
    obtain ⟨s, offset, n, hn, hfail⟩ := hop
    simp only [readPart, zeroRead] at hfail
    omega

/-- Complete transfers that look like failures: no byte, and `2 ^ 31` bytes. -/
theorem fixSize_misreports :
    (∃ r, readFixSizeRaw zeroRead 0 [] () = some r ∧ r.offset = 0 ∧ r.ret = 0) ∧
    (∃ r, readFixSizeRaw zeroRead (2 ^ 31) (List.replicate (2 ^ 31) 0) () = some r ∧
      r.offset = 2 ^ 31 ∧ r.ret = -2 ^ 31) := by
  obtain ⟨r₀, hrun₀, hoffset₀, hret₀⟩ := zeroRead_completes (by decide : 0 < 2 ^ 63) []
  obtain ⟨r₁, hrun₁, hoffset₁, hret₁⟩ :=
    zeroRead_completes (by decide : 2 ^ 31 < 2 ^ 63) (List.replicate (2 ^ 31) 0)
  rw [toInt32_eq] at hret₀ hret₁
  norm_num at hret₀ hret₁
  exact ⟨⟨r₀, hrun₀, hoffset₀, hret₀⟩, ⟨r₁, hrun₁, hoffset₁, by rw [hret₁]; norm_num⟩⟩

section Socket

/-- The transfer a session repeats: `recv` on its socket. -/
def recvPart (s : Http.Socket × List UInt8) (_offset left : ℕ) :
    ℤ × Http.Socket × List UInt8 :=
  let r := Http.recv left s.1
  (r.1, r.2.2, if r.1 ≤ 0 then s.2 else s.2 ++ r.2.1)

theorem readFixSizeLoop_eq_loop
    (length fuel : ℕ) (left : ℤ) (offset : ℕ) (stored : List UInt8) (sock : Http.Socket) :
    Http.readFixSizeLoop length fuel left stored sock =
      (loop recvPart (toInt32 length) fuel left offset (sock, stored)).map
        fun r => ⟨r.ret, r.state.2, r.state.1⟩ := by
  induction fuel generalizing left offset stored sock with
  | zero => rfl
  | succ fuel ih =>
    rw [Http.readFixSizeLoop, loop]
    by_cases hleft : left ≤ 0
    · rw [if_pos hleft, if_pos hleft, Option.map_some]
    · rw [if_neg hleft, if_neg hleft]
      by_cases hfail : (Http.recv left.toNat sock).1 ≤ 0
      · simp only [recvPart, if_pos hfail, Option.map_some]
      · simp only [recvPart, if_neg hfail]
        exact ih _ _ _ _

end Socket

end Stream
end Civan
