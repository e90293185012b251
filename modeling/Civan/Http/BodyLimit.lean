import Civan.Http.BodyAssembly

/-!
# The limit on request bodies

`http.request.max_body_size` is read at the start, kept up to date by a listener
and returned by `GetHttpRequestMaxBodySize`.  `recvRequest` does not ask for it: the
body is made as large as the announced length, whatever the limit is.
-/

namespace Civan
namespace Http

open MachineInt

section Model

/-- `s_http_request_buffer_size` and `s_http_request_max_body_size`. -/
structure RequestSizes where
  bufferSize : BitVec 64
  maxBodySize : BitVec 64
deriving DecidableEq, Repr

/-- The configured defaults. -/
def RequestSizes.default : RequestSizes where
  bufferSize := 4 * 1024
  maxBodySize := 64 * 1024 * 1024

def getHttpRequestBufferSize (sizes : RequestSizes) : ℕ :=
  sizes.bufferSize.toNat

def getHttpRequestMaxBodySize (sizes : RequestSizes) : ℕ :=
  sizes.maxBodySize.toNat

/-- `recvRequest` under a configuration. -/
def recvRequestWith (M : Machine) (lexicalCast : List UInt8 → Option (BitVec 64))
    (sizes : RequestSizes) (queryStart : ℕ) (sock : Socket) : Recv :=
  recvRequest M lexicalCast (getHttpRequestBufferSize sizes) queryStart sock

/-- The buffer that `body.resize(length)` makes; beyond the longest string it throws
before it makes one. -/
def bodyAllocation (length : ℤ) : ℕ :=
  if 0 < length ∧ length ≤ stringMaxSize then length.toNat else 0

/-- The buffer for the body made by `recvRequest`. -/
def recvAllocation (M : Machine) (lexicalCast : List UInt8 → Option (BitVec 64))
    (sizes : RequestSizes) (queryStart : ℕ) (sock : Socket) : ℕ :=
  match recvHead M (getHttpRequestBufferSize sizes) queryStart sock with
  | .finished h _ _ => bodyAllocation (toInt64 (h.getContentLength lexicalCast).toNat)
  | _ => 0

/-- The session is closed or gives a request with a body within the limit. -/
def Recv.BodyWithin (max : ℕ) (r : Recv) : Prop :=
  match r.result with
  | .closed _ => True
  | .request req _ => req.body.length ≤ max
  | .abort _ => False
  | .outOfFuel => False

end Model

section Reading

theorem size_recv_lt {n : ℕ} {sock : Socket} (hpos : 0 < (recv n sock).1) :
    (recv n sock).2.2.size < sock.size := by
  cases sock with
  | nil => simp [recv] at hpos
  | cons a rest =>
    cases a with
    | error => simp [recv] at hpos
    | data bytes =>
      simp only [recv, List.length_take] at hpos ⊢
      by_cases hall : bytes.length ≤ min n maxRwCount
      · rw [if_pos hall]
        simp only [Socket.size]
        omega
      · rw [if_neg hall]
        simp only [Socket.size, List.length_drop]
        omega

theorem readFixSizeLoop_isSome (length : ℕ) {fuel : ℕ} {sock : Socket} (hfuel : sock.size < fuel)
    (left : ℤ) (stored : List UInt8) :
    ∃ r, readFixSizeLoop length fuel left stored sock = some r := by
  induction fuel generalizing left stored sock with
  | zero => omega
  | succ fuel ih =>
    rw [readFixSizeLoop]
    by_cases hleft : left ≤ 0
    · rw [if_pos hleft]
      exact ⟨_, rfl⟩
    · rw [if_neg hleft]
      by_cases hfail : (recv left.toNat sock).1 ≤ 0
      · simp only [if_pos hfail]
        exact ⟨_, rfl⟩
      · have hless := size_recv_lt (Int.lt_of_not_ge hfail)
        simp only [if_neg hfail]
        exact ih (Nat.lt_of_lt_of_le hless (Nat.le_of_lt_succ hfuel)) _ _

theorem readFixSize_isSome (length : ℕ) (sock : Socket) :
    ∃ r, readFixSize length sock = some r := by
  rw [readFixSize]
  exact readFixSizeLoop_isSome length (Nat.lt_succ_self sock.size) _ _

theorem recvHeadLoop_ne_outOfFuel (M : Machine) (buffSize : ℕ) {fuel : ℕ} {sock : Socket}
    (hfuel : sock.size < fuel) (h : HttpRequestParser) (data : List UInt8) :
    recvHeadLoop M buffSize fuel h data sock ≠ .outOfFuel := by
  induction fuel generalizing h data sock with
  | zero => omega
  | succ fuel ih =>
    rw [recvHeadLoop]
    dsimp only
    by_cases hfail : (recv (buffSize - data.length) sock).1 ≤ 0
    · rw [if_pos hfail]
      rintro ⟨⟩
    · have hless := size_recv_lt (Int.lt_of_not_ge hfail)
      rw [if_neg hfail]
      cases h.execute M (data ++ (recv (buffSize - data.length) sock).2.1) with
      | error e => rintro ⟨⟩
      | ok r =>
        dsimp only
        split_ifs
        · rintro ⟨⟩
        · rintro ⟨⟩
        · rintro ⟨⟩
        · exact ih (Nat.lt_of_lt_of_le hless (Nat.le_of_lt_succ hfuel)) _ _

end Reading

section Bound

variable {max : ℕ}

theorem Recv.BodyWithin.mono {r : Recv} {limit : ℕ} (h : r.BodyWithin limit) (hle : limit ≤ max) :
    r.BodyWithin max := by
  unfold Recv.BodyWithin at h ⊢
  cases hr : r.result with
  | closed sock => trivial
  | request req sock =>
    rw [hr] at h
    exact Nat.le_trans h hle
  | abort e =>
    rw [hr] at h
    exact h
  | outOfFuel =>
    rw [hr] at h
    exact h

/-- The body is never larger than the buffer made for it. -/
theorem assembleBody_within {length : ℤ} (hpos : 0 < length) (hmax : length ≤ stringMaxSize)
    (r : HttpRequest) (data : List UInt8) (sock : Socket) :
    (assembleBody length r data sock).BodyWithin length.toNat := by
  rw [assembleBody, if_pos hpos, if_neg (Int.not_lt.mpr hmax)]
  by_cases hlong : (data.length : ℤ) < length
  · obtain ⟨read, hread⟩ := readFixSize_isSome length.toNat sock
    rw [if_pos hlong, hread]
    by_cases hfail : read.ret ≤ 0
    · simp only [if_pos hfail, Recv.BodyWithin]
    · simp only [if_neg hfail, Recv.BodyWithin, init_body]
      exact List.length_take_le _ _
  · simp only [if_neg hlong, Recv.BodyWithin, init_body]
    exact List.length_take_le _ _

/-- Nothing but the announced length decides. -/
theorem assembleBody_within_iff {r : HttpRequest} (hbody : r.body = [])
    (length : ℤ) (data : List UInt8) (sock : Socket) :
    (assembleBody length r data sock).BodyWithin max ∧ bodyAllocation length ≤ max ↔
      length ≤ 0 ∨ (length ≤ max ∧ length ≤ stringMaxSize) := by
  by_cases hpos : 0 < length
  · by_cases hmax : length ≤ stringMaxSize
    · rw [bodyAllocation, if_pos ⟨hpos, hmax⟩]
      constructor
      · rintro ⟨_, halloc⟩
        exact Or.inr ⟨by omega, hmax⟩
      · intro hlength
        have hle : length.toNat ≤ max := by omega
        exact ⟨(assembleBody_within hpos hmax r data sock).mono hle, hle⟩
    · -- `resize` throws
      rw [assembleBody, if_pos hpos, if_pos (Int.lt_of_not_ge hmax)]
      refine iff_of_false (fun h => h.1) ?_
      omega
  · rw [assembleBody, if_neg hpos, bodyAllocation, if_neg fun h => hpos h.1]
    refine iff_of_true ⟨?_, Nat.zero_le _⟩ (Or.inl (Int.not_lt.mp hpos))
    simp only [Recv.BodyWithin, init_body, hbody, List.length_nil, Nat.zero_le]

end Bound

/--
**The body limit.**  A head ends in one of three ways.  A connection that ends inside it gives
no request; where the parser aborts there is neither a request nor a buffer.  After a complete
head the session is closed or gives a request within the limit, and makes no
larger buffer, exactly if the announced length is not positive as `int64_t`, or is
within the limit and not more than a string can hold.
-/
theorem recvRequest_body_within_iff (M : Machine) (lexicalCast : List UInt8 → Option (BitVec 64))
    (sizes : RequestSizes) (queryStart : ℕ) (sock : Socket) :
    let max := getHttpRequestMaxBodySize sizes
    let received := recvRequestWith M lexicalCast sizes queryStart sock
    let allocated := recvAllocation M lexicalCast sizes queryStart sock
    (∀ sock', recvHead M (getHttpRequestBufferSize sizes) queryStart sock = .closed sock' →
      received.BodyWithin max ∧ allocated ≤ max) ∧
    (∀ e, recvHead M (getHttpRequestBufferSize sizes) queryStart sock = .abort e →
      received.result = .abort e ∧ allocated = 0) ∧
    recvHead M (getHttpRequestBufferSize sizes) queryStart sock ≠ .outOfFuel ∧
    (∀ h data sock',
      recvHead M (getHttpRequestBufferSize sizes) queryStart sock = .finished h data sock' →
      let length := toInt64 (h.getContentLength lexicalCast).toNat
      (received.BodyWithin max ∧ allocated ≤ max ↔
        length ≤ 0 ∨ (length ≤ max ∧ length ≤ stringMaxSize))) := by
  intro max received allocated
  refine ⟨?_, ?_, recvHeadLoop_ne_outOfFuel M _ (Nat.lt_succ_self _) _ _, ?_⟩
  · intro sock' hhead
    simp only [received, allocated, recvRequestWith, recvRequest, recvAllocation, hhead]
    exact ⟨trivial, Nat.zero_le _⟩
  · intro e hhead
    simp only [received, allocated, recvRequestWith, recvRequest, recvAllocation, hhead, and_self]
  · intro h data sock' hhead length
    have hbody := (recvHeadLoop_finished hhead).1
    simp only [received, allocated, recvRequestWith, recvRequest, recvAllocation, hhead]
    exact assembleBody_within_iff hbody length data sock'

/-- Three bytes under the default limit. -/
theorem recvRequest_body_within_default :
    (recvRequestWith plainMachine decimalCast RequestSizes.default 0
        [.data (bytesOf "POST / HTTP/1.1\r\nContent-Length: 3\r\n\r\nabc")]).BodyWithin
      (64 * 1024 * 1024) := by
  have hhead :
      recvHead plainMachine (getHttpRequestBufferSize RequestSizes.default) 0
          [.data (bytesOf "POST / HTTP/1.1\r\nContent-Length: 3\r\n\r\nabc")] =
        .finished threeByteHead (bytesOf "abc") [] := by
    decide +kernel
  have hiff := (recvRequest_body_within_iff plainMachine decimalCast RequestSizes.default 0
    [.data (bytesOf "POST / HTTP/1.1\r\nContent-Length: 3\r\n\r\nabc")]).2.2.2 _ _ _ hhead
  exact (hiff.mpr (Or.inr (by decide +kernel))).1

/-- The same request under a limit of two bytes. -/
theorem recvRequest_ignores_limit :
    getHttpRequestMaxBodySize ⟨4096, 2⟩ = 2 ∧
    recvAllocation plainMachine decimalCast ⟨4096, 2⟩ 0
        [.data (bytesOf "POST / HTTP/1.1\r\nContent-Length: 3\r\n\r\nabc")] = 3 ∧
    recvRequestWith plainMachine decimalCast ⟨4096, 2⟩ 0
        [.data (bytesOf "POST / HTTP/1.1\r\nContent-Length: 3\r\n\r\nabc")] =
      ⟨.request { threeByteHead.data with body := bytesOf "abc" } [], 0⟩ := by
  decide +kernel

end Http
end Civan
