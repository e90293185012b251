import Civan.Http.HeadTable
import Civan.Http.Session

/-!
# Assembling the body

After the head, `recvRequest` has `offset` bytes of the body in its buffer and
reads the rest.  The continuation read asks for `length` bytes at `&body[offset]`
where `length - offset` are left, so it is right only when nothing was buffered.
-/

namespace Civan
namespace Http

open MachineInt

section Reading

/-- What is left of the chunks after their first `n` bytes. -/
def dropBytes : ℕ → List (List UInt8) → List (List UInt8)
  | _, [] => []
  | n, c :: cs => if c.length ≤ n then dropBytes (n - c.length) cs else c.drop n :: cs

theorem flatten_dropBytes (n : ℕ) (chunks : List (List UInt8)) :
    (dropBytes n chunks).flatten = chunks.flatten.drop n := by
  induction chunks generalizing n with
  | nil => simp [dropBytes]
  | cons c cs ih =>
    rw [dropBytes, List.flatten_cons, List.drop_append]
    by_cases hle : c.length ≤ n
    · rw [if_pos hle, ih, List.drop_of_length_le hle, List.nil_append]
    · rw [if_neg hle, List.flatten_cons, Nat.sub_eq_zero_of_le (by omega), List.drop_zero]

theorem ne_nil_of_mem_dropBytes
    {n : ℕ} {chunks : List (List UInt8)} (hne : ∀ c ∈ chunks, c ≠ []) :
    ∀ c ∈ dropBytes n chunks, c ≠ [] := by
  induction chunks generalizing n with
  | nil => simp [dropBytes]
  | cons c cs ih =>
    have hcs : ∀ x ∈ cs, x ≠ [] := fun x hx => hne x (List.mem_cons_of_mem c hx)
    rw [dropBytes]
    by_cases hle : c.length ≤ n
    · rw [if_pos hle]
      exact ih hcs
    · rw [if_neg hle]
      intro x hx
      rcases List.mem_cons.mp hx with rfl | hx
      · exact List.ne_nil_of_length_pos (by rw [List.length_drop]; omega)
      · exact hcs x hx

theorem dropBytes_zero {chunks : List (List UInt8)} (hne : ∀ c ∈ chunks, c ≠ []) :
    dropBytes 0 chunks = chunks := by
  cases chunks with
  | nil => rfl
  | cons c cs =>
    have hc := List.length_pos_iff.mpr (hne c List.mem_cons_self)
    rw [dropBytes, if_neg (by omega), List.drop_zero]

theorem dropBytes_dropBytes (m n : ℕ) {chunks : List (List UInt8)} (hne : ∀ c ∈ chunks, c ≠ []) :
    dropBytes n (dropBytes m chunks) = dropBytes (m + n) chunks := by
  induction chunks generalizing m with
  | nil => rfl
  | cons c cs ih =>
    have hcs : ∀ x ∈ cs, x ≠ [] := fun x hx => hne x (List.mem_cons_of_mem c hx)
    simp only [dropBytes]
    by_cases hle : c.length ≤ m
    · rw [if_pos hle, if_pos (by omega), ih _ hcs]
      congr 1
      omega
    · rw [if_neg hle, dropBytes, List.length_drop, List.drop_drop]
      by_cases hsum : c.length ≤ m + n
      · rw [if_pos hsum, if_pos (by omega)]
        congr 1
        omega
      · rw [if_neg hsum, if_neg (by omega)]

/-- The bytes one `recv` of at most `n` bytes finds. -/
def firstRead (n : ℕ) : List (List UInt8) → List UInt8
  | [] => []
  | c :: _ => c.take (min n maxRwCount)

theorem length_firstRead_le (n : ℕ) (chunks : List (List UInt8)) :
    (firstRead n chunks).length ≤ n ∧ (firstRead n chunks).length < 2 ^ 31 := by
  have hmax : maxRwCount < 2 ^ 31 := by decide
  cases chunks with
  | nil => simp [firstRead]
  | cons c cs =>
    rw [firstRead, List.length_take]
    omega

theorem firstRead_prefix (n : ℕ) (chunks : List (List UInt8)) :
    firstRead n chunks <+: chunks.flatten := by
  cases chunks with
  | nil => exact List.prefix_rfl
  | cons c cs =>
    rw [firstRead, List.flatten_cons]
    exact (List.take_prefix _ _).trans (List.prefix_append _ _)

theorem recv_chunks (n : ℕ) {chunks : List (List UInt8)} (hne : ∀ c ∈ chunks, c ≠ []) :
    recv n (chunks.map .data) =
      (((firstRead n chunks).length : ℤ), firstRead n chunks,
        (dropBytes (firstRead n chunks).length chunks).map .data) := by
  cases chunks with
  | nil => rfl
  | cons c cs =>
    have hcs : ∀ x ∈ cs, x ≠ [] := fun x hx => hne x (List.mem_cons_of_mem c hx)
    simp only [List.map_cons, recv, firstRead]
    generalize min n maxRwCount = k
    by_cases hfit : c.length ≤ k
    · rw [List.take_of_length_le hfit, if_pos hfit, dropBytes, if_pos (Nat.le_refl _),
        Nat.sub_self, dropBytes_zero hcs]
    · rw [if_neg hfit, List.length_take, Nat.min_eq_left (by omega), dropBytes, if_neg hfit,
        List.map_cons]

theorem firstRead_pos {n : ℕ} (hn : 0 < n)
    {chunks : List (List UInt8)} (hne : ∀ c ∈ chunks, c ≠ []) (hchunks : chunks ≠ []) :
    0 < (firstRead n chunks).length := by
  have hmax : 0 < maxRwCount := by decide
  cases chunks with
  | nil => exact absurd rfl hchunks
  | cons c cs =>
    have hc := List.length_pos_iff.mpr (hne c List.mem_cons_self)
    rw [firstRead, List.length_take]
    omega

theorem size_dropBytes_lt {n : ℕ} (hn : 0 < n)
    {chunks : List (List UInt8)} (hchunks : chunks ≠ []) :
    Socket.size ((dropBytes n chunks).map .data) < Socket.size (chunks.map .data) := by
  have hle : ∀ (m : ℕ) (cs : List (List UInt8)),
      Socket.size ((dropBytes m cs).map .data) ≤ Socket.size (cs.map .data) := by
    intro m cs
    induction cs generalizing m with
    | nil => exact Nat.le_refl _
    | cons c cs ih =>
      rw [dropBytes]
      by_cases hfit : c.length ≤ m
      · rw [if_pos hfit]
        have := ih (m - c.length)
        simp only [List.map_cons, Socket.size]
        omega
      · rw [if_neg hfit]
        simp only [List.map_cons, Socket.size, List.length_drop]
        omega
  cases chunks with
  | nil => exact absurd rfl hchunks
  | cons c cs =>
    rw [dropBytes]
    by_cases hfit : c.length ≤ n
    · rw [if_pos hfit]
      have := hle (n - c.length) cs
      simp only [List.map_cons, Socket.size]
      omega
    · rw [if_neg hfit]
      simp only [List.map_cons, Socket.size, List.length_drop]
      omega

/-- The loop of `readFixSize`: it stores what it was to read and returns `length`
if enough arrives, and returns zero otherwise. -/
theorem readFixSizeLoop_chunks (length : ℕ) {fuel left : ℕ} (stored : List UInt8)
    {chunks : List (List UInt8)} (hne : ∀ c ∈ chunks, c ≠ [])
    (hfuel : Socket.size (chunks.map .data) < fuel) :
    readFixSizeLoop length fuel left stored (chunks.map .data) =
      some
        ⟨if left ≤ chunks.flatten.length then toInt32 length else 0,
          stored ++ chunks.flatten.take left, (dropBytes left chunks).map .data⟩ := by
  induction fuel generalizing left stored chunks with
  | zero => omega
  | succ fuel ih =>
    rw [readFixSizeLoop]
    by_cases hleft : left = 0
    · subst hleft
      simp [dropBytes_zero hne]
    · rw [if_neg (by omega)]
      by_cases hchunks : chunks = []
      · subst hchunks
        simp [recv, hleft, dropBytes]
      · have hpos := firstRead_pos (Nat.pos_of_ne_zero hleft) hne hchunks
        have hle := (length_firstRead_le left chunks).1
        obtain ⟨after, hflat⟩ := firstRead_prefix left chunks
        rw [Int.toNat_natCast, recv_chunks left hne]
        set bytes := firstRead left chunks with hbytes
        dsimp only
        rw [if_neg (by omega)]
        have hsub : (left : ℤ) - bytes.length = ((left - bytes.length : ℕ) : ℤ) := by omega
        have hsize := size_dropBytes_lt hpos hchunks
        have hloop := @ih (left - bytes.length) (stored ++ bytes)
          (dropBytes bytes.length chunks) (ne_nil_of_mem_dropBytes hne) (by omega)
        have hrest : (dropBytes bytes.length chunks).flatten = after := by
          rw [flatten_dropBytes, ← hflat, List.drop_left]
        have hlen : chunks.flatten.length = bytes.length + after.length := by
          rw [← hflat, List.length_append]
        have htake : bytes ++ after.take (left - bytes.length) = chunks.flatten.take left := by
          rw [← hflat, List.take_append, List.take_of_length_le hle]
        have hiff : left - bytes.length ≤ after.length ↔ left ≤ chunks.flatten.length := by
          omega
        rw [hsub, hloop, hrest, List.append_assoc, htake, dropBytes_dropBytes _ _ hne,
          Nat.add_sub_cancel' hle]
        simp only [hiff]

theorem readFixSize_chunks {length : ℕ} (hlt : length < 2 ^ 63)
    {chunks : List (List UInt8)} (hne : ∀ c ∈ chunks, c ≠ []) :
    readFixSize length (chunks.map .data) =
      some
        ⟨if length ≤ chunks.flatten.length then toInt32 length else 0,
          chunks.flatten.take length, (dropBytes length chunks).map .data⟩ := by
  rw [readFixSize, toInt64_of_lt hlt]
  exact readFixSizeLoop_chunks length [] hne (Nat.lt_succ_self _)

end Reading

section AfterHead

variable {M : Machine}

theorem onRequest_body {buffer : List UInt8} {d d' : ParserData} {r : Report}
    (h : onRequest buffer d r = .ok d') :
    d'.data.body = d.data.body := by
  have hstore : ∀ (set : HttpRequest → List UInt8 → HttpRequest) ptr n,
      storeToken set d ptr n = .ok d' →
      (∀ q v, (set q v).body = q.body) → d'.data.body = d.data.body := by
    intro set ptr n hstored hset
    rw [storeToken] at hstored
    split at hstored
    · cases hstored
    · cases hstored
      exact hset _ _
  cases r with
  | headerDone fpc =>
    cases h
    rfl
  | field fieldStart fieldLen mark fpc =>
    simp only [onRequest, onRequestHttpField] at h
    split at h
    · cases h
      rfl
    · split at h
      · cases h
      · split at h
        · cases h
        · cases h
          rfl
  | element kind start fpc =>
    cases kind with
    | requestUri =>
      cases h
      rfl
    | fragment =>
      simp only [onRequest, onRequestFragment] at h
      exact hstore _ _ _ h (fun _ _ => rfl)
    | requestPath =>
      simp only [onRequest, onRequestPath] at h
      exact hstore _ _ _ h (fun _ _ => rfl)
    | queryString =>
      simp only [onRequest, onRequestQuery] at h
      exact hstore _ _ _ h (fun _ _ => rfl)
    | requestMethod =>
      simp only [onRequest, onRequestMethod] at h
      split at h
      · split at h
        · cases h
        · cases h
          rfl
      · cases h
        rfl
    | httpVersion =>
      simp only [onRequest, onRequestVersion] at h
      split at h
      · cases h
        rfl
      · split at h
        · cases h
          rfl
        · split at h
          · cases h
          · cases h
            rfl

theorem foldlM_onRequest_body {buffer : List UInt8} {reports : List Report} {d d' : ParserData}
    (h : reports.foldlM (onRequest buffer) d = .ok d') :
    d'.data.body = d.data.body := by
  induction reports generalizing d with
  | nil =>
    cases h
    rfl
  | cons r reports ih =>
    rw [List.foldlM_cons] at h
    cases hr : onRequest buffer d r with
    | error e =>
      rw [hr] at h
      cases h
    | ok d₁ =>
      rw [hr] at h
      exact (ih h).trans (onRequest_body hr)

/-- A returning `execute` leaves the body alone and fewer than `2 ^ 31` bytes. -/
theorem execute_ok {h h' : HttpRequestParser} {buffer rest : List UInt8} {n : ℕ}
    (hexec : h.execute M buffer = .ok (n, h', rest)) :
    h'.data.body = h.data.body ∧ rest.length < 2 ^ 31 := by
  have hzero : toInt32 0 = 0 := toInt32_of_lt (by omega)
  rw [HttpRequestParser.execute] at hexec
  cases hinner : httpParserExecute M onRequest h.parser ⟨h.data, h.error⟩ buffer 0 with
  | error e =>
    rw [hinner] at hexec
    cases hexec
  | ok q =>
    rw [hinner] at hexec
    obtain ⟨offset, s, d⟩ := q
    cases hexec
    rw [httpParserExecute] at hinner
    dsimp only at hinner
    split at hinner
    next hlen =>
      cases hinner
      exact ⟨rfl, by rw [List.length_drop]; omega⟩
    next =>
      split at hinner
      next => cases hinner
      next =>
        split at hinner
        next => cases hinner
        next hsame =>
          have hlt : buffer.length < 2 ^ 31 := by
            apply toInt32_eq_self_iff.mp
            rw [hzero] at hsame
            simpa using (not_not.mp hsame).symm
          refine ⟨?_, by rw [List.length_drop]; omega⟩
          cases hfold : (exec M (buffer.drop 0) 0 h.parser.cs h.parser.enter).reports.foldlM
              (onRequest buffer) ⟨h.data, h.error⟩ with
          | error e =>
            rw [hfold] at hinner
            cases hinner
          | ok d₁ =>
            rw [hfold] at hinner
            dsimp only at hinner
            split at hinner
            next => cases hinner
            next =>
              cases hinner
              exact foldlM_onRequest_body hfold

/-- The head loop ends with the body still empty and the surplus within an `int`. -/
theorem recvHeadLoop_finished
    {buffSize fuel : ℕ} {h h' : HttpRequestParser} {data data' : List UInt8} {sock sock' : Socket}
    (hloop : recvHeadLoop M buffSize fuel h data sock = .finished h' data' sock') :
    h'.data.body = h.data.body ∧ data'.length < 2 ^ 31 := by
  induction fuel generalizing h data sock with
  | zero => cases hloop
  | succ fuel ih =>
    rw [recvHeadLoop] at hloop
    dsimp only at hloop
    split at hloop
    · cases hloop
    · split at hloop
      · cases hloop
      · rename_i n h₁ data₁ hexec
        obtain ⟨hbody, hlen⟩ := execute_ok hexec
        split at hloop
        · cases hloop
        · split at hloop
          · cases hloop
          · split at hloop
            · cases hloop
              exact ⟨hbody, hlen⟩
            · obtain ⟨ihbody, ihlen⟩ := ih hloop
              exact ⟨ihbody.trans hbody, ihlen⟩

theorem init_body (r : HttpRequest) : r.init.body = r.body := by
  simp only [HttpRequest.init]
  split <;> rfl

end AfterHead

section Body

variable {M : Machine} {lexicalCast : List UInt8 → Option (BitVec 64)}
variable {h : HttpRequestParser} {data : List UInt8} {chunks : List (List UInt8)}

/-- The body is the first `L` bytes after the head, nothing was stored outside it,
and only the bytes still missing were taken from the socket. -/
def BodyAssembled (L : ℕ) (data : List UInt8) (chunks : List (List UInt8)) (r : Recv) :
    Prop :=
  r.overrun = 0 ∧
    ∃ (req : HttpRequest) (chunks' : List (List UInt8)),
      r.result = .request req (chunks'.map .data) ∧
      req.body = (data ++ chunks.flatten).take L ∧
      chunks'.flatten = chunks.flatten.drop (L - data.length)

/-- A content length that is negative as `int64_t` is taken for no body at all. -/
theorem assembleBody_neg {length : ℤ} (hneg : length < 0)
    (r : HttpRequest) (data : List UInt8) (sock : Socket) :
    assembleBody length r data sock = ⟨.request r.init sock, 0⟩ := by
  rw [assembleBody, if_neg (by omega)]

theorem assembleBody_tooLong {L : ℕ} (hmax : stringMaxSize < L)
    (r : HttpRequest) (data : List UInt8) (sock : Socket) :
    assembleBody L r data sock = ⟨.abort .lengthError, 0⟩ := by
  rw [assembleBody, if_pos (by omega), if_pos (by omega)]

theorem assembleBody_buffered {L : ℕ} {data : List UInt8} (hpos : 0 < L)
    (hmax : L ≤ stringMaxSize) (hle : L ≤ data.length) (r : HttpRequest) (sock : Socket) :
    assembleBody L r data sock = ⟨.request { r with body := data.take L }.init sock, 0⟩ := by
  rw [assembleBody, if_pos (by omega), if_neg (by omega), if_neg (by omega), Int.toNat_natCast]

theorem assembleBody_read {L : ℕ} {data : List UInt8} {chunks : List (List UInt8)}
    (hmax : L ≤ stringMaxSize) (hlt : data.length < L)
    (hne : ∀ c ∈ chunks, c ≠ []) (r : HttpRequest) :
    assembleBody L r data (chunks.map .data) =
      if (if L ≤ chunks.flatten.length then toInt32 L else 0) ≤ 0 then
        ⟨.closed ((dropBytes L chunks).map .data),
          data.length + (chunks.flatten.take L).length - L⟩
      else
        ⟨.request { r with body := (data ++ chunks.flatten.take L).take L }.init
            ((dropBytes L chunks).map .data),
          data.length + (chunks.flatten.take L).length - L⟩ := by
  have hlt' : L < 2 ^ 63 := Nat.lt_of_le_of_lt hmax (by decide)
  rw [assembleBody, if_pos (by omega), if_neg (by omega), if_pos (by omega),
    Int.toNat_natCast, readFixSize_chunks hlt' hne]

/-- The continuation read is right only when nothing was buffered. -/
theorem assembleBody_read_iff {L : ℕ} {data : List UInt8} {chunks : List (List UInt8)}
    (hmax : L ≤ stringMaxSize) (hlt : data.length < L) (hne : ∀ c ∈ chunks, c ≠ [])
    (hsupply : L ≤ data.length + chunks.flatten.length) (r : HttpRequest) :
    BodyAssembled L data chunks (assembleBody L r data (chunks.map .data)) ↔
      data.length = 0 ∧ 0 < toInt32 L := by
  rw [assembleBody_read hmax hlt hne r]
  by_cases hempty : data.length = 0
  · obtain rfl := List.length_eq_zero_iff.mp hempty
    have henough : L ≤ chunks.flatten.length := by omega
    have hstored : (chunks.flatten.take L).length = L := by
      rw [List.length_take]
      omega
    rw [if_pos henough, hstored]
    by_cases hret : toInt32 L ≤ 0
    · rw [if_pos hret]
      refine iff_of_false ?_ (by omega)
      rintro ⟨_, req, _, hreq, _⟩
      cases hreq
    · rw [if_neg hret]
      refine iff_of_true ⟨by simp, _, dropBytes L chunks, rfl, ?_, ?_⟩ ⟨rfl, by omega⟩
      · rw [init_body, List.nil_append, List.nil_append, List.take_take, Nat.min_self]
      · rw [flatten_dropBytes, List.length_nil, Nat.sub_zero]
  · refine iff_of_false ?_ (fun hcond => hempty hcond.1)
    rintro ⟨hoverrun, req, _, hreq, _⟩
    by_cases henough : L ≤ chunks.flatten.length
    · have hstored : (chunks.flatten.take L).length = L := by
        rw [List.length_take]
        omega
      have hextra : data.length + L - L = 0 := by
        rw [if_pos henough, hstored] at hoverrun
        by_cases hret : toInt32 L ≤ 0
        · rw [if_pos hret] at hoverrun
          exact hoverrun
        · rw [if_neg hret] at hoverrun
          exact hoverrun
      omega
    · rw [if_neg henough, if_pos (le_refl _)] at hreq
      cases hreq

/--
Body assembly, for every content length, every surplus after the head and every
chunking of what follows, when the peer supplies the whole body.

It works exactly when the surplus already holds the body, or when there is no
surplus and the length is one that `resize` and the `int` result can carry.
-/
theorem recvRequest_body_iff {buffSize queryStart L : ℕ} {sock : Socket}
    (hhead : recvHead M buffSize queryStart sock = .finished h data (chunks.map .data))
    (hlength : (h.getContentLength lexicalCast).toNat = L) (hpos : 0 < L)
    (hne : ∀ c ∈ chunks, c ≠ []) (hsupply : L ≤ data.length + chunks.flatten.length) :
    BodyAssembled L data chunks (recvRequest M lexicalCast buffSize queryStart sock) ↔
      L ≤ data.length ∨ (data.length = 0 ∧ L ≤ stringMaxSize ∧ 0 < toInt32 L) := by
  obtain ⟨hbody, hdata⟩ := recvHeadLoop_finished hhead
  have hbounds : 2 ^ 31 ≤ stringMaxSize ∧ stringMaxSize < 2 ^ 63 := by decide
  have hL : L < 2 ^ 64 := by
    rw [← hlength]
    exact BitVec.isLt _
  have hrequest : recvRequest M lexicalCast buffSize queryStart sock =
      assembleBody (toInt64 L) h.data data (chunks.map .data) := by
    rw [recvRequest, hhead, ← hlength]
    rfl
  rw [hrequest]
  by_cases hhuge : 2 ^ 63 ≤ L
  · rw [assembleBody_neg (toInt64_neg hhuge hL)]
    refine iff_of_false ?_ (by omega)
    rintro ⟨_, req, chunks', hreq, hreqBody, _⟩
    have htake : ((data ++ chunks.flatten).take L).length = L := by
      rw [List.length_take, List.length_append]
      omega
    have hempty : req.body = [] := by
      injection hreq with hreq
      rw [← hreq, init_body]
      exact hbody
    rw [← hreqBody, hempty, List.length_nil] at htake
    omega
  · rw [toInt64_of_lt (by omega)]
    by_cases hlong : stringMaxSize < L
    · rw [assembleBody_tooLong hlong]
      refine iff_of_false ?_ (by omega)
      rintro ⟨_, req, _, hreq, _⟩
      cases hreq
    · by_cases hbuffered : L ≤ data.length
      · rw [assembleBody_buffered hpos (by omega) hbuffered]
        refine iff_of_true ⟨rfl, _, chunks, rfl, ?_, ?_⟩ (Or.inl hbuffered)
        · rw [init_body, List.take_append_of_le_length hbuffered]
        · rw [Nat.sub_eq_zero_of_le hbuffered, List.drop_zero]
      · rw [assembleBody_read_iff (by omega) (by omega) hne hsupply]
        constructor
        · rintro ⟨hzero, hret⟩
          exact Or.inr ⟨hzero, by omega, hret⟩
        · rintro (hle | ⟨hzero, _, hret⟩)
          · exact absurd hle hbuffered
          · exact ⟨hzero, hret⟩

/-- A number of decimal digits only, as the cast of the library reads it. -/
def decimalCast (s : List UInt8) : Option (BitVec 64) :=
  if s ≠ [] ∧ s.all (fun c => 48 ≤ c && c ≤ 57) then
    let n := s.foldl (fun n c => 10 * n + (c.toNat - 48)) 0
    if n < 2 ^ 64 then some (BitVec.ofNat 64 n) else none
  else
    none

/-- The parser after a head that announces three bytes. -/
def threeByteHead : HttpRequestParser :=
  ⟨⟨348, 38, 38, 33, 36, 14, 0, false, false⟩,
    ⟨.post, 0x11, true, bytesOf "/", [], [], [], [(bytesOf "Content-Length", bytesOf "3")]⟩, 0⟩

/-- A head in a read of its own, and the body in two more with a byte to spare. -/
theorem recvRequest_body_unbuffered :
    BodyAssembled 3 [] [bytesOf "ab", bytesOf "cd"]
      (recvRequest plainMachine decimalCast 4096 0
        [.data (bytesOf "POST / HTTP/1.1\r\nContent-Length: 3\r\n\r\n"),
          .data (bytesOf "ab"), .data (bytesOf "cd")]) := by
  have hhead :
      recvHead plainMachine 4096 0
          [.data (bytesOf "POST / HTTP/1.1\r\nContent-Length: 3\r\n\r\n"),
            .data (bytesOf "ab"), .data (bytesOf "cd")] =
        .finished threeByteHead [] ([bytesOf "ab", bytesOf "cd"].map .data) := by
    decide +kernel
  have hlength : (threeByteHead.getContentLength decimalCast).toNat = 3 := by decide +kernel
  exact (recvRequest_body_iff hhead hlength (by decide) (by decide) (by decide)).mpr
    (Or.inr ⟨rfl, by decide, by decide⟩)

/-- One byte of the body arrives with the head.  When exactly the other two follow,
the session waits for a third and closes; when more follows, it stores one byte
past the end of the body. -/
theorem recvRequest_body_partly_buffered :
    recvHead plainMachine 4096 0
        [.data (bytesOf "POST / HTTP/1.1\r\nContent-Length: 3\r\n\r\na"), .data (bytesOf "bc")] =
      .finished threeByteHead (bytesOf "a") [.data (bytesOf "bc")] ∧
    (threeByteHead.getContentLength decimalCast).toNat = 3 ∧
    ¬ BodyAssembled 3 (bytesOf "a") [bytesOf "bc"]
        (recvRequest plainMachine decimalCast 4096 0
          [.data (bytesOf "POST / HTTP/1.1\r\nContent-Length: 3\r\n\r\na"),
            .data (bytesOf "bc")]) ∧
    (recvRequest plainMachine decimalCast 4096 0
        [.data (bytesOf "POST / HTTP/1.1\r\nContent-Length: 3\r\n\r\na"),
          .data (bytesOf "bcd")]).overrun = 1 := by
  have hclosed :
      recvRequest plainMachine decimalCast 4096 0
          [.data (bytesOf "POST / HTTP/1.1\r\nContent-Length: 3\r\n\r\na"),
            .data (bytesOf "bc")] =
        ⟨.closed [], 0⟩ := by
    decide +kernel
  refine ⟨by decide +kernel, by decide +kernel, ?_, by decide +kernel⟩
  rw [hclosed]
  rintro ⟨_, req, _, hreq, _⟩
  cases hreq

end Body

end Http
end Civan
