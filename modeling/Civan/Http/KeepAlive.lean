import Civan.Http.BodyAssembly
import Civan.Http.FragmentedHead

/-!
# HttpServer: requests on a kept-alive connection

`handleClient` calls `recvRequest` until the peer is done.  The buffer of
`recvRequest` is local to the call: what a read brings beyond the request it was
made for is in that buffer when the call returns, and is gone.  Requests are
framed exactly when each read that brings a head ends with that head or with
that request.
-/

namespace Civan
namespace Http

open MachineInt

/-- A request handed to the dispatcher, and what is then still on the socket. -/
structure Served where
  request : HttpRequest
  socket : Socket
deriving DecidableEq, Repr

/-- The loop of `HttpServer::handleClient` over `n` calls of `recvRequest`; the
`i`-th of them finds `queryStart i` in the uninitialised memory of its parser. -/
def handleClientLoop (M : Machine) (lexicalCast : List UInt8 → Option (BitVec 64))
    (buffSize : ℕ) (isKeepalive : Bool) :
    ℕ → (ℕ → ℕ) → Socket → List Served
  | 0, _, _ => []
  | n + 1, queryStart, sock =>
    match (recvRequest M lexicalCast buffSize (queryStart 0) sock).result with
    | .request r sock' =>
      ⟨r, sock'⟩ ::
        if !isKeepalive || r.close then
          []
        else
          handleClientLoop M lexicalCast buffSize isKeepalive n
            (fun i => queryStart (i + 1)) sock'
    | _ => []

/-- `HttpServer::handleClient`.  Each request takes a byte at least, so the socket
bounds the number of calls. -/
def handleClient (M : Machine) (lexicalCast : List UInt8 → Option (BitVec 64))
    (buffSize : ℕ) (isKeepalive : Bool) (queryStart : ℕ → ℕ) (sock : Socket) :
    List Served :=
  handleClientLoop M lexicalCast buffSize isKeepalive (sock.size + 1) queryStart sock

/-- The bytes still on a socket. -/
def Socket.bytes : Socket → List UInt8
  | [] => []
  | .error :: rest => Socket.bytes rest
  | .data bytes :: rest => bytes ++ Socket.bytes rest

/-- A well-formed request: a head that asks to keep the connection, and a body of
the length the head announces. -/
structure WireRequest (M : Machine) (lexicalCast : List UInt8 → Option (BitVec 64)) where
  head : List UInt8
  body : List UInt8
  queryStart : ℕ
  parser : HttpRequestParser
  parses : ParsesTo M queryStart head parser
  keepAlive :
    foldCase (parser.data.getHeader (bytesOf "connection") []) = foldCase (bytesOf "keep-alive")
  length_eq : (parser.getContentLength lexicalCast).toNat = body.length

section Framing

variable {M : Machine} {lexicalCast : List UInt8 → Option (BitVec 64)}

/-- The request a recipient should see. -/
def WireRequest.request (w : WireRequest M lexicalCast) : HttpRequest :=
  { w.parser.data with body := w.body }.init

/-- Requests one after another. -/
def wire (ws : List (WireRequest M lexicalCast)) : List UInt8 :=
  ws.flatMap fun w => w.head ++ w.body

/-- Each request in order, with the bytes of those after it still to be read. -/
def framing : List (WireRequest M lexicalCast) → List (HttpRequest × List UInt8)
  | [] => []
  | w :: ws => (w.request, wire ws) :: framing ws

/-- The server returns the requests in order, and loses no byte between them. -/
def Framed (served : List Served) (ws : List (WireRequest M lexicalCast)) : Prop :=
  served.map (fun s => (s.request, s.socket.bytes)) = framing ws

/-- The read made where a request starts brings its whole head. -/
def HeadsUncut (buffSize : ℕ) :
    List (WireRequest M lexicalCast) → List (List UInt8) → Prop
  | [], _ => True
  | w :: ws, chunks =>
    w.head <+: firstRead buffSize chunks ∧
    HeadsUncut buffSize ws (dropBytes (w.head ++ w.body).length chunks)

/-- A read that ends with the whole request `w`, or with its head and a body that
`resize` and an `int` can carry.  Either way what it leaves in the buffer must not
look like a full buffer to the test against `(int)buff_size`. -/
def WireRequest.EndsRead
    (buffSize : ℕ) (w : WireRequest M lexicalCast) (read : List UInt8) : Prop :=
  (read = w.head ++ w.body ∧ (w.body.length : ℤ) ≠ toInt32 buffSize) ∨
    (read = w.head ∧ toInt32 buffSize ≠ 0 ∧
      w.body.length ≤ stringMaxSize ∧ 0 < toInt32 w.body.length)

/-- Every read made where a request starts ends with that request or its head. -/
def ReadsEndRequests (buffSize : ℕ) :
    List (WireRequest M lexicalCast) → List (List UInt8) → Prop
  | [], _ => True
  | w :: ws, chunks =>
    w.EndsRead buffSize (firstRead buffSize chunks) ∧
    ReadsEndRequests buffSize ws (dropBytes (w.head ++ w.body).length chunks)

end Framing

section OneHead

variable {M : Machine} {queryStart buffSize : ℕ} {head : List UInt8} {h : HttpRequestParser}

theorem Report.not_startsBefore_zero (r : Report) : ¬ r.StartsBefore 0 := by
  cases r with
  | field fieldStart fieldLen mark fpc => simp [Report.StartsBefore]
  | headerDone fpc => simp [Report.StartsBefore]
  | element kind start fpc => cases kind <;> simp [Report.StartsBefore]

/-- The machine stops at the end of an accepted head, whatever follows it in the
buffer, and reports the tokens of the head. -/
theorem ParsesTo.execute_append (hp : ParsesTo M queryStart head h) (queryStart' : ℕ)
    {surplus : List UInt8} (hlen : (head ++ surplus).length < 2 ^ 31) :
    ∃ s',
      (HttpRequestParser.new queryStart').execute M (head ++ surplus) =
        .ok (head.length, ⟨s', h.data, 0⟩, surplus) ∧
      httpParserFirstFinal ≤ s'.cs := by
  obtain ⟨hfold, hfinal, hend⟩ := hp.run
  have hhead : head.length < 2 ^ 31 := hp.length_lt
  have hne : head ++ surplus ≠ [] := List.append_ne_nil_of_left_ne_nil hp.ne_nil surplus
  -- the registers of the two parsers differ in `query_start` only
  have haligned :
      Aligned 0 0 (M.phase httpParserStart)
        (httpParserInit queryStart').enter (httpParserInit queryStart).enter := by
    rw [M.phase_start]
    exact aligned_init queryStart' queryStart
  have hwin : Window (head ++ surplus) head 0 := ⟨surplus, List.drop_zero⟩
  obtain ⟨hcs, hagree, _⟩ := exec_aligned head haligned hwin (by omega) (by omega)
  obtain ⟨_, hp'⟩ := exec_cs_indep (M := M) head 0 0 httpParserStart
    (httpParserInit queryStart).enter (httpParserInit queryStart').enter
  have htokens := hagree.tokens_iff.mpr (fun r _ => r.not_startsBefore_zero)
  rw [Nat.sub_self] at hcs htokens
  rw [hcs] at hfinal
  have hstop :
      ¬ Running (exec M head 0 httpParserStart (httpParserInit queryStart').enter).cs :=
    fun hrun => absurd hrun.2 (Nat.not_lt.mpr hfinal)
  have hexec := Http.execute_eq (M := M) (h := HttpRequestParser.new queryStart') hne hlen rfl
  have happend :
      exec M (head ++ surplus) 0 (HttpRequestParser.new queryStart').parser.cs
          (HttpRequestParser.new queryStart').parser.enter =
        exec M head 0 httpParserStart (httpParserInit queryStart').enter :=
    exec_append_stopped surplus running_start hstop
  have hfold' :
      ((exec M head 0 httpParserStart (httpParserInit queryStart').enter).reports.map
          (Report.token (head ++ surplus))).foldlM onToken
        ⟨(HttpRequestParser.new queryStart').data, (HttpRequestParser.new queryStart').error⟩ =
      .ok ⟨h.data, 0⟩ := by
    rw [htokens]
    exact hfold
  have hpEq :
      (exec M head 0 httpParserStart (httpParserInit queryStart').enter).p = head.length := by
    omega
  refine ⟨HttpParser.leave
    (exec M head 0 httpParserStart (httpParserInit queryStart').enter) 0, ?_, ?_⟩
  · rw [hexec, happend, hfold', hpEq, List.drop_left]
  · rw [leave_cs head 0 0 httpParserStart running_start.1]
    exact hfinal

theorem recvHead_one_read (hp : ParsesTo M queryStart head h) (queryStart' : ℕ)
    {surplus : List UInt8} {sock sock' : Socket} (hlen : (head ++ surplus).length < 2 ^ 31)
    (hrecv : recv buffSize sock = (((head ++ surplus).length : ℤ), head ++ surplus, sock')) :
    ∃ h',
      h'.data = h.data ∧
      recvHead M buffSize queryStart' sock =
        if (surplus.length : ℤ) = toInt32 buffSize then .closed sock'
        else .finished h' surplus sock' := by
  obtain ⟨s', hexec, hfinal⟩ := hp.execute_append queryStart' hlen
  refine ⟨⟨s', h.data, 0⟩, rfl, ?_⟩
  have hpos : 0 < head.length := List.length_pos_iff.mpr hp.ne_nil
  rw [List.length_append] at hlen hrecv
  rw [recvHead, recvHeadLoop, List.length_nil, Nat.sub_zero, hrecv]
  dsimp only
  rw [if_neg (by omega), List.nil_append, hexec]
  dsimp only
  rw [hasError_eq_false _ (not_error_of_final hfinal), isFinished_of_final _ _ hfinal,
    if_neg (by simp)]
  simp

end OneHead

section OneRequest

variable {M : Machine} {lexicalCast : List UInt8 → Option (BitVec 64)}
variable {buffSize : ℕ} {w : WireRequest M lexicalCast} {chunks : List (List UInt8)}

theorem bytes_map_data (chunks : List (List UInt8)) :
    Socket.bytes (chunks.map .data) = chunks.flatten := by
  induction chunks with
  | nil => rfl
  | cons c cs ih => rw [List.map_cons, Socket.bytes, ih, List.flatten_cons]

theorem ParsesTo.body_eq {queryStart : ℕ} {head : List UInt8} {h : HttpRequestParser}
    (hp : ParsesTo M queryStart head h) :
    h.data.body = [] :=
  (execute_ok hp.execute_eq).1

theorem init_close {r : HttpRequest}
    (h : foldCase (r.getHeader (bytesOf "connection") []) = foldCase (bytesOf "keep-alive")) :
    r.init.close = false := by
  have hne : r.getHeader (bytesOf "connection") [] ≠ [] := by
    intro hnil
    rw [hnil] at h
    revert h
    decide
  simp only [HttpRequest.init]
  rw [if_neg hne]
  simp [h]

theorem WireRequest.request_close (w : WireRequest M lexicalCast) : w.request.close = false :=
  init_close w.keepAlive

theorem recvRequest_one_read (hne : ∀ c ∈ chunks, c ≠ []) (queryStart : ℕ)
    {surplus : List UInt8} (hread : firstRead buffSize chunks = w.head ++ surplus) :
    (recvRequest M lexicalCast buffSize queryStart (chunks.map .data)).result =
      if (surplus.length : ℤ) = toInt32 buffSize then
        .closed ((dropBytes (w.head ++ surplus).length chunks).map .data)
      else
        (assembleBody (toInt64 w.body.length) w.parser.data surplus
          ((dropBytes (w.head ++ surplus).length chunks).map .data)).result := by
  have hlen := (length_firstRead_le buffSize chunks).2
  have hrecv := recv_chunks buffSize hne
  rw [hread] at hlen hrecv
  obtain ⟨h', hdata, hhead⟩ := recvHead_one_read w.parses queryStart hlen hrecv
  rw [recvRequest, hhead]
  by_cases hfull : (surplus.length : ℤ) = toInt32 buffSize
  · rw [if_pos hfull, if_pos hfull]
  · have hlength : h'.getContentLength lexicalCast = w.parser.getContentLength lexicalCast := by
      rw [HttpRequestParser.getContentLength, HttpRequestParser.getContentLength, hdata]
    rw [if_neg hfull, if_neg hfull]
    dsimp only
    rw [recvBody, hlength, w.length_eq, hdata]

theorem WireRequest.request_of_no_body (hbody : w.body = []) :
    w.request = w.parser.data.init := by
  have hdata : { w.parser.data with body := w.body } = w.parser.data := by
    rw [hbody, ← w.parses.body_eq]
  rw [WireRequest.request, hdata]

/-- Where a read ends with the request or its head, the call returns the request
and takes exactly its bytes. -/
theorem recvRequest_of_endsRead (hne : ∀ c ∈ chunks, c ≠ []) (queryStart : ℕ)
    {tail : List UInt8} (hflat : chunks.flatten = w.head ++ w.body ++ tail)
    (hends : w.EndsRead buffSize (firstRead buffSize chunks)) :
    (recvRequest M lexicalCast buffSize queryStart (chunks.map .data)).result =
      .request w.request ((dropBytes (w.head ++ w.body).length chunks).map .data) := by
  have hmax : 2 ^ 31 ≤ stringMaxSize ∧ stringMaxSize < 2 ^ 63 := by decide
  have hread31 := (length_firstRead_le buffSize chunks).2
  rcases hends with ⟨hread, hfull⟩ | ⟨hread, hfull, hlong, hret⟩
  · -- the whole request is in the buffer
    rw [hread, List.length_append] at hread31
    rw [recvRequest_one_read hne queryStart hread, if_neg hfull, toInt64_of_lt (by omega)]
    by_cases hbody : w.body = []
    · rw [w.request_of_no_body hbody, hbody, assembleBody, if_neg (by simp)]
    · have hpos : 0 < w.body.length := List.length_pos_iff.mpr hbody
      rw [assembleBody_buffered hpos (by omega) (Nat.le_refl _), List.take_length]
      rfl
  · -- the body is still on the socket
    have hpos : 0 < w.body.length := by
      by_contra hzero
      rw [Nat.eq_zero_of_not_pos hzero] at hret
      revert hret
      decide
    have hrest : (dropBytes w.head.length chunks).flatten = w.body ++ tail := by
      rw [flatten_dropBytes, hflat, List.append_assoc, List.drop_left]
    rw [← List.append_nil w.head] at hread
    rw [recvRequest_one_read hne queryStart hread, if_neg (by simpa using hfull.symm),
      toInt64_of_lt (by omega), List.append_nil,
      @assembleBody_read _ [] _ hlong hpos (ne_nil_of_mem_dropBytes hne), hrest,
      List.length_append,
      if_pos (Nat.le_add_right _ _), if_neg (by omega), List.nil_append, List.take_take,
      Nat.min_self, List.take_left, dropBytes_dropBytes _ _ hne, ← List.length_append]
    rfl

/-- What has been taken from the socket if exactly the bytes after the request are left. -/
theorem taken_of_left_tail {tail : List UInt8} (hflat : chunks.flatten = w.head ++ w.body ++ tail)
    {n : ℕ} (hn : (dropBytes n chunks).flatten = tail) (hbound : n ≤ chunks.flatten.length) :
    n = w.head.length + w.body.length := by
  have hlen := congrArg List.length hn
  have htotal := congrArg List.length hflat
  rw [flatten_dropBytes, List.length_drop] at hlen
  rw [List.length_append, List.length_append] at htotal
  omega

theorem endsRead_of_length {surplus tail : List UInt8} (hsub : surplus <+: w.body ++ tail)
    (hread : w.head ++ surplus = firstRead buffSize chunks)
    (hfull : (surplus.length : ℤ) ≠ toInt32 buffSize) (heq : surplus.length = w.body.length) :
    w.EndsRead buffSize (firstRead buffSize chunks) := by
  have hsurplus : surplus = w.body := by rw [List.prefix_iff_eq_take.mp hsub, heq, List.take_left]
  rw [hsurplus] at hread hfull
  exact Or.inl ⟨hread.symm, hfull⟩

/-- A call that returns the request and leaves exactly what follows it was made on
a read that ended with the request or its head. -/
theorem endsRead_of_recvRequest (hne : ∀ c ∈ chunks, c ≠ []) (queryStart : ℕ)
    {tail : List UInt8} (hflat : chunks.flatten = w.head ++ w.body ++ tail)
    (hhead : w.head <+: firstRead buffSize chunks) {sock' : Socket}
    (hresult : (recvRequest M lexicalCast buffSize queryStart (chunks.map .data)).result =
      .request w.request sock')
    (hbytes : sock'.bytes = tail) :
    w.EndsRead buffSize (firstRead buffSize chunks) := by
  obtain ⟨surplus, hread⟩ := hhead
  have hL : w.body.length < 2 ^ 64 := by
    rw [← w.length_eq]
    exact BitVec.isLt _
  have hprefix : surplus <+: w.body ++ tail := by
    have := firstRead_prefix buffSize chunks
    rw [← hread, hflat, List.append_assoc] at this
    exact (List.prefix_append_right_inj _).mp this
  have hle := hprefix.length_le
  rw [List.length_append] at hle
  have htotal : chunks.flatten.length = w.head.length + w.body.length + tail.length := by
    rw [hflat, List.length_append, List.length_append]
  rw [recvRequest_one_read hne queryStart hread.symm] at hresult
  by_cases hfull : (surplus.length : ℤ) = toInt32 buffSize
  · rw [if_pos hfull] at hresult
    cases hresult
  rw [if_neg hfull] at hresult
  -- where only the buffer was used, the bytes left say how long the surplus was
  have hwhole : (dropBytes (w.head ++ surplus).length chunks).flatten = tail →
      w.EndsRead buffSize (firstRead buffSize chunks) := by
    intro hleft
    have htaken := taken_of_left_tail hflat hleft (by rw [List.length_append]; omega)
    rw [List.length_append] at htaken
    exact endsRead_of_length hprefix hread hfull (by omega)
  by_cases hbody : w.body.length = 0
  · rw [hbody, assembleBody, if_neg (by decide)] at hresult
    injection hresult with _ hsock
    rw [← hsock, bytes_map_data] at hbytes
    exact hwhole hbytes
  by_cases hhuge : 2 ^ 63 ≤ w.body.length
  · -- the announced length is negative, and the body is dropped
    rw [assembleBody_neg (toInt64_neg hhuge hL)] at hresult
    injection hresult with hreq _
    have hempty : w.parser.data.body = w.body := by
      rw [← init_body, hreq, WireRequest.request, init_body]
    rw [← hempty, w.parses.body_eq] at hbody
    exact absurd rfl hbody
  rw [toInt64_of_lt (by omega)] at hresult
  by_cases hlong : stringMaxSize < w.body.length
  · rw [assembleBody_tooLong hlong] at hresult
    cases hresult
  by_cases hbuffered : w.body.length ≤ surplus.length
  · rw [assembleBody_buffered (by omega) (by omega) hbuffered] at hresult
    injection hresult with _ hsock
    rw [← hsock, bytes_map_data] at hbytes
    exact hwhole hbytes
  · -- the continuation read takes `length` bytes, not the `length - offset` missing ones
    rw [assembleBody_read (by omega) (by omega) (ne_nil_of_mem_dropBytes hne),
      flatten_dropBytes, List.length_drop, List.length_append] at hresult
    by_cases henough : w.body.length ≤ chunks.flatten.length - (w.head.length + surplus.length)
    · rw [if_pos henough] at hresult
      by_cases hret : toInt32 w.body.length ≤ 0
      · rw [if_pos hret] at hresult
        cases hresult
      · rw [if_neg hret] at hresult
        injection hresult with _ hsock
        rw [← hsock, bytes_map_data, dropBytes_dropBytes _ _ hne] at hbytes
        have hzero := taken_of_left_tail hflat hbytes (by omega)
        obtain rfl : surplus = [] := List.length_eq_zero_iff.mp (by omega)
        right
        rw [← hread, List.append_nil]
        exact ⟨rfl, fun h => hfull (by simpa using h.symm), by omega, by omega⟩
    · rw [if_neg henough, if_pos (le_refl _)] at hresult
      cases hresult

end OneRequest

section Connection

variable {M : Machine} {lexicalCast : List UInt8 → Option (BitVec 64)} {buffSize : ℕ}
variable {ws : List (WireRequest M lexicalCast)} {chunks : List (List UInt8)}

theorem recvRequest_nil (queryStart : ℕ) :
    (recvRequest M lexicalCast buffSize queryStart []).result = .closed [] := by
  simp [recvRequest, recvHead, recvHeadLoop, recv]

theorem length_le_wire (ws : List (WireRequest M lexicalCast)) :
    ws.length ≤ (wire ws).length := by
  induction ws with
  | nil => exact Nat.le_refl _
  | cons w ws ih =>
    have hpos : 0 < w.head.length := List.length_pos_iff.mpr w.parses.ne_nil
    have hwire : wire (w :: ws) = w.head ++ w.body ++ wire ws := List.flatMap_cons
    rw [hwire, List.length_append, List.length_append, List.length_cons]
    omega

theorem length_flatten_le_size (chunks : List (List UInt8)) :
    chunks.flatten.length ≤ Socket.size (chunks.map .data) := by
  induction chunks with
  | nil => exact Nat.le_refl _
  | cons c cs ih =>
    simp only [List.flatten_cons, List.length_append, List.map_cons, Socket.size]
    omega

/-- Induction on the requests: the first call frames its request exactly when its
read ends with the request or its head, and then the rest of the connection looks
to the next call like a connection of its own. -/
theorem handleClientLoop_framed_iff {n : ℕ} (queryStart : ℕ → ℕ) (hne : ∀ c ∈ chunks, c ≠ [])
    (hflat : chunks.flatten = wire ws) (huncut : HeadsUncut buffSize ws chunks)
    (hn : ws.length < n) :
    Framed (handleClientLoop M lexicalCast buffSize true n queryStart (chunks.map .data)) ws ↔
      ReadsEndRequests buffSize ws chunks := by
  obtain ⟨n, rfl⟩ : ∃ k, n = k + 1 := Nat.exists_eq_succ_of_ne_zero (by omega)
  induction ws generalizing chunks queryStart n with
  | nil =>
    have hnil : chunks = [] := by
      cases chunks with
      | nil => rfl
      | cons c cs =>
        rw [List.flatten_cons] at hflat
        exact absurd (List.append_eq_nil_iff.mp hflat).1 (hne c List.mem_cons_self)
    subst hnil
    simp [handleClientLoop, recvRequest_nil, Framed, framing, ReadsEndRequests]
  | cons w ws ih =>
    have hwire : wire (w :: ws) = w.head ++ w.body ++ wire ws := List.flatMap_cons
    rw [hwire] at hflat
    obtain ⟨hhead, htail⟩ := huncut
    rw [List.length_cons] at hn
    obtain ⟨n, rfl⟩ : ∃ k, n = k + 1 := Nat.exists_eq_succ_of_ne_zero (by omega)
    by_cases hends : w.EndsRead buffSize (firstRead buffSize chunks)
    · have hresult := recvRequest_of_endsRead hne (queryStart 0) hflat hends
      have hrest : (dropBytes (w.head ++ w.body).length chunks).flatten = wire ws := by
        rw [flatten_dropBytes, hflat, List.drop_left]
      have hih := @ih (dropBytes (w.head ++ w.body).length chunks)
        (fun i => queryStart (i + 1)) (ne_nil_of_mem_dropBytes hne) hrest htail n (by omega)
      rw [handleClientLoop, hresult]
      simp only [w.request_close, Bool.not_true, Bool.or_false, Bool.false_eq_true,
        if_false, Framed, List.map_cons, framing, bytes_map_data, hrest, List.cons.injEq,
        true_and, ReadsEndRequests, hends]
      exact hih
    · refine iff_of_false ?_ (fun hreads => hends hreads.1)
      intro hframed
      rw [handleClientLoop] at hframed
      split at hframed
      · rename_i r sock' hresult
        simp only [Framed, List.map_cons, framing, List.cons.injEq, Prod.mk.injEq] at hframed
        obtain ⟨⟨hreq, hbytes⟩, _⟩ := hframed
        rw [hreq] at hresult
        exact hends (endsRead_of_recvRequest hne (queryStart 0) hflat hhead hresult hbytes)
      · simp [Framed, framing] at hframed

/--
**Framing of a kept-alive connection.**  For well-formed requests whose heads are
not cut by a read, `handleClient` returns the requests in order without losing a
byte between them exactly when each read that brings a head ends with that head or
with that request.
-/
theorem handleClient_framed_iff (queryStart : ℕ → ℕ) (hne : ∀ c ∈ chunks, c ≠ [])
    (hflat : chunks.flatten = wire ws) (huncut : HeadsUncut buffSize ws chunks) :
    Framed (handleClient M lexicalCast buffSize true queryStart (chunks.map .data)) ws ↔
      ReadsEndRequests buffSize ws chunks := by
  apply handleClientLoop_framed_iff queryStart hne hflat huncut
  have h₁ := length_le_wire ws
  have h₂ := length_flatten_le_size chunks
  rw [hflat] at h₂
  omega

/-- `POST` of the three bytes `abc` on a kept-alive connection. -/
def postThree : WireRequest plainMachine decimalCast where
  head := bytesOf "POST / HTTP/1.1\r\nConnection: keep-alive\r\nContent-Length: 3\r\n\r\n"
  body := bytesOf "abc"
  queryStart := 0
  parser :=
    ⟨⟨348, 62, 62, 57, 60, 14, 0, false, false⟩,
      ⟨.post, 0x11, true, bytesOf "/", [], [], [],
        [(bytesOf "Connection", bytesOf "keep-alive"), (bytesOf "Content-Length", bytesOf "3")]⟩,
      0⟩
  parses := ⟨by decide +kernel, by decide +kernel, by decide +kernel⟩
  keepAlive := by decide +kernel
  length_eq := by decide +kernel

/-- `GET` without a body on a kept-alive connection. -/
def getPlain : WireRequest plainMachine decimalCast where
  head := bytesOf "GET / HTTP/1.1\r\nConnection: keep-alive\r\n\r\n"
  body := []
  queryStart := 0
  parser :=
    ⟨⟨348, 42, 42, 28, 40, 10, 0, false, false⟩,
      ⟨.get, 0x11, true, bytesOf "/", [], [], [], [(bytesOf "Connection", bytesOf "keep-alive")]⟩,
      0⟩
  parses := ⟨by decide +kernel, by decide +kernel, by decide +kernel⟩
  keepAlive := by decide +kernel
  length_eq := by decide +kernel

/-- A head and its body in reads of their own, then a read with a whole request,
then a request without a body. -/
theorem handleClient_framed_post_post_get :
    Framed
      (handleClient plainMachine decimalCast 4096 true (fun _ => 7)
        [.data postThree.head, .data postThree.body,
          .data (postThree.head ++ postThree.body), .data getPlain.head])
      [postThree, postThree, getPlain] := by
  have hne : ∀ c ∈ [postThree.head, postThree.body, postThree.head ++ postThree.body,
      getPlain.head], c ≠ [] := by
    decide
  have hflat : [postThree.head, postThree.body, postThree.head ++ postThree.body,
      getPlain.head].flatten = wire [postThree, postThree, getPlain] := by
    decide +kernel
  have huncut : HeadsUncut 4096 [postThree, postThree, getPlain]
      [postThree.head, postThree.body, postThree.head ++ postThree.body, getPlain.head] := by
    unfold HeadsUncut HeadsUncut HeadsUncut HeadsUncut
    decide +kernel
  apply (handleClient_framed_iff (fun _ => 7) hne hflat huncut).mpr
  unfold ReadsEndRequests ReadsEndRequests ReadsEndRequests ReadsEndRequests
  unfold WireRequest.EndsRead
  decide +kernel

/-- Two requests in one read: the second is read with the first, and lost. -/
theorem not_framed_two_requests_one_read :
    ¬ Framed
        (handleClient plainMachine decimalCast 4096 true (fun _ => 0)
          [.data (getPlain.head ++ getPlain.head)])
        [getPlain, getPlain] ∧
      HeadsUncut 4096 [getPlain, getPlain] [getPlain.head ++ getPlain.head] ∧
      (handleClient plainMachine decimalCast 4096 true (fun _ => 0)
          [.data (getPlain.head ++ getPlain.head)]).map Served.request =
        [getPlain.request] := by
  have hserved : handleClient plainMachine decimalCast 4096 true (fun _ => 0)
      [.data (getPlain.head ++ getPlain.head)] = [⟨getPlain.request, []⟩] := by
    decide +kernel
  refine ⟨?_, ?_, ?_⟩
  · rw [hserved]
    simp [Framed, framing]
  · unfold HeadsUncut HeadsUncut HeadsUncut
    decide +kernel
  · rw [hserved]
    rfl

end Connection

end Http
end Civan
