import Civan.Http.RequestRoundTrip

/-!
# Requests on a connection are answered as they were sent

A client prints its requests one after the other, and each arrives in a read of its own.
`handleClient` then hands every request to the dispatcher that was sent up to the first
one that closes the connection, with its body, and no other.

The length of the body is read back from the text that was printed, and a request without
a body must not announce one.
-/

namespace Civan
namespace Http

open MachineInt

/-- The requests that are answered: up to the first one that closes the connection, or
only one if the server keeps no connection. -/
def answered (isKeepalive : Bool) : List HttpRequest → List HttpRequest
  | [] => []
  | r :: rs => r :: if !isKeepalive || r.close then [] else answered isKeepalive rs

/-- What the dispatcher gets for a request. -/
structure HttpRequest.DeliveredAs (r d : HttpRequest) : Prop extends r.SentAs d where
  body : d.body = r.body
  close : d.close = r.close

section Delivery

variable {M : Machine} {lexicalCast : List UInt8 → Option (BitVec 64)} {buffSize : ℕ}
variable {r : HttpRequest}

/-- A request whose length can be read back, and that fits into the buffer. -/
structure HttpRequest.Fits (lexicalCast : List UInt8 → Option (BitVec 64)) (buffSize : ℕ)
    (r : HttpRequest) : Prop extends r.Sendable where
  size : r.dump.length ≤ buffSize
  length : lexicalCast (decimal r.body.length) = some (BitVec.ofNat 64 r.body.length)
  announced : r.body = [] → r.getHeaderAs lexicalCast (bytesOf "content-length") 0 = 0

theorem HttpRequest.Fits.contentLength
    (h : r.Fits lexicalCast buffSize) (hbuff : buffSize ≤ maxRwCount)
    {d : HttpRequest} (hd : r.SentAs d) :
    toInt64 (d.getHeaderAs lexicalCast (bytesOf "content-length") 0).toNat =
      r.body.length := by
  have hmax : maxRwCount < 2 ^ 31 := by decide
  have hsize := h.size
  rw [r.dump_eq, List.length_append] at hsize
  rw [HttpRequest.getHeaderAs, hd.header, HttpRequest.sentHeader,
    if_neg length_ne_connection.symm]
  by_cases hbody : r.body = []
  · have hzero := h.announced hbody
    rw [HttpRequest.getHeaderAs] at hzero
    rw [if_neg (fun hlen => hlen.1 hbody), hzero, hbody]
    decide
  · rw [if_pos ⟨hbody, rfl⟩]
    dsimp only
    rw [h.length, Option.getD_some, BitVec.toNat_ofNat, Nat.mod_eq_of_lt (by omega),
      toInt64_of_lt (by omega)]

theorem init_deliveredAs {d : HttpRequest} (hd : r.SentAs d) (hbody : d.body = r.body) :
    r.DeliveredAs d.init := by
  have hvalue : connectionValue r.close ≠ [] ∧
      decide (foldCase (connectionValue r.close) ≠ foldCase (bytesOf "keep-alive")) =
        r.close := by
    cases r.close with
    | false => decide
    | true => decide
  have hinit : d.init = { d with close := r.close } := by
    rw [HttpRequest.init, HttpRequest.getHeader, hd.header, HttpRequest.sentHeader,
      if_pos rfl, Option.getD_some]
    rw [if_neg hvalue.1, hvalue.2]
  rw [hinit]
  exact { hd with body := hbody, close := rfl }

theorem recvRequest_dump (hM : M.Extends originJumps) (hbuff : buffSize ≤ maxRwCount)
    (h : r.Fits lexicalCast buffSize) (queryStart : ℕ) (rest : Socket) :
    ∃ d, (recvRequest M lexicalCast buffSize queryStart (.data r.dump :: rest)).result =
        .request d rest ∧ r.DeliveredAs d := by
  have hmax : maxRwCount < 2 ^ 31 ∧ 2 ^ 31 ≤ stringMaxSize := by decide
  have hsize := h.size
  have hrecv : recv buffSize (.data r.dump :: rest) = ((r.dump.length : ℤ), r.dump, rest) := by
    rw [recv, Nat.min_eq_left hbuff, List.take_of_length_le hsize, if_pos hsize]
  rw [r.dump_eq] at hsize hrecv ⊢
  rw [List.length_append] at hsize
  have hcrlf : 0 < (r.lines ++ crlf).length := by simp [crlf]
  obtain ⟨h₀, hparses, hdata⟩ := parsesTo_dump hM h.toSendable queryStart (by omega)
  obtain ⟨h', hdata', hhead⟩ := recvHead_one_read hparses queryStart
    (by rw [List.length_append]; omega) hrecv
  have hsent : r.SentAs h'.data := by
    rw [hdata', hdata]
    exact sentAs_parsed h.toSendable
  have hempty : h'.data.body = [] := by
    rw [hdata']
    exact hparses.body_eq
  rw [if_neg (by rw [toInt32_of_lt (by omega)]; omega)] at hhead
  rw [recvRequest, hhead]
  dsimp only
  rw [recvBody, HttpRequestParser.getContentLength, h.contentLength hbuff hsent]
  by_cases hbody : r.body = []
  · refine ⟨h'.data.init, ?_, init_deliveredAs hsent (hempty.trans hbody.symm)⟩
    rw [hbody, assembleBody, if_neg (by simp)]
  · have hpos : 0 < r.body.length := List.length_pos_iff.mpr hbody
    have hwith : r.SentAs { h'.data with body := r.body } :=
      ⟨hsent.method, hsent.version, hsent.path, hsent.query, hsent.fragment, hsent.header⟩
    refine ⟨{ h'.data with body := r.body }.init, ?_, init_deliveredAs hwith rfl⟩
    rw [assembleBody_buffered hpos (by omega) (Nat.le_refl _), List.take_length]

/-- Induction on the requests, one call of `recvRequest` for each. -/
theorem handleClientLoop_dump
    (hM : M.Extends originJumps) (hbuff : buffSize ≤ maxRwCount) (isKeepalive : Bool)
    {rs : List HttpRequest} (hrs : ∀ r ∈ rs, r.Fits lexicalCast buffSize)
    (queryStart : ℕ → ℕ) {n : ℕ} (hn : rs.length < n) :
    List.Forall₂ HttpRequest.DeliveredAs (answered isKeepalive rs)
      ((handleClientLoop M lexicalCast buffSize isKeepalive n queryStart
        (rs.map fun r => .data r.dump)).map Served.request) := by
  induction rs generalizing n queryStart with
  | nil =>
    obtain ⟨n, rfl⟩ : ∃ k, n = k + 1 := Nat.exists_eq_succ_of_ne_zero (by omega)
    rw [List.map_nil, handleClientLoop, recvRequest_nil]
    exact List.Forall₂.nil
  | cons r rs ih =>
    obtain ⟨n, rfl⟩ : ∃ k, n = k + 1 := Nat.exists_eq_succ_of_ne_zero (by omega)
    rw [List.length_cons] at hn
    obtain ⟨d, hresult, hd⟩ := recvRequest_dump hM hbuff (hrs r List.mem_cons_self)
      (queryStart 0) (rs.map fun r => .data r.dump)
    have hrest := ih (fun s hs => hrs s (List.mem_cons_of_mem r hs))
      (fun i => queryStart (i + 1)) (n := n) (by omega)
    rw [List.map_cons, handleClientLoop, hresult]
    dsimp only
    rw [List.map_cons, answered, hd.close]
    refine List.Forall₂.cons hd ?_
    split_ifs
    · exact List.Forall₂.nil
    · exact hrest

/--
**Requests are answered as they were sent.**  For every machine with the generated jumps
and every list of requests that the grammar has a place for and that fit into the buffer:
when each arrives in a read of its own, the dispatcher gets exactly the requests up to the
first one that closes the connection, in order, with their method, version, target, body
and headers.
-/
theorem handleClient_dump
    (hM : M.Extends originJumps) (hbuff : buffSize ≤ maxRwCount) (isKeepalive : Bool)
    (queryStart : ℕ → ℕ) (rs : List HttpRequest) (hrs : ∀ r ∈ rs, r.Fits lexicalCast buffSize) :
    List.Forall₂ HttpRequest.DeliveredAs (answered isKeepalive rs)
      ((handleClient M lexicalCast buffSize isKeepalive queryStart
        (rs.map fun r => .data r.dump)).map Served.request) := by
  refine handleClientLoop_dump hM hbuff isKeepalive hrs queryStart ?_
  have hlen : rs.length ≤ Socket.size (rs.map fun r => .data r.dump) := by
    clear hrs
    induction rs with
    | nil => exact Nat.le_refl _
    | cons r rs ih =>
      rw [List.map_cons, Socket.size, List.length_cons]
      omega
  omega

/-- A request for the root that closes the connection. -/
def getClose : HttpRequest where
  method := .get
  version := 0x10
  close := true
  path := bytesOf "/"
  query := []
  fragment := []
  body := []
  headers := []

theorem getClose_sendable :
    getClose.Sendable where
  known := by decide
  hyphenless := by decide
  version := by decide
  path := ⟨[], by decide, by decide, by decide⟩
  query := by decide
  fragment := by decide
  ordered := by decide
  fields := by
    intro i hi
    cases hi

/-- Two requests, and a third one that nobody reads. -/
theorem handleClient_dump_until_close :
    List.Forall₂ HttpRequest.DeliveredAs [postForm, getClose]
      ((handleClient originMachine decimalCast 4096 true (fun _ => 7)
        [.data postForm.dump, .data getClose.dump, .data postForm.dump]).map Served.request) := by
  have hpost : postForm.Fits decimalCast 4096 :=
    { postForm_sendable with
      size := by decide +kernel
      length := by decide
      announced := by decide }
  have hget : getClose.Fits decimalCast 4096 :=
    { getClose_sendable with
      size := by decide +kernel
      length := by decide
      announced := by decide }
  exact handleClient_dump originMachine_extends (by decide) true (fun _ => 7)
    [postForm, getClose, postForm] (by simp [hpost, hget])

end Delivery

end Http
end Civan
