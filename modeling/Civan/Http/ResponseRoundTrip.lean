import Civan.Http.ResponsePieces
import Civan.Http.SentHeaders

/-!
# A printed response is read back

`HttpResponse::dump` on one side and `HttpResponseParser::execute` with the generated
table on the other.  The other side finds the status, the version, the reason and the
headers; of several cookies it keeps the last.  It knows whether the connection is closed,
and how long the body is.
-/

namespace Civan
namespace Http

open MachineInt Mealy Strtol

section End

theorem clientExec_crlf
    {t : ℕ} (ht : t ∈ [20, 43]) (mem rest : List UInt8) (p : ℕ) (s : HttpclientParser) :
    clientExec clientNext mem (crlf ++ rest) p t s =
      ⟨p + 2, httpclientParserFirstFinal,
        { s with close := closing t s, bodyStart := p + 2 }, [.headerDone (p + 1)]⟩ := by
  have hcr : ∀ t ∈ [20, 43], clientNext t 13 = some (3, pending t) := by decide +kernel
  have hlf : clientNext 3 10 = some (120, [.done]) := by decide +kernel
  have hacts : s.acts mem p (pending t) = ({ s with close := closing t s }, []) := by
    simp only [List.mem_cons, List.not_mem_nil, or_false] at ht
    rcases ht with rfl | rfl
    · simp [pending, closing, HttpclientParser.acts]
    · simp [pending, closing, HttpclientParser.acts, HttpclientParser.act]
  have hpending : ∀ t ∈ [20, 43], ClientAction.done ∉ pending t := by decide
  rw [crlf, List.cons_append, clientExec, hcr t ht]
  dsimp only
  rw [if_neg (hpending t ht), hacts, List.cons_append, clientExec, hlf]
  rfl

theorem clientExec_of_conveys
    {w : List UInt8} {t : ℕ} {f : HttpResponse → HttpResponse} {closes : Bool} {len : Option ℤ}
    (h : Conveys httpclientParserStart w t f closes len) (ht : t ∈ [20, 43])
    {mem tail : List UInt8} (hmem : mem = w ++ crlf ++ tail)
    (rest : List UInt8) (s : HttpclientParser) :
    ∃ r, clientExec clientNext mem (w ++ crlf ++ rest) 0 httpclientParserStart s = r ∧
      r.p = (w ++ crlf).length ∧ r.cs = httpclientParserFirstFinal ∧
      (∀ h : HttpResponseParser,
        r.reports.foldl (onResponse mem) h = { h with data := f h.data }) ∧
      r.parser.close = (s.close || closes) ∧
      ∀ n ∈ len, r.parser.contentLen = n := by
  obtain ⟨es, hreads, hdone, hcalls, hclose, hlen⟩ :=
    h mem (crlf ++ tail) 0 s (by rw [hmem, List.drop_zero, List.append_assoc])
  refine ⟨_, rfl, ?_⟩
  rw [List.append_assoc, clientExec_of_reads hreads hdone, clientExec_crlf ht]
  refine ⟨?_, rfl, ?_, ?_, hlen⟩
  · rw [List.length_append, Nat.zero_add]
    rfl
  · intro d
    rw [List.foldl_append, hcalls]
    rfl
  · rw [hclose]
    simp [closing, httpclientParserStart]

end End

section Head

/-- A response that the grammar has a place for. -/
structure HttpResponse.Sendable (r : HttpResponse) : Prop where
  version : r.version = 0x10 ∨ r.version = 0x11
  status : r.status < 2 ^ 31
  reason : LineText r.reason
  ordered : r.headers.Pairwise fun i j => caseInsensitiveLess i.1 j.1 = true
  fields : ∀ i ∈ r.headers, i.1 ≠ [] ∧ (∀ c ∈ i.1, tokenByte c = true) ∧ FieldText i.2
  cookies : ∀ c ∈ r.cookies, FieldText c

/-- The reason as it is printed. -/
def HttpResponse.printedReason (r : HttpResponse) : List UInt8 :=
  if r.reason = [] then httpStatusToString r.status else r.reason

theorem httpStatusToString_text (status : ℕ) :
    httpStatusToString status ≠ [] ∧ LineText (httpStatusToString status) := by
  have hmap : ∀ e ∈ httpStatusMap, bytesOf e.2 ≠ [] ∧
      (bytesOf e.2).all (fun c => c ≠ 10 ∧ c ≠ 13) = true := by
    decide +kernel
  have hunknown : bytesOf "<unknown>" ≠ [] ∧
      (bytesOf "<unknown>").all (fun c => c ≠ 10 ∧ c ≠ 13) = true := by
    decide
  have htext : ∀ w : List UInt8, w.all (fun c => c ≠ 10 ∧ c ≠ 13) = true → LineText w := by
    intro w hw c hc
    simpa using List.all_eq_true.mp hw c hc
  rw [httpStatusToString]
  split
  next e hfind =>
    obtain ⟨hne, hall⟩ := hmap e (List.mem_of_find?_eq_some hfind)
    exact ⟨hne, htext _ hall⟩
  next => exact ⟨hunknown.1, htext _ hunknown.2⟩

variable {r : HttpResponse}

theorem HttpResponse.Sendable.printedReason (h : r.Sendable) :
    r.printedReason ≠ [] ∧ LineText r.printedReason := by
  rw [HttpResponse.printedReason]
  split_ifs with hreason
  · exact httpStatusToString_text r.status
  · exact ⟨hreason, h.reason⟩

/-- The fields that are printed before `connection`. -/
def HttpResponse.leading (r : HttpResponse) : List (List UInt8 × List UInt8) :=
  userFields r.headers ++ r.cookies.map fun c => (bytesOf "Set-Cookie", c)

/-- The printed head without its empty line. -/
def HttpResponse.lines (r : HttpResponse) : List UInt8 :=
  r.startLine ++ crlf ++
    ((r.leading ++ [connectionField r.close] ++ lengthFields r.body).flatMap fun i =>
      fieldLine i ++ crlf)

theorem HttpResponse.dump_eq (r : HttpResponse) : r.dump = r.lines ++ crlf ++ r.body := by
  have h := dump_eq_lines (.response r)
  rw [List.flatMap_cons, List.flatMap_map] at h
  rw [HttpResponse.lines]
  exact h

theorem conveys_fields {fields : List (List UInt8 × List UInt8)}
    (h : ∀ i ∈ fields, i.1 ≠ [] ∧ (∀ c ∈ i.1, tokenByte c = true) ∧ FieldText i.2 ∧
      foldCase i.1 ≠ foldCase (bytesOf "connection")) :
    Conveys 20 (fields.flatMap fun i => fieldLine i ++ crlf) 20
      (fun d => fields.foldl (fun d i => d.setHeader i.1 i.2) d) false none := by
  induction fields with
  | nil => exact Conveys.nil 20
  | cons i fields ih =>
    obtain ⟨hne, hname, hvalue, hconnection⟩ := h i List.mem_cons_self
    rw [List.flatMap_cons]
    exact (conveys_field hne hname hvalue hconnection (by decide)).append
      (ih fun j hj => h j (List.mem_cons_of_mem i hj))

theorem HttpResponse.Sendable.leading (h : r.Sendable) :
    ∀ i ∈ r.leading, i.1 ≠ [] ∧ (∀ c ∈ i.1, tokenByte c = true) ∧ FieldText i.2 ∧
      foldCase i.1 ≠ foldCase (bytesOf "connection") := by
  have hcookie : bytesOf "Set-Cookie" ≠ [] ∧ (bytesOf "Set-Cookie").all tokenByte = true ∧
      foldCase (bytesOf "Set-Cookie") ≠ foldCase (bytesOf "connection") := by
    decide
  intro i hi
  rw [HttpResponse.leading, List.mem_append, List.mem_map] at hi
  rcases hi with hi | ⟨c, hc, rfl⟩
  · obtain ⟨hmem, hne⟩ := List.mem_filter.mp hi
    obtain ⟨hname, htoken, hvalue⟩ := h.fields i hmem
    exact ⟨hname, htoken, hvalue, by simpa using hne⟩
  · exact ⟨hcookie.1, List.all_eq_true.mp hcookie.2.1, h.cookies c hc, hcookie.2.2⟩

/-- The response as the callbacks build it from the head. -/
def HttpResponse.parsed (r : HttpResponse) : HttpResponse :=
  (r.leading ++ [connectionField r.close] ++ lengthFields r.body).foldl
    (fun d i => d.setHeader i.1 i.2)
    { HttpResponse.new r.version true with status := r.status, reason := r.printedReason }

/-- The length that the head announces for its own body. -/
def HttpResponse.announced (r : HttpResponse) : Option ℤ :=
  if r.body = [] then none else some r.body.length

theorem conveys_startLine (h : r.Sendable) :
    Conveys httpclientParserStart (r.startLine ++ crlf) 20
      (fun d => { d with version := r.version, status := r.status, reason := r.printedReason })
      false none := by
  obtain ⟨hne, htext⟩ := h.printedReason
  have hline : r.startLine ++ crlf = (versionText r.version ++ [32]) ++
      (decimal r.status ++ [32]) ++ (r.printedReason ++ crlf) := by
    have hblank : bytesOf " " = [32] := by decide
    simp only [HttpResponse.startLine, HttpResponse.printedReason, hblank, List.append_assoc]
  rw [hline]
  exact ((conveys_version h.version).append (conveys_status h.status)).append
    (conveys_reason hne htext)

theorem conveys_lengthFields
    {body : List UInt8} (hbody : body.length < 2 ^ 31) {q : ℕ} (hq : q ∈ [20, 43]) :
    ∃ t ∈ [20, 43], Conveys q ((lengthFields body).flatMap fun i => fieldLine i ++ crlf) t
      (fun d => (lengthFields body).foldl (fun d i => d.setHeader i.1 i.2) d) false
      (if body = [] then none else some body.length) := by
  rw [lengthFields]
  by_cases hempty : body = []
  · rw [if_neg (not_not.mpr hempty), if_pos hempty]
    exact ⟨q, hq, Conveys.nil q⟩
  · rw [if_pos hempty, if_neg hempty]
    refine ⟨20, by decide, ?_⟩
    rw [List.flatMap_singleton]
    exact conveys_length hbody hq

theorem conveys_lines (h : r.Sendable) (hbody : r.body.length < 2 ^ 31) :
    ∃ t ∈ [20, 43], ∃ f, Conveys httpclientParserStart r.lines t f r.close r.announced ∧
      f (HttpResponse.new 0x11 true) = r.parsed := by
  have hq : (if r.close then 43 else 20) ∈ [20, 43] := by
    cases r.close with
    | false => decide
    | true => decide
  obtain ⟨t, ht, hlength⟩ := conveys_lengthFields hbody hq
  have hhead := ((conveys_startLine h).append (conveys_fields h.leading)).append
    (conveys_connection r.close)
  have hall := hhead.append hlength
  have hlines : r.lines = r.startLine ++ crlf ++
      (r.leading.flatMap fun i => fieldLine i ++ crlf) ++
      (fieldLine (connectionField r.close) ++ crlf) ++
      (lengthFields r.body).flatMap fun i => fieldLine i ++ crlf := by
    simp only [HttpResponse.lines, List.flatMap_append, List.flatMap_singleton, List.append_assoc]
  rw [Bool.or_false, Bool.or_self, Bool.false_or] at hall
  rw [hlines]
  refine ⟨t, ht, _, hall, ?_⟩
  rw [HttpResponse.parsed, List.foldl_append, List.foldl_append]
  rfl

/-- The header that the other side finds under a name: the length of a body and
`connection` are as printed, of the cookies it is the last, and the others are as they
were set. -/
def HttpResponse.sentHeader (r : HttpResponse) (key : List UInt8) : Option (List UInt8) :=
  if r.body ≠ [] ∧ foldCase key = foldCase (bytesOf "content-length") then
    some (decimal r.body.length)
  else if foldCase key = foldCase (bytesOf "connection") then
    some (connectionValue r.close)
  else if foldCase key = foldCase (bytesOf "Set-Cookie") then
    r.cookies.getLast?.or (MapType.find key r.headers)
  else
    MapType.find key r.headers

theorem foldl_setHeader_response (fields : List (List UInt8 × List UInt8)) (d : HttpResponse) :
    fields.foldl (fun d i => d.setHeader i.1 i.2) d =
      { d with headers := MapType.setAll fields d.headers } := by
  induction fields generalizing d with
  | nil => rfl
  | cons i fields ih =>
    rw [List.foldl_cons, ih]
    rfl

/-- Up to the length of the body, which is printed last. -/
theorem find_leading_response (h : r.Sendable) (key : List UInt8) :
    MapType.find key (MapType.setAll (r.leading ++ [connectionField r.close]) []) =
      if foldCase key = foldCase (bytesOf "connection") then some (connectionValue r.close)
      else if foldCase key = foldCase (bytesOf "Set-Cookie") then
        r.cookies.getLast?.or (MapType.find key r.headers)
      else MapType.find key r.headers := by
  have hnone : MapType.find key [] = none := rfl
  rw [setAll_append, setAll_singleton, find_set, connectionField,
    HttpResponse.leading, setAll_append, find_setAll_same,
    find_setAll_of_pairwise (userFields_pairwise h.ordered), hnone, Option.or_none]
  by_cases hkey : foldCase key = foldCase (bytesOf "connection")
  · rw [if_pos hkey.symm, if_pos hkey]
  · rw [if_neg (fun heq => hkey heq.symm), if_neg hkey, find_userFields_of_ne hkey]

theorem find_parsed_response (h : r.Sendable) (key : List UInt8) :
    MapType.find key r.parsed.headers = r.sentHeader key := by
  have hheaders : r.parsed.headers = MapType.setAll (lengthFields r.body)
      (MapType.setAll (r.leading ++ [connectionField r.close]) []) := by
    rw [HttpResponse.parsed, foldl_setHeader_response, ← setAll_append]
    rfl
  rw [hheaders, HttpResponse.sentHeader, lengthFields]
  by_cases hbody : r.body = []
  · rw [if_neg (not_not.mpr hbody), setAll_nil, find_leading_response h]
    simp [hbody]
  · rw [if_pos hbody, setAll_singleton, find_set, find_leading_response h]
    by_cases hkey : foldCase key = foldCase (bytesOf "content-length")
    · simp [hbody, hkey]
    · simp [hkey, eq_comm]

/-- The same response, as far as the other side can see it. -/
structure HttpResponse.SentAs (r d : HttpResponse) : Prop where
  status : d.status = r.status
  version : d.version = r.version
  reason : d.reason = r.printedReason
  header : ∀ key, MapType.find key d.headers = r.sentHeader key

theorem sentAs_parsed_response (h : r.Sendable) : r.SentAs r.parsed := by
  have hparsed : r.parsed = { HttpResponse.new r.version true with
      status := r.status
      reason := r.printedReason
      headers := r.parsed.headers } := by
    rw [HttpResponse.parsed, foldl_setHeader_response]
  exact
    { status := by rw [hparsed]
      version := by rw [hparsed]; rfl
      reason := by rw [hparsed]
      header := find_parsed_response h }

end Head

section Call

variable {r : HttpResponse}

theorem begin_new (memory : HttpclientParser) (chunck : Bool) :
    (HttpResponseParser.new memory).begin chunck = httpclientParserInit memory := by
  cases chunck with
  | false => rfl
  | true => rfl

theorem execute_new_of_buffer {M : ClientMachine} {mem : List UInt8} {len : ℕ} {e : ClientExec}
    {memory : HttpclientParser} (chunck : Bool)
    (hrun : M.run (httpclientParserInit memory).enter mem len 0 = e)
    (hpos : 0 < len) (hnul : mem[len]? = some 0) (hlen : len < 2 ^ 31) :
    (HttpResponseParser.new memory).execute M mem len chunck =
      .ok (e.p,
        e.reports.foldl (onResponse mem)
          { HttpResponseParser.new memory with parser := .after e 0 },
        (mem.drop e.p).take (len - e.p) ++ mem.drop (len - e.p)) := by
  have hmem : len < mem.length := (List.getElem?_eq_some_iff.mp hnul).1
  have hstop := (M.stops (httpclientParserInit memory).enter mem len 0 (Nat.zero_le _) hmem.le).2
  have hbody : M.bodyStartAfter ((HttpResponseParser.new memory).begin chunck) mem len ≤ len :=
    bodyStartAfter_le (by rw [begin_new]; exact Nat.zero_le _) hmem.le
  have hexec := httpclientParserExecute_of_buffer (M := M)
    ((HttpResponseParser.new memory).begin chunck) hnul hlen
  rw [if_neg (not_not.mpr hbody), if_neg (Nat.ne_of_gt hpos)] at hexec
  rw [hrun] at hstop
  rw [execute_of_ok hexec, begin_new, hrun, toSize_natCast (by omega), sizeSub_of_le hstop, memmove,
    if_pos (by omega)]

theorem tableMachine_run (next : ℕ → UInt8 → Option (ℕ × List ClientAction))
    (s : HttpclientParser) (mem : List UInt8) (len off : ℕ) :
    (tableMachine next).run s mem len off =
      clientExec next mem ((mem.take len).drop off) off s.cs s :=
  rfl

/-- The machine over a buffer that starts with the printed response. -/
theorem clientMachine_run_dump
    (h : r.Sendable) (hbody : r.body.length < 2 ^ 31) (surplus behind : List UInt8)
    {s : HttpclientParser} (hs : s.cs = httpclientParserStart) :
    ∃ e, clientMachine.run s (r.dump ++ surplus ++ 0 :: behind) (r.dump ++ surplus).length 0 =
        e ∧
      e.p = (r.lines ++ crlf).length ∧ e.cs = httpclientParserFirstFinal ∧
      (∀ d : HttpResponseParser, d.data = HttpResponse.new 0x11 true →
        e.reports.foldl (onResponse (r.dump ++ surplus ++ 0 :: behind)) d =
          { d with data := r.parsed }) ∧
      e.parser.close = (s.close || r.close) ∧
      ∀ n ∈ r.announced, e.parser.contentLen = n := by
  obtain ⟨t, ht, f, hconveys, hparsed⟩ := conveys_lines h hbody
  have hmem : r.dump ++ surplus ++ 0 :: behind =
      r.lines ++ crlf ++ (r.body ++ surplus ++ 0 :: behind) := by
    rw [r.dump_eq]
    simp only [List.append_assoc]
  obtain ⟨e, hrun, hp, hcs, hcalls, hclose, hcontent⟩ :=
    clientExec_of_conveys hconveys ht hmem (r.body ++ surplus) s
  have hbytes : ((r.dump ++ surplus ++ 0 :: behind).take (r.dump ++ surplus).length).drop 0 =
      r.lines ++ crlf ++ (r.body ++ surplus) := by
    rw [List.take_left, List.drop_zero, r.dump_eq, List.append_assoc]
  refine ⟨e, ?_, hp, hcs, ?_, hclose, hcontent⟩
  · rw [clientMachine, tableMachine_run, hbytes, hs, hrun]
  · intro d hd
    rw [hcalls, hd, hparsed]

/--
**A printed response is read back.**  With the generated table, for every response that
the grammar has a place for: `execute` on the printed response and whatever follows it in
a buffer that is closed by a zero consumes the head and moves the body and what follows to
the front.  The parser is finished and has the status, the version, the reason and the
headers; its `close` says whether the connection is closed, and its `content_len` is the
length of the body, if there is one.
-/
theorem response_dump_read_back (h : r.Sendable) (memory : HttpclientParser) (chunck : Bool)
    (surplus behind : List UInt8) (hlen : (r.dump ++ surplus).length < 2 ^ 31) :
    ∃ h' mem',
      (HttpResponseParser.new memory).execute clientMachine
          (r.dump ++ surplus ++ 0 :: behind) (r.dump ++ surplus).length chunck =
        .ok (r.dump.length - r.body.length, h', mem') ∧
      mem'.take (r.body ++ surplus).length = r.body ++ surplus ∧
      h'.hasError = false ∧ h'.isFinished = 1 ∧ r.SentAs h'.data ∧
      h'.parser.close = r.close ∧
      (r.body ≠ [] → h'.parser.contentLen = r.body.length) := by
  have hdump : r.dump.length = (r.lines ++ crlf).length + r.body.length := by
    rw [r.dump_eq, List.length_append]
  have htotal : (r.dump ++ surplus).length =
      (r.lines ++ crlf).length + (r.body ++ surplus).length := by
    rw [List.length_append, hdump, Nat.add_assoc, ← List.length_append]
  have hpos : 0 < (r.lines ++ crlf).length := by simp [crlf]
  have hnul : (r.dump ++ surplus ++ 0 :: behind)[(r.dump ++ surplus).length]? = some 0 := by
    rw [List.getElem?_append_right (Nat.le_refl _), Nat.sub_self]
    rfl
  have hrest : (r.dump ++ surplus ++ 0 :: behind).drop (r.lines ++ crlf).length =
      r.body ++ surplus ++ 0 :: behind := by
    rw [r.dump_eq, List.append_assoc (r.lines ++ crlf), List.append_assoc (r.lines ++ crlf),
      List.drop_left]
  have hstart : (httpclientParserInit memory).enter.cs = httpclientParserStart := rfl
  obtain ⟨e, hrun, hp, hcs, hcalls, hclose, hcontent⟩ :=
    clientMachine_run_dump h (by rw [List.length_append] at hlen; omega) surplus behind hstart
  rw [execute_new_of_buffer chunck hrun (by omega) hnul hlen, hcalls _ rfl, hp]
  refine ⟨_, _, by rw [hdump, Nat.add_sub_cancel], ?_, ?_, ?_, sentAs_parsed_response h, ?_, ?_⟩
  · rw [hrest, htotal, Nat.add_sub_cancel_left, List.take_left, List.take_left]
  · simp [HttpResponseParser.hasError, httpclientParserHasError, HttpclientParser.after, hcs,
      HttpResponseParser.new]
    decide
  · simp [HttpResponseParser.isFinished, httpclientParserFinish, httpclientParserHasError,
      httpclientParserIsFinished, HttpclientParser.after, hcs]
    decide
  · exact hclose
  · intro hne
    exact hcontent _ (by simp [HttpResponse.announced, hne])

/-- A response with a reason of its own, headers, cookies and a body. -/
def loginPage : HttpResponse where
  status := 201
  version := 0x10
  close := true
  body := bytesOf "<p>\r\n"
  reason := bytesOf "Made: here"
  headers := [(bytesOf "Content-Type", bytesOf "text/html; x=1"), (bytesOf "Server", bytesOf "c")]
  cookies := [bytesOf "sid=7;path=/", bytesOf "u=a b"]

theorem loginPage_sendable :
    loginPage.Sendable where
  version := by decide
  status := by decide
  reason := by decide +kernel
  ordered := by decide
  fields := by decide +kernel
  cookies := by decide +kernel

theorem response_dump_read_back_loginPage :
    ∃ h' mem',
      (HttpResponseParser.new newParser.parser).execute clientMachine
          (loginPage.dump ++ bytesOf "HTTP" ++ 0 :: [7])
          (loginPage.dump ++ bytesOf "HTTP").length false =
        .ok (loginPage.dump.length - loginPage.body.length, h', mem') ∧
      mem'.take (loginPage.body ++ bytesOf "HTTP").length = loginPage.body ++ bytesOf "HTTP" ∧
      h'.hasError = false ∧ h'.isFinished = 1 ∧ loginPage.SentAs h'.data ∧
      h'.parser.close = loginPage.close ∧
      (loginPage.body ≠ [] → h'.parser.contentLen = loginPage.body.length) :=
  response_dump_read_back loginPage_sendable newParser.parser false (bytesOf "HTTP") [7]
    (by decide +kernel)

end Call

end Http
end Civan
