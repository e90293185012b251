import Civan.Http.RequestPieces
import Civan.Http.SentHeaders

/-!
# A printed request is read back

`HttpRequest::dump` on one side and `HttpRequestParser::execute` on the other.  What is
read back is the request itself, with the printed `connection` and `content-length` among
its headers.
-/

namespace Civan
namespace Http

open MachineInt Mealy

section Head

theorem parsesTo_of_exec {M : Machine} {queryStart : ℕ} {head : List UInt8} {d : HttpRequest}
    (hne : head ≠ []) (hlen : head.length < 2 ^ 31)
    (hp : (exec M head 0 httpParserStart (httpParserInit queryStart).enter).p = head.length)
    (hfinal : httpParserFirstFinal ≤
      (exec M head 0 httpParserStart (httpParserInit queryStart).enter).cs)
    (hfold : (headTokens M queryStart head).foldlM onToken ⟨HttpRequest.new 0x11 true, 0⟩ =
      .ok ⟨d, 0⟩) :
    ∃ h, ParsesTo M queryStart head h ∧ h.data = d := by
  rw [← leave_cs head 0 0 httpParserStart (s := (httpParserInit queryStart).enter)
    running_start.1] at hfinal
  have hexec := Http.execute_eq (M := M) (h := .new queryStart) hne hlen rfl
  have hfold' :
      ((exec M head 0 (HttpRequestParser.new queryStart).parser.cs
          (HttpRequestParser.new queryStart).parser.enter).reports.map
          (Report.token head)).foldlM onToken
        ⟨(HttpRequestParser.new queryStart).data, (HttpRequestParser.new queryStart).error⟩ =
      .ok ⟨d, 0⟩ :=
    hfold
  have hp' :
      (exec M head 0 (HttpRequestParser.new queryStart).parser.cs
        (HttpRequestParser.new queryStart).parser.enter).p = head.length :=
    hp
  rw [hfold', hp', List.drop_length] at hexec
  exact ⟨_, ⟨hexec, hasError_eq_false _ (not_error_of_final hfinal),
    isFinished_of_final _ _ hfinal⟩, rfl⟩

theorem parsesTo_of_delivers {M : Machine} (hM : M.Extends originJumps)
    {w : List UInt8} {f : HttpRequest → HttpRequest}
    (h : Delivers originNext httpParserStart w 13 f)
    (queryStart : ℕ) (hlen : (w ++ crlf).length < 2 ^ 31) :
    ∃ h', ParsesTo M queryStart (w ++ crlf) h' ∧ h'.data = f (HttpRequest.new 0x11 true) := by
  obtain ⟨es, hreads, hdone, hcalls⟩ :=
    h (w ++ crlf) crlf 0 (httpParserInit queryStart).enter hlen List.drop_zero
  have hcr : M.next 13 13 = some (18, [.startField]) := hM _ _ _ (by decide +kernel)
  have hlf : M.next 18 10 = some (348, [.done]) := hM _ _ _ (by decide +kernel)
  have hrun := exec_of_reads (hreads.mono hM) hdone crlf (httpParserInit queryStart).enter
  -- the two bytes of the empty line, after the run over `w`
  have hend : ∀ p s, (exec M crlf p 13 s).p = p + 2 ∧ (exec M crlf p 13 s).cs = 348 ∧
      ∀ d, ((exec M crlf p 13 s).reports.map (Report.token (w ++ crlf))).foldlM onToken d =
        .ok d := by
    intro p s
    rw [crlf, exec_step hcr (by simp), exec_done hlf (by simp)]
    refine ⟨rfl, rfl, ?_⟩
    intro d
    simp only [HttpParser.acts, HttpParser.act, List.append_nil, List.nil_append]
    split_ifs
    · rfl
    · rfl
  obtain ⟨hp, hcs, hsilent⟩ :=
    hend (0 + w.length) (replay HttpParser.act (httpParserInit queryStart).enter es).1
  refine parsesTo_of_exec (List.append_ne_nil_of_right_ne_nil w (by decide)) hlen ?_ ?_ ?_
  · rw [hrun, hp, List.length_append, Nat.zero_add]
    rfl
  · rw [hrun, hcs]
    exact Nat.le_refl _
  · rw [headTokens, headReports, hrun, List.map_append, List.foldlM_append, hcalls]
    exact hsilent _

/-- A request that the grammar has a place for: a method other than `M-SEARCH`, which has
a hyphen, a version that is known, a path of one slash and more, and header fields that
stand on a line of their own. -/
structure HttpRequest.Sendable (r : HttpRequest) : Prop where
  known : r.method ≠ .invalidMethod
  hyphenless : r.method ≠ .msearch
  version : r.version = 0x10 ∨ r.version = 0x11
  path : PathText r.path
  query : escapedText queryChars r.query = true
  fragment : escapedText queryChars r.fragment = true
  ordered : r.headers.Pairwise fun i j => caseInsensitiveLess i.1 j.1 = true
  fields : ∀ i ∈ r.headers, i.1 ≠ [] ∧ (∀ c ∈ i.1, tokenByte c = true) ∧ ValueText i.2

/-- The target of the start line. -/
def HttpRequest.target (r : HttpRequest) : List UInt8 :=
  r.path ++ (if r.query = [] then [] else bytesOf "?") ++ r.query ++
    (if r.fragment = [] then [] else bytesOf "#") ++ r.fragment

/-- The fields of the start line, as far as they are printed. -/
def HttpRequest.withTarget (r d : HttpRequest) : HttpRequest :=
  { d with
    path := r.path
    query := if r.query = [] then d.query else r.query
    fragment := if r.fragment = [] then d.fragment else r.fragment }

variable {r : HttpRequest}

/-- The query and the fragment may be missing: four ways from the path to the blank. -/
theorem delivers_target (h : r.Sendable) :
    Delivers originNext 3 (r.target ++ [32]) 4 r.withTarget := by
  have htext : bytesOf "?" = [63] ∧ bytesOf "#" = [35] := by decide
  have hpath := @delivers_path r.path h.path
  unfold HttpRequest.target HttpRequest.withTarget
  by_cases hquery : r.query = []
  · by_cases hfragment : r.fragment = []
    · have hend := @hpath 32 4 [.requestUri] (Or.inr rfl)
        (by simp [originJumps, requestLineJumps, pathJumps])
      simpa [hquery, hfragment] using hend
    · have hhash := @hpath 35 20 [.requestUri] (Or.inr rfl) (by simp [originJumps, pathJumps])
      have hend := hhash.append (delivers_fragment hfragment h.fragment)
      simpa [hquery, hfragment, htext, Function.comp_def] using hend
  · have hmark := @hpath 63 29 [] (Or.inl rfl) (by simp [originJumps, pathJumps])
    by_cases hfragment : r.fragment = []
    · have hmem : ⟨30, 32, 32, 4, [.queryString, .requestUri]⟩ ∈ originJumps := by
        simp [originJumps, queryJumps]
      have hend := hmark.append (delivers_query hquery h.query hmem)
      simpa [hquery, hfragment, htext, Function.comp_def] using hend
    · have hmem : ⟨30, 35, 35, 20, [.queryString, .requestUri]⟩ ∈ originJumps := by
        simp [originJumps, queryJumps]
      have hend := (hmark.append (delivers_query hquery h.query hmem)).append
        (delivers_fragment hfragment h.fragment)
      simpa [hquery, hfragment, htext, Function.comp_def] using hend

/-- The fields of a request, as they are printed. -/
def HttpRequest.printed (r : HttpRequest) : List (List UInt8 × List UInt8) :=
  connectionField r.close :: userFields r.headers ++ lengthFields r.body

theorem valueText_of_bytes {value : List UInt8}
    (h : ∀ c ∈ value, valueByte c = true ∧ c ≠ 32 ∧ c ≠ 9) :
    ValueText value := by
  refine ⟨fun c hc => (h c hc).1, ?_, ?_⟩
  · intro hhead
    exact (h 32 (List.mem_of_head? hhead)).2.1 rfl
  · intro hhead
    exact (h 9 (List.mem_of_head? hhead)).2.2 rfl

theorem HttpRequest.Sendable.printed (h : r.Sendable) :
    ∀ i ∈ r.printed, i.1 ≠ [] ∧ (∀ c ∈ i.1, tokenByte c = true) ∧ ValueText i.2 := by
  have hconnection : ∀ close, (connectionField close).1 ≠ [] ∧
      (connectionField close).1.all tokenByte = true ∧
      (connectionField close).2.all (fun c => valueByte c && c ≠ 32 && c ≠ 9) = true := by
    decide +kernel
  have hlength : bytesOf "content-length" ≠ [] ∧
      (bytesOf "content-length").all tokenByte = true := by
    decide +kernel
  have hdigit : ∀ c : UInt8, 48 ≤ c ∧ c ≤ 57 → valueByte c = true ∧ c ≠ 32 ∧ c ≠ 9 := by
    decide +kernel
  intro i hi
  rw [HttpRequest.printed, List.cons_append] at hi
  rcases List.mem_cons.mp hi with rfl | hi
  · obtain ⟨hne, hname, hvalue⟩ := hconnection r.close
    rw [List.all_eq_true] at hname hvalue
    exact ⟨hne, hname, valueText_of_bytes fun c hc => by simpa [and_assoc] using hvalue c hc⟩
  · rcases List.mem_append.mp hi with hi | hi
    · exact h.fields i (List.mem_filter.mp hi).1
    · rw [lengthFields] at hi
      split_ifs at hi
      · rw [List.mem_singleton.mp hi]
        exact ⟨hlength.1, List.all_eq_true.mp hlength.2,
          valueText_of_bytes fun c hc => hdigit c (decimal_digits _ c hc)⟩
      · cases hi

/-- The printed head without its empty line. -/
def HttpRequest.lines (r : HttpRequest) : List UInt8 :=
  r.startLine ++ crlf ++ r.printed.flatMap fun i => fieldLine i ++ crlf

theorem HttpRequest.dump_eq (r : HttpRequest) : r.dump = r.lines ++ crlf ++ r.body := by
  have h := dump_eq_lines (.request r)
  rw [List.flatMap_cons, List.flatMap_map] at h
  rw [HttpRequest.lines]
  exact h

/-- The request as the callbacks build it from the head. -/
def HttpRequest.parsed (r : HttpRequest) : HttpRequest :=
  r.printed.foldl (fun d i => d.setHeader i.1 i.2)
    { HttpRequest.new r.version true with
      method := r.method
      path := r.path
      query := r.query
      fragment := r.fragment }

theorem delivers_lines (h : r.Sendable) :
    ∃ f, Delivers originNext httpParserStart r.lines 13 f ∧
      f (HttpRequest.new 0x11 true) = r.parsed := by
  have hline : r.lines = (httpMethodToString r.method ++ [32]) ++ (r.target ++ [32]) ++
      (versionText r.version ++ crlf) ++ r.printed.flatMap fun i => fieldLine i ++ crlf := by
    have hblank : bytesOf " " = [32] := by decide
    simp only [HttpRequest.lines, HttpRequest.startLine, HttpRequest.target, hblank,
      List.append_assoc]
  refine ⟨_, hline ▸ (((delivers_method h.known h.hyphenless).append
    (delivers_target h)).append (delivers_version h.version)).append
    (delivers_fields h.printed), ?_⟩
  have hempty : ∀ w : List UInt8, (if w = [] then [] else w) = w := by
    intro w
    split_ifs with hw
    · exact hw.symm
    · rfl
  simp only [Function.comp_def, HttpRequest.withTarget, HttpRequest.new, hempty,
    HttpRequest.parsed]

/-- The head of a printed request is accepted, and the callbacks have built the request
from it. -/
theorem parsesTo_dump {M : Machine} (hM : M.Extends originJumps)
    (h : r.Sendable) (queryStart : ℕ) (hlen : (r.lines ++ crlf).length < 2 ^ 31) :
    ∃ h', ParsesTo M queryStart (r.lines ++ crlf) h' ∧ h'.data = r.parsed := by
  obtain ⟨f, hf, hparsed⟩ := delivers_lines h
  rw [← hparsed]
  exact parsesTo_of_delivers hM hf queryStart hlen

/-- The header that the other side finds under a name: `connection` and the length of a
body are as printed, the others as they were set. -/
def HttpRequest.sentHeader (r : HttpRequest) (key : List UInt8) : Option (List UInt8) :=
  if foldCase key = foldCase (bytesOf "connection") then
    some (connectionValue r.close)
  else if r.body ≠ [] ∧ foldCase key = foldCase (bytesOf "content-length") then
    some (decimal r.body.length)
  else
    MapType.find key r.headers

/-- Up to the length of the body, which is printed last. -/
theorem find_leading_fields (h : r.Sendable) (key : List UInt8) :
    MapType.find key
        (MapType.setAll (connectionField r.close :: userFields r.headers) []) =
      if foldCase key = foldCase (bytesOf "connection") then some (connectionValue r.close)
      else MapType.find key r.headers := by
  have hnone : MapType.find key [] = none := rfl
  rw [setAll_cons, find_setAll_of_pairwise (userFields_pairwise h.ordered), find_set,
    connectionField, hnone]
  by_cases hkey : foldCase key = foldCase (bytesOf "connection")
  · rw [find_userFields_connection hkey, if_pos hkey, if_pos hkey.symm]
    rfl
  · rw [find_userFields_of_ne hkey, if_neg hkey, if_neg (fun heq => hkey heq.symm),
      Option.or_none]

theorem find_parsed (h : r.Sendable) (key : List UInt8) :
    MapType.find key r.parsed.headers = r.sentHeader key := by
  have hheaders : r.parsed.headers = MapType.setAll (lengthFields r.body)
      (MapType.setAll (connectionField r.close :: userFields r.headers) []) := by
    rw [HttpRequest.parsed, foldl_setHeader, ← setAll_append]
    rfl
  rw [hheaders, HttpRequest.sentHeader, lengthFields]
  by_cases hbody : r.body = []
  · rw [if_neg (not_not.mpr hbody), setAll_nil, find_leading_fields h]
    simp [hbody]
  · rw [if_pos hbody, setAll_singleton, find_set, find_leading_fields h]
    by_cases hkey : foldCase key = foldCase (bytesOf "content-length")
    · simp [hbody, hkey, length_ne_connection.symm]
    · simp [hkey, eq_comm]

/-- The same request, as far as the other side can see it. -/
structure HttpRequest.SentAs (r d : HttpRequest) : Prop where
  method : d.method = r.method
  version : d.version = r.version
  path : d.path = r.path
  query : d.query = r.query
  fragment : d.fragment = r.fragment
  header : ∀ key, MapType.find key d.headers = r.sentHeader key

theorem sentAs_parsed (h : r.Sendable) : r.SentAs r.parsed := by
  have hparsed : r.parsed = { HttpRequest.new r.version true with
      method := r.method
      path := r.path
      query := r.query
      fragment := r.fragment
      headers := r.parsed.headers } := by
    rw [HttpRequest.parsed, foldl_setHeader]
  exact
    { method := by rw [hparsed]
      version := by rw [hparsed]; rfl
      path := by rw [hparsed]
      query := by rw [hparsed]
      fragment := by rw [hparsed]
      header := find_parsed h }

/--
**A printed request is read back.**  For every machine with the generated jumps, and
every request that the grammar has a place for: `execute` on the printed request and
whatever follows it in the buffer consumes the head, leaves the body and what follows, and
has the request with its method, version, path, query, fragment and headers.
-/
theorem execute_dump {M : Machine} (hM : M.Extends originJumps)
    (h : r.Sendable) (queryStart : ℕ) (surplus : List UInt8)
    (hlen : (r.dump ++ surplus).length < 2 ^ 31) :
    ∃ h',
      (HttpRequestParser.new queryStart).execute M (r.dump ++ surplus) =
          .ok (r.dump.length - r.body.length, h', r.body ++ surplus) ∧
        h'.hasError = false ∧ h'.isFinished = 1 ∧ r.SentAs h'.data := by
  rw [r.dump_eq, List.append_assoc _ r.body] at hlen ⊢
  have hhead : (r.lines ++ crlf).length < 2 ^ 31 := by
    rw [List.length_append] at hlen
    omega
  obtain ⟨h₀, hparses, hdata⟩ := parsesTo_dump hM h queryStart hhead
  obtain ⟨s, hexec, hfinal⟩ := hparses.execute_append queryStart hlen
  have hcount : (r.lines ++ crlf ++ r.body).length - r.body.length =
      (r.lines ++ crlf).length := by
    rw [List.length_append, Nat.add_sub_cancel]
  rw [hcount]
  refine ⟨_, hexec, hasError_eq_false _ (not_error_of_final hfinal),
    isFinished_of_final _ _ hfinal, ?_⟩
  dsimp only
  rw [hdata]
  exact sentAs_parsed h

/-- A request with every part that a start line can have. -/
def postForm : HttpRequest where
  method := .post
  version := 0x11
  close := false
  path := bytesOf "/a/%20b"
  query := bytesOf "q=1&r=%2F"
  fragment := bytesOf "top"
  body := bytesOf "abc"
  headers := [(bytesOf "Accept", bytesOf "*/*"), (bytesOf "Host", bytesOf "h:80")]

theorem postForm_sendable :
    postForm.Sendable where
  known := by decide
  hyphenless := by decide
  version := by decide
  path := ⟨bytesOf "a/%20b", by decide, by decide, by decide +kernel⟩
  query := by decide +kernel
  fragment := by decide +kernel
  ordered := by decide
  fields := by
    unfold ValueText
    decide +kernel

theorem execute_dump_postForm :
    ∃ h',
      (HttpRequestParser.new 7).execute originMachine (postForm.dump ++ bytesOf "GET") =
          .ok (postForm.dump.length - postForm.body.length, h', postForm.body ++ bytesOf "GET") ∧
        h'.hasError = false ∧ h'.isFinished = 1 ∧ postForm.SentAs h'.data :=
  execute_dump originMachine_extends postForm_sendable 7 (bytesOf "GET") (by decide +kernel)

end Head

end Http
end Civan
