import Civan.Http.Fragmentation
import Civan.Http.HeadTable
import Civan.Http.Method

/-!
# Receiving a request head in pieces

The callbacks of `HttpRequestParser` see their token and its length only, and the
method callback in addition the byte after the token, which is a space.  Reads
that report the same tokens as the whole head therefore build the same request.
-/

namespace Civan
namespace Http

open MachineInt

/-- The callbacks on tokens.  A method is followed by a space. -/
def onToken (d : ParserData) : Token → Except Abort ParserData
  | .field name flen value vlen => onRequestHttpField d name flen value vlen
  | .element .requestMethod bytes length => onRequestMethod d (bytes ++ [32]) length
  | .element .requestUri _ _ => .ok d
  | .element .fragment bytes length => onRequestFragment d bytes length
  | .element .requestPath bytes length => onRequestPath d bytes length
  | .element .queryString bytes length => onRequestQuery d bytes length
  | .element .httpVersion bytes length => onRequestVersion d bytes length
  | .silent => .ok d

/-- A method is reported at the space after it. -/
def Report.Delimited (buffer : List UInt8) : Report → Prop
  | .element .requestMethod start fpc => start ≤ fpc ∧ ∃ rest, buffer.drop fpc = 32 :: rest
  | _ => True

section Callbacks

theorem newString_take (ptr : List UInt8) (n : ℕ) :
    newString (ptr.take n) n = newString ptr n := by
  simp [newString, List.take_take]

theorem storeToken_take (set : HttpRequest → List UInt8 → HttpRequest) (d : ParserData)
    (ptr : List UInt8) (n : ℕ) :
    storeToken set d (ptr.take n) n = storeToken set d ptr n := by
  simp only [storeToken, newString_take]

theorem strncmpEq_take (n : ℕ) (ptr text : List UInt8) :
    strncmpEq n (ptr.take n) text = strncmpEq n ptr text := by
  induction n generalizing ptr text with
  | zero => simp [strncmpEq]
  | succ n ih =>
    cases ptr with
    | nil => rfl
    | cons c ptr =>
      cases text with
      | nil => rfl
      | cons t text => simp only [List.take_succ_cons, strncmpEq, ih]

theorem onRequestHttpField_take (d : ParserData) (field value : List UInt8) (flen vlen : ℕ) :
    onRequestHttpField d (field.take flen) flen (value.take vlen) vlen =
      onRequestHttpField d field flen value vlen := by
  simp only [onRequestHttpField, newString_take]

theorem onRequestMethod_stop (d : ParserData) (bytes rest : List UInt8) :
    onRequestMethod d (bytes ++ 32 :: rest) bytes.length =
      onRequestMethod d (bytes ++ [32]) bytes.length := by
  have hstring : ∀ l : List UInt8,
      newString (bytes ++ l) bytes.length = newString bytes bytes.length := by
    intro l
    rw [← newString_take, List.take_left]
  simp only [onRequestMethod, charsToHttpMethod_stop, hstring]

theorem onRequest_eq_onToken {buffer : List UInt8} {r : Report}
    (hr : r.Delimited buffer) (d : ParserData) :
    onRequest buffer d r = onToken d (r.token buffer) := by
  cases r with
  | field fieldStart fieldLen mark fpc => exact (onRequestHttpField_take d _ _ _ _).symm
  | headerDone fpc => rfl
  | element kind start fpc =>
    cases kind with
    | requestUri => rfl
    | fragment =>
      simp only [onRequest, Report.token, onToken, onRequestFragment, storeToken_take]
    | requestPath =>
      simp only [onRequest, Report.token, onToken, onRequestPath, storeToken_take]
    | queryString =>
      simp only [onRequest, Report.token, onToken, onRequestQuery, storeToken_take]
    | httpVersion =>
      simp only [onRequest, Report.token, onToken, onRequestVersion, strncmpEq_take,
        newString_take]
    | requestMethod =>
      obtain ⟨hle, rest, hdrop⟩ := hr
      have hlen : sizeSub fpc start = fpc - start := sizeSub_of_le hle
      have htail : (buffer.drop start).drop (fpc - start) = 32 :: rest := by
        rw [List.drop_drop, ← hdrop]
        congr 1
        omega
      have hin : ((buffer.drop start).take (fpc - start)).length = fpc - start := by
        have hpos : 0 < ((buffer.drop start).drop (fpc - start)).length := by
          rw [htail]
          simp
        rw [List.length_drop] at hpos
        rw [List.length_take]
        omega
      have hsplit : buffer.drop start =
          (buffer.drop start).take (fpc - start) ++ 32 :: rest := by
        rw [← htail, List.take_append_drop]
      have hstop := onRequestMethod_stop d ((buffer.drop start).take (fpc - start)) rest
      rw [hin, ← hsplit] at hstop
      simp only [onRequest, Report.token, onToken, hlen, hstop]

theorem foldlM_onRequest {buffer : List UInt8} {reports : List Report}
    (h : ∀ r ∈ reports, r.Delimited buffer) (d : ParserData) :
    reports.foldlM (onRequest buffer) d =
      (reports.map (Report.token buffer)).foldlM onToken d := by
  induction reports generalizing d with
  | nil => rfl
  | cons r reports ih =>
    rw [List.map_cons, List.foldlM_cons, List.foldlM_cons,
      onRequest_eq_onToken (h r List.mem_cons_self)]
    congr 1
    funext d'
    exact ih (fun x hx => h x (List.mem_cons_of_mem r hx)) d'

end Callbacks

theorem onToken_error {d d' : ParserData} {t : Token}
    (h : onToken d t = .ok d') (herror : d'.error = 0) :
    d.error = 0 := by
  have hstore : ∀ (set : HttpRequest → List UInt8 → HttpRequest) ptr n,
      storeToken set d ptr n = .ok d' → d.error = 0 := by
    intro set ptr n hset
    rw [storeToken] at hset
    split at hset
    · cases hset
    · cases hset
      exact herror
  cases t with
  | silent =>
    cases h
    exact herror
  | field name flen value vlen =>
    simp only [onToken, onRequestHttpField] at h
    split at h
    · cases h
      exact herror
    · split at h
      · cases h
      · split at h
        · cases h
        · cases h
          exact herror
  | element kind bytes length =>
    cases kind with
    | requestUri =>
      cases h
      exact herror
    | fragment =>
      simp only [onToken, onRequestFragment] at h
      exact hstore _ _ _ h
    | requestPath =>
      simp only [onToken, onRequestPath] at h
      exact hstore _ _ _ h
    | queryString =>
      simp only [onToken, onRequestQuery] at h
      exact hstore _ _ _ h
    | requestMethod =>
      simp only [onToken, onRequestMethod] at h
      split at h
      · split at h
        · cases h
        · cases h
          simp at herror
      · cases h
        exact herror
    | httpVersion =>
      simp only [onToken, onRequestVersion] at h
      split at h
      · cases h
        exact herror
      · split at h
        · cases h
          exact herror
        · split at h
          · cases h
          · cases h
            simp at herror

theorem foldlM_onToken_error {tokens : List Token} {d d' : ParserData}
    (h : tokens.foldlM onToken d = .ok d') (herror : d'.error = 0) :
    d.error = 0 := by
  induction tokens generalizing d with
  | nil =>
    cases h
    exact herror
  | cons t tokens ih =>
    rw [List.foldlM_cons] at h
    cases ht : onToken d t with
    | error e =>
      rw [ht] at h
      cases h
    | ok d₁ =>
      rw [ht] at h
      exact onToken_error ht (ih h)

section Delimiters

variable {M : Machine} {buffer rest : List UInt8} {c : UInt8} {p : ℕ}

theorem act_delimited {s : HttpParser} (hmark : s.mark ≤ p) (hbuf : buffer.drop p = c :: rest)
    {a : Action} (hspace : a = .requestMethod → c = 32) :
    (∀ r ∈ (s.act p a).2, r.Delimited buffer) ∧ (s.act p a).1.mark ≤ p := by
  cases a with
  | requestMethod =>
    obtain rfl := hspace rfl
    refine ⟨?_, hmark⟩
    intro r hr
    rw [List.mem_singleton.mp hr]
    exact ⟨hmark, rest, hbuf⟩
  | done =>
    simp only [HttpParser.act]
    split
    · exact ⟨by simp, hmark⟩
    · exact ⟨by simp [Report.Delimited], hmark⟩
  | mark | startValue => exact ⟨by simp [HttpParser.act], Nat.le_refl _⟩
  | startField | writeField | startQuery | xml | json => exact ⟨by simp [HttpParser.act], hmark⟩
  | writeValue | requestUri | fragment | queryString | httpVersion | requestPath =>
    exact ⟨by simp [HttpParser.act, Report.Delimited], hmark⟩

theorem acts_delimited {s : HttpParser} (hmark : s.mark ≤ p) (hbuf : buffer.drop p = c :: rest)
    {as : List Action} (hspace : Action.requestMethod ∈ as → c = 32) :
    (∀ r ∈ (s.acts p as).2, r.Delimited buffer) ∧ (s.acts p as).1.mark ≤ p := by
  induction as generalizing s with
  | nil => exact ⟨by simp [HttpParser.acts], hmark⟩
  | cons a as ih =>
    obtain ⟨hhere, hmark'⟩ := act_delimited hmark hbuf
      (fun ha => hspace (ha ▸ List.mem_cons_self))
    obtain ⟨hlater, hmark''⟩ := ih hmark' (fun h => hspace (List.mem_cons_of_mem a h))
    refine ⟨?_, hmark''⟩
    intro r hr
    rcases List.mem_append.mp hr with hr | hr
    · exact hhere r hr
    · exact hlater r hr

theorem exec_delimited {s : HttpParser} (cs : ℕ) (hmark : s.mark ≤ p)
    (hbuf : buffer.drop p = rest) :
    ∀ r ∈ (exec M rest p cs s).reports, r.Delimited buffer := by
  induction rest generalizing p cs s with
  | nil => simp [exec]
  | cons c rest ih =>
    cases hnext : M.next cs c with
    | none =>
      rw [exec_none hnext]
      simp
    | some j =>
      obtain ⟨t, acts⟩ := j
      obtain ⟨hhere, hmark'⟩ := acts_delimited hmark hbuf (M.method_space _ _ _ _ hnext)
      by_cases hdone : Action.done ∈ acts
      · rw [exec_done hnext hdone]
        exact hhere
      · rw [exec_step hnext hdone]
        have hdrop : buffer.drop (p + 1) = rest := by
          rw [← List.drop_drop, hbuf, List.drop_succ_cons, List.drop_zero]
        have hlater := ih t (Nat.le_succ_of_le hmark') hdrop
        intro r hr
        rcases List.mem_append.mp hr with hr | hr
        · exact hhere r hr
        · exact hlater r hr

/-- Executing the parser on a buffer is running the machine and handing its tokens
to the callbacks. -/
theorem execute_eq {h : HttpRequestParser} (hne : buffer ≠ []) (hlen : buffer.length < 2 ^ 31)
    (hbody : h.parser.bodyStart = 0) :
    h.execute M buffer =
      match ((exec M buffer 0 h.parser.cs h.parser.enter).reports.map
          (Report.token buffer)).foldlM onToken ⟨h.data, h.error⟩ with
      | .error e => .error e
      | .ok d =>
        .ok ((exec M buffer 0 h.parser.cs h.parser.enter).p,
          ⟨HttpParser.leave (exec M buffer 0 h.parser.cs h.parser.enter) 0, d.data, d.error⟩,
          buffer.drop (exec M buffer 0 h.parser.cs h.parser.enter).p) := by
  have hdelim : ∀ r ∈ (exec M buffer 0 h.parser.cs h.parser.enter).reports,
      r.Delimited buffer :=
    exec_delimited _ (Nat.le_refl _) (List.drop_zero)
  rw [HttpRequestParser.execute, httpParserExecute_eq onRequest _ hne hlen (by omega),
    foldlM_onRequest hdelim]
  cases List.foldlM onToken _ _ with
  | error e => rfl
  | ok d => rfl

end Delimiters

section HeadLoop

variable {M : Machine} {buffSize : ℕ}

/-- Which state the machine reaches, and how far it comes, does not depend on the
registers. -/
theorem exec_cs_indep (rest : List UInt8) (p p' cs : ℕ) (s s' : HttpParser) :
    (exec M rest p cs s).cs = (exec M rest p' cs s').cs ∧
      (exec M rest p cs s).p + p' = (exec M rest p' cs s').p + p := by
  induction rest generalizing p p' cs s s' with
  | nil => exact ⟨rfl, Nat.add_comm _ _⟩
  | cons c rest ih =>
    cases hnext : M.next cs c with
    | none =>
      rw [exec_none hnext, exec_none hnext]
      exact ⟨rfl, Nat.add_comm _ _⟩
    | some j =>
      obtain ⟨t, acts⟩ := j
      by_cases hdone : Action.done ∈ acts
      · rw [exec_done hnext hdone, exec_done hnext hdone]
        exact ⟨rfl, by dsimp only; omega⟩
      · rw [exec_step hnext hdone, exec_step hnext hdone]
        obtain ⟨ihcs, ihp⟩ := ih (p + 1) (p' + 1) t (s.acts p acts).1 (s'.acts p' acts).1
        exact ⟨ihcs, by dsimp only; omega⟩

theorem recv_whole {read : List UInt8} {n : ℕ} (rest : Socket)
    (hn : read.length ≤ n) (hmax : read.length ≤ maxRwCount) :
    recv n (.data read :: rest) = ((read.length : ℤ), read, rest) := by
  have hle : read.length ≤ min n maxRwCount := Nat.le_min.mpr ⟨hn, hmax⟩
  simp only [recv]
  rw [List.take_of_length_le hle, if_pos hle]

theorem not_error_of_final {cs : ℕ} (hcs : httpParserFirstFinal ≤ cs) :
    cs ≠ httpParserError := by
  rintro rfl
  exact absurd hcs (by decide)

theorem hasError_eq_false {s : HttpParser} (data : HttpRequest) (hcs : s.cs ≠ httpParserError) :
    (HttpRequestParser.mk s data 0).hasError = false := by
  simp [HttpRequestParser.hasError, httpParserHasError, hcs]

theorem isFinished_of_final {s : HttpParser} (data : HttpRequest) (error : ℕ)
    (hcs : httpParserFirstFinal ≤ s.cs) :
    (HttpRequestParser.mk s data error).isFinished = 1 := by
  simp [HttpRequestParser.isFinished, httpParserFinish, httpParserHasError,
    httpParserIsFinished, not_error_of_final hcs, hcs]

theorem isFinished_of_running {s : HttpParser} (data : HttpRequest) (error : ℕ)
    (hcs : Running s.cs) :
    (HttpRequestParser.mk s data error).isFinished = 0 := by
  simp [HttpRequestParser.isFinished, httpParserFinish, httpParserHasError,
    httpParserIsFinished, hcs.1, hcs.2]

/-- What a read must be for one iteration of the head loop to take it whole. -/
structure Readable (buffSize : ℕ) (r : List UInt8) : Prop where
  ne_nil : r ≠ []
  le_buffSize : r.length ≤ buffSize
  le_maxRwCount : r.length ≤ maxRwCount

variable {s : HttpParser} {data data' : HttpRequest} {r : List UInt8}

theorem recvHeadLoop_execute (hr : Readable buffSize r) (hbody : s.bodyStart = 0)
    (hfold :
      ((exec M r 0 s.cs s.enter).reports.map (Report.token r)).foldlM onToken ⟨data, 0⟩ =
        .ok ⟨data', 0⟩)
    (hp : (exec M r 0 s.cs s.enter).p = r.length)
    (fuel : ℕ) (sock : Socket) :
    recvHeadLoop M buffSize (fuel + 1) ⟨s, data, 0⟩ [] (.data r :: sock) =
      let h' : HttpRequestParser :=
        ⟨HttpParser.leave (exec M r 0 s.cs s.enter) 0, data', 0⟩
      if h'.hasError then .closed sock
      else if (0 : ℤ) = toInt32 buffSize then .closed sock
      else if h'.isFinished ≠ 0 then .finished h' [] sock
      else recvHeadLoop M buffSize fuel h' [] sock := by
  have hpos : 0 < r.length := List.length_pos_iff.mpr hr.ne_nil
  have hlen : r.length < 2 ^ 31 := Nat.lt_of_le_of_lt hr.le_maxRwCount (by decide)
  have hexec := execute_eq (M := M) (h := ⟨s, data, 0⟩) hr.ne_nil hlen hbody
  rw [hfold, hp, List.drop_length] at hexec
  rw [recvHeadLoop, List.length_nil, Nat.sub_zero, recv_whole _ hr.le_buffSize hr.le_maxRwCount]
  dsimp only
  rw [if_neg (by omega), List.nil_append, hexec]
  rfl

theorem recvHeadLoop_running
    (hr : Readable buffSize r) (hbody : s.bodyStart = 0) (hbuf : toInt32 buffSize ≠ 0)
    (hcs : s.enter.cs ≠ httpParserError)
    (hfold :
      ((exec M r 0 s.cs s.enter).reports.map (Report.token r)).foldlM onToken ⟨data, 0⟩ =
        .ok ⟨data', 0⟩)
    (hrun : Running (exec M r 0 s.cs s.enter).cs)
    (fuel : ℕ) (sock : Socket) :
    recvHeadLoop M buffSize (fuel + 1) ⟨s, data, 0⟩ [] (.data r :: sock) =
      recvHeadLoop M buffSize fuel
        ⟨HttpParser.leave (exec M r 0 s.cs s.enter) 0, data', 0⟩ [] sock := by
  have hp := ((exec_p (M := M) r 0 s.cs s.enter).2.2 hrun).1
  have hrunning : Running (HttpParser.leave (exec M r 0 s.cs s.enter) 0).cs := by
    rw [leave_cs r 0 0 s.cs hcs]
    exact hrun
  rw [recvHeadLoop_execute hr hbody hfold (by omega)]
  dsimp only
  rw [hasError_eq_false _ hrunning.1, isFinished_of_running _ _ hrunning, if_neg (by simp),
    if_neg hbuf.symm, if_neg (by simp)]

theorem recvHeadLoop_final
    (hr : Readable buffSize r) (hbody : s.bodyStart = 0) (hbuf : toInt32 buffSize ≠ 0)
    (hcs : s.enter.cs ≠ httpParserError)
    (hfold :
      ((exec M r 0 s.cs s.enter).reports.map (Report.token r)).foldlM onToken ⟨data, 0⟩ =
        .ok ⟨data', 0⟩)
    (hfinal : httpParserFirstFinal ≤ (exec M r 0 s.cs s.enter).cs)
    (hp : (exec M r 0 s.cs s.enter).p = r.length)
    (fuel : ℕ) (sock : Socket) :
    recvHeadLoop M buffSize (fuel + 1) ⟨s, data, 0⟩ [] (.data r :: sock) =
      .finished ⟨HttpParser.leave (exec M r 0 s.cs s.enter) 0, data', 0⟩ [] sock := by
  rw [← leave_cs r 0 0 s.cs hcs] at hfinal
  rw [recvHeadLoop_execute hr hbody hfold hp]
  dsimp only
  rw [hasError_eq_false _ (not_error_of_final hfinal), isFinished_of_final _ _ hfinal,
    if_neg (by simp), if_neg hbuf.symm, if_pos (by simp)]

/--
The head loop from a parser with registers `s`, over reads on which the machine
ends exactly at the end of the last one, and whose tokens the callbacks accept.
-/
theorem recvHeadLoop_reads {reads : List (List UInt8)} {fuel : ℕ}
    (hcs : Running s.cs) (hbody : s.bodyStart = 0) (hbuf : toInt32 buffSize ≠ 0)
    (hreads : ∀ r ∈ reads, Readable buffSize r) (hfuel : reads.length ≤ fuel)
    (hfold : (readTokens M s reads).foldlM onToken ⟨data, 0⟩ = .ok ⟨data', 0⟩)
    (hfinal : httpParserFirstFinal ≤ (exec M reads.flatten 0 s.cs s.enter).cs)
    (hend : (exec M reads.flatten 0 s.cs s.enter).p = reads.flatten.length) :
    ∃ s',
      recvHeadLoop M buffSize fuel ⟨s, data, 0⟩ [] (reads.map .data) =
        .finished ⟨s', data', 0⟩ [] [] ∧
      httpParserFirstFinal ≤ s'.cs := by
  induction reads generalizing s data fuel with
  | nil => exact absurd hcs.2 (Nat.not_lt.mpr hfinal)
  | cons r rs ih =>
    have hr := hreads r List.mem_cons_self
    have hrest : ∀ x ∈ rs, Readable buffSize x :=
      fun x hx => hreads x (List.mem_cons_of_mem r hx)
    rw [List.flatten_cons] at hfinal hend
    rw [List.length_append] at hend
    rw [List.length_cons] at hfuel
    obtain ⟨fuel, rfl⟩ : ∃ k, fuel = k + 1 := Nat.exists_eq_succ_of_ne_zero (by omega)
    -- split the tokens into those of this read and those of the reads after it
    rw [readTokens, List.foldlM_append] at hfold
    cases hhere : ((exec M r 0 s.cs s.enter).reports.map (Report.token r)).foldlM
        onToken ⟨data, 0⟩ with
    | error e =>
      rw [hhere] at hfold
      cases hfold
    | ok d =>
      rw [hhere] at hfold
      have herror : d.error = 0 := foldlM_onToken_error hfold rfl
      obtain ⟨data₁, error₁⟩ := d
      obtain rfl : error₁ = 0 := herror
      have hleave := leave_cs (M := M) r 0 0 s.cs (s := s.enter) hcs.1
      rw [List.map_cons]
      by_cases hrun : Running (exec M r 0 s.cs s.enter).cs
      · obtain ⟨hp, hbody'⟩ := (exec_p (M := M) r 0 s.cs s.enter).2.2 hrun
        obtain ⟨hcs', hp'⟩ := exec_cs_indep (M := M) rs.flatten (0 + r.length) 0
          (exec M r 0 s.cs s.enter).cs (exec M r 0 s.cs s.enter).parser
          (HttpParser.leave (exec M r 0 s.cs s.enter) 0).enter
        rw [exec_append_running _ hrun] at hfinal hend
        dsimp only at hfinal hend
        rw [hcs', ← hleave] at hfinal
        rw [← hleave] at hp'
        rw [if_pos hrun] at hfold
        rw [recvHeadLoop_running hr hbody hbuf hcs.1 hhere hrun]
        refine ih ?_ (hbody'.trans hbody) hrest (by omega) hfold hfinal ?_
        · rw [hleave]
          exact hrun
        · rw [hleave] at hp' ⊢
          omega
      · -- the machine stopped, so nothing follows this read
        rw [exec_append_stopped _ hcs hrun] at hfinal hend
        have hle := (exec_p (M := M) r 0 s.cs s.enter).2.1
        have hnil : rs = [] := by
          cases rs with
          | nil => rfl
          | cons x xs =>
            have hx := List.length_pos_iff.mpr (hrest x List.mem_cons_self).ne_nil
            rw [List.flatten_cons, List.length_append] at hend
            omega
        subst hnil
        rw [if_neg hrun] at hfold
        obtain rfl : data₁ = data' := by
          cases hfold
          rfl
        have hp : (exec M r 0 s.cs s.enter).p = r.length := by simpa using hend
        rw [recvHeadLoop_final hr hbody hbuf hcs.1 hhere hfinal hp]
        rw [← hleave] at hfinal
        exact ⟨_, rfl, hfinal⟩

end HeadLoop

/-- One `execute` on the whole string accepts it as a request head. -/
structure ParsesTo (M : Machine) (queryStart : ℕ) (head : List UInt8)
    (h : HttpRequestParser) : Prop where
  execute_eq : (HttpRequestParser.new queryStart).execute M head = .ok (head.length, h, [])
  no_error : h.hasError = false
  finished : h.isFinished = 1

section Main

variable {M : Machine} {queryStart : ℕ} {head : List UInt8} {h : HttpRequestParser}

theorem ParsesTo.ne_nil (hp : ParsesTo M queryStart head h) : head ≠ [] := by
  rintro rfl
  have hexec := hp.execute_eq
  rw [HttpRequestParser.execute, httpParserExecute] at hexec
  dsimp only at hexec
  rw [if_pos List.length_nil] at hexec
  cases hexec
  have hfinished := hp.finished
  revert hfinished
  simp [HttpRequestParser.isFinished, httpParserFinish, httpParserHasError,
    httpParserIsFinished, HttpRequestParser.new, httpParserInit, httpParserStart,
    httpParserError, httpParserFirstFinal]

theorem ParsesTo.length_lt (hp : ParsesTo M queryStart head h) : head.length < 2 ^ 31 := by
  have hexec := hp.execute_eq
  have hpos : head.length ≠ 0 := fun hz => hp.ne_nil (List.length_eq_zero_iff.mp hz)
  have hzero : toInt32 0 = 0 := toInt32_of_lt (by omega)
  by_contra hge
  have hwrap : (head.length : ℤ) - (0 : ℕ) ≠ toInt32 head.length - toInt32 0 := by
    rw [hzero]
    intro heq
    exact hge (toInt32_eq_self_iff.mp (by simpa using heq.symm))
  rw [HttpRequestParser.execute, httpParserExecute] at hexec
  dsimp only at hexec
  rw [if_neg hpos, if_neg (by omega), if_pos hwrap] at hexec
  cases hexec

theorem running_start : Running httpParserStart := by
  decide

theorem ParsesTo.run (hp : ParsesTo M queryStart head h) :
    (headTokens M queryStart head).foldlM onToken ⟨HttpRequest.new 0x11 true, 0⟩ =
        .ok ⟨h.data, 0⟩ ∧
      httpParserFirstFinal ≤
        (exec M head 0 httpParserStart (httpParserInit queryStart).enter).cs ∧
      (exec M head 0 httpParserStart (httpParserInit queryStart).enter).p = head.length := by
  set e := exec M head 0 httpParserStart (httpParserInit queryStart).enter with he
  have hexec :
      (match (headTokens M queryStart head).foldlM onToken
          ⟨HttpRequest.new 0x11 true, 0⟩ with
        | .error e => .error e
        | .ok d =>
          .ok (e.p, (⟨HttpParser.leave e 0, d.data, d.error⟩ : HttpRequestParser),
            head.drop e.p)) =
        (.ok (head.length, h, []) : Except Abort (ℕ × HttpRequestParser × List UInt8)) :=
    (Http.execute_eq hp.ne_nil hp.length_lt rfl).symm.trans hp.execute_eq
  cases hfold : (headTokens M queryStart head).foldlM onToken ⟨HttpRequest.new 0x11 true, 0⟩ with
  | error a =>
    rw [hfold] at hexec
    cases hexec
  | ok d =>
    rw [hfold] at hexec
    simp only [Except.ok.injEq, Prod.mk.injEq] at hexec
    obtain ⟨hlen, rfl, _⟩ := hexec
    have herror : d.error = 0 ∧ httpParserHasError (HttpParser.leave e 0) = false := by
      simpa [HttpRequestParser.hasError] using hp.no_error
    have hfinished : httpParserFirstFinal ≤ (HttpParser.leave e 0).cs := by
      have := hp.finished
      simp only [HttpRequestParser.isFinished, httpParserFinish, herror.2,
        httpParserIsFinished] at this
      by_contra hlt
      simp [hlt] at this
    rw [he, leave_cs head 0 0 httpParserStart running_start.1, ← he] at hfinished
    obtain ⟨data, error⟩ := d
    obtain rfl : error = 0 := herror.1
    exact ⟨rfl, hfinished, hlen⟩

theorem aligned_init (queryStart queryStart' : ℕ) :
    Aligned 0 0 ⟨.idle, .closed⟩
      (httpParserInit queryStart).enter (httpParserInit queryStart').enter where
  base_le := Nat.le_refl _
  pos_lt := by decide
  mark_eq := rfl
  mark_le := Nat.le_refl _
  fieldStart_eq := rfl
  fieldStart_le := Nat.le_refl _
  name_inside := by simp
  name_ended := by simp
  query_open := fun hne => absurd rfl hne
  query_inside := by simp
  xmlSent_eq := rfl
  jsonSent_eq := rfl

theorem length_le_socketSize (reads : List (List UInt8)) :
    reads.length ≤ Socket.size (reads.map .data) := by
  induction reads with
  | nil => exact Nat.le_refl _
  | cons r rs ih =>
    simp only [List.map_cons, List.length_cons, Socket.size]
    omega

/--
A head that one `execute` accepts, received in any reads a buffer can hold.

The reads report the tokens of the head exactly when no read begins inside a
token; and then the head loop finishes with the request of the whole head.
-/
theorem head_fragmentation {buffSize queryStart' : ℕ} {reads : List (List UInt8)}
    (hvalid : ParsesTo M queryStart reads.flatten h) (hbuf : toInt32 buffSize ≠ 0)
    (hreads : ∀ r ∈ reads, Readable buffSize r) :
    (headTokens M queryStart reads.flatten =
        readTokens M (httpParserInit queryStart') reads ↔
      NoTokenCut M queryStart reads) ∧
    (NoTokenCut M queryStart reads →
      ∃ h',
        recvHead M buffSize queryStart' (reads.map .data) = .finished h' [] [] ∧
        h'.hasError = false ∧
        h'.isFinished = 1 ∧
        h'.data = h.data) := by
  obtain ⟨hfold, hfinal, hend⟩ := hvalid.run
  have hstart : Running (httpParserInit queryStart').cs := running_start
  have hphase : M.phase (httpParserInit queryStart').cs = ⟨.idle, .closed⟩ := M.phase_start
  have htokens :
      headTokens M queryStart reads.flatten =
          readTokens M (httpParserInit queryStart') reads ↔
        NoTokenCut M queryStart reads := by
    have hlt := hvalid.length_lt
    apply readTokens_eq_iff hstart
    · rw [hphase]
      decide
    · rw [hphase]
      exact aligned_init queryStart queryStart'
    · exact List.drop_zero
    · omega
  refine ⟨htokens, ?_⟩
  intro hcut
  have hsame := htokens.mpr hcut
  rw [hsame] at hfold
  obtain ⟨hcs, hp⟩ := exec_cs_indep (M := M) reads.flatten 0 0 httpParserStart
    (httpParserInit queryStart).enter (httpParserInit queryStart').enter
  rw [hcs] at hfinal
  obtain ⟨s', hloop, hcs'⟩ :=
    recvHeadLoop_reads hstart rfl hbuf hreads
      (Nat.le_succ_of_le (length_le_socketSize reads)) hfold hfinal (hp.symm.trans hend)
  exact ⟨_, hloop, hasError_eq_false _ (not_error_of_final hcs'),
    isFinished_of_final _ _ hcs', rfl⟩

/-- A request line and a header line in reads of their own. -/
theorem head_fragmentation_by_line :
    ∃ h h',
      ParsesTo plainMachine 0 (bytesOf "GET / HTTP/1.1\r\nHost: a\r\n\r\n") h ∧
      recvHead plainMachine 4096 5
          [.data (bytesOf "GET / HTTP/1.1\r\n"), .data (bytesOf "Host: a\r\n\r\n")] =
        .finished h' [] [] ∧
      h'.data = h.data := by
  have hvalid :
      ParsesTo plainMachine 0
        [bytesOf "GET / HTTP/1.1\r\n", bytesOf "Host: a\r\n\r\n"].flatten
        ⟨⟨348, 27, 27, 22, 25, 4, 0, false, false⟩,
          ⟨.get, 0x11, true, bytesOf "/", [], [], [], [(bytesOf "Host", bytesOf "a")]⟩, 0⟩ :=
    ⟨by decide +kernel, by decide +kernel, by decide +kernel⟩
  have hreads : ∀ r ∈ [bytesOf "GET / HTTP/1.1\r\n", bytesOf "Host: a\r\n\r\n"],
      Readable 4096 r := by
    simp only [List.forall_mem_cons]
    exact ⟨⟨by decide, by decide, by decide⟩, ⟨by decide, by decide, by decide⟩, by simp⟩
  have hcut : NoTokenCut plainMachine 0
      [bytesOf "GET / HTTP/1.1\r\n", bytesOf "Host: a\r\n\r\n"] := by
    unfold NoTokenCut
    decide +kernel
  obtain ⟨h', hloop, _, _, hdata⟩ :=
    (head_fragmentation (M := plainMachine) hvalid (by decide) hreads).2 hcut
  exact ⟨_, h', hvalid, hloop, hdata⟩

/-- A read that ends inside the method: one `execute` accepts the head, but the
head loop sees the method `T` and closes the connection. -/
theorem method_split_over_reads_rejected :
    (∃ h, ParsesTo plainMachine 0 (bytesOf "GET / HTTP/1.1\r\n\r\n") h) ∧
      recvHead plainMachine 4096 0
          [.data (bytesOf "GE"), .data (bytesOf "T / HTTP/1.1\r\n\r\n")] =
        .closed [] := by
  refine ⟨⟨⟨⟨348, 18, 18, 6, 16, 0, 0, false, false⟩,
    ⟨.get, 0x11, true, bytesOf "/", [], [], [], []⟩, 0⟩, ?_⟩, by decide +kernel⟩
  exact ⟨by decide +kernel, by decide +kernel, by decide +kernel⟩

end Main

end Http
end Civan
