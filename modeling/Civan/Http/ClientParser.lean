import Civan.Http.Dump
import Civan.Lib.Strtol

/-!
# The response parser

`httpclient_parser_execute` runs the machine generated from `httpclient_parser.rl`,
asserts that the machine stayed in its buffer, and then checks that its marks are inside
as well.  The assertions end the program; a failed check returns `-1`.

`HttpResponseParser::execute` stores what it gets in a `size_t` and moves the rest of the
buffer to the front by it.  The marks are zero on entry, so they pass their checks
whenever the buffer has a byte.  An empty buffer has none: the parser returns `-1`, and
the wrapper takes it for an offset.
-/

namespace Civan
namespace Http

open MachineInt Strtol

/-- The actions embedded in the grammar. -/
inductive ClientAction where
  | mark
  | startField
  | writeField
  | startValue
  | writeContentLen
  | writeConnectionClose
  | writeValue
  | reasonPhrase
  | statusCode
  | httpVersion
  | chunkSize
  | transChunked
  | done
deriving DecidableEq, Repr

/-- `httpclient_parser_start`. -/
def httpclientParserStart : ℕ := 1

/-- `httpclient_parser_error`. -/
def httpclientParserError : ℕ := 0

/-- `httpclient_parser`, without the callbacks. -/
structure HttpclientParser where
  cs : ℕ
  bodyStart : ℕ
  contentLen : ℤ
  status : ℤ
  chunked : Bool
  chunksDone : Bool
  close : Bool
  nread : ℕ
  mark : ℕ
  fieldStart : ℕ
  fieldLen : ℕ
deriving DecidableEq, Repr

/-- The elements reported through an `element_cb`. -/
inductive ClientElement where
  | reasonPhrase
  | statusCode
  | chunkSize
  | httpVersion
  | lastChunk
deriving DecidableEq, Repr

/-- A callback invocation, by the offsets its pointers are made of. -/
inductive ClientReport where
  | field (fieldStart fieldLen mark fpc : ℕ)
  | element (kind : ClientElement) (start fpc : ℕ)
  | headerDone (fpc : ℕ)
deriving DecidableEq, Repr

/-- `httpclient_parser_init`.  `status` keeps what the memory held. -/
def httpclientParserInit (s : HttpclientParser) : HttpclientParser where
  cs := httpclientParserStart
  bodyStart := 0
  contentLen := -1
  status := s.status
  chunked := false
  chunksDone := false
  close := false
  nread := 0
  mark := 0
  fieldStart := 0
  fieldLen := 0

/-- One action at offset `fpc`.  The numbers are read from the memory behind the mark,
however far they go. -/
def HttpclientParser.act (mem : List UInt8) (s : HttpclientParser) (fpc : ℕ) :
    ClientAction → HttpclientParser × List ClientReport
  | .mark => ({ s with mark := fpc }, [])
  | .startField => ({ s with fieldStart := fpc }, [])
  | .writeField => ({ s with fieldLen := sizeSub fpc s.fieldStart }, [])
  | .startValue => ({ s with mark := fpc }, [])
  | .writeContentLen => ({ s with contentLen := strtolInt 10 (mem.drop s.mark) }, [])
  | .writeConnectionClose => ({ s with close := true }, [])
  | .writeValue => (s, [.field s.fieldStart s.fieldLen s.mark fpc])
  | .reasonPhrase => (s, [.element .reasonPhrase s.mark fpc])
  | .statusCode =>
    ({ s with status := strtolInt 10 (mem.drop s.mark) }, [.element .statusCode s.mark fpc])
  | .httpVersion => (s, [.element .httpVersion s.mark fpc])
  | .chunkSize =>
    let n := strtolInt 16 (mem.drop s.mark)
    ({ s with chunked := true, contentLen := n, chunksDone := decide (n ≤ 0) },
      [.element (if n ≤ 0 then .lastChunk else .chunkSize) s.mark fpc])
  | .transChunked => ({ s with chunked := true }, [])
  | .done => ({ s with bodyStart := fpc + 1 }, [.headerDone fpc])

/-- The actions of one jump, in order; `done` breaks out of the machine. -/
def HttpclientParser.acts (mem : List UInt8) :
    HttpclientParser → ℕ → List ClientAction → HttpclientParser × List ClientReport
  | s, _, [] => (s, [])
  | s, fpc, a :: as =>
    let (s₁, rs₁) := s.act mem fpc a
    if a = .done then
      (s₁, rs₁)
    else
      let (s₂, rs₂) := s₁.acts mem fpc as
      (s₂, rs₁ ++ rs₂)

/-- Where the machine stops: offset, state, registers and the callbacks so far. -/
structure ClientExec where
  p : ℕ
  cs : ℕ
  parser : HttpclientParser
  reports : List ClientReport
deriving DecidableEq, Repr

/-- `write exec`: run over the bytes from offset `p` on. -/
def clientExec (next : ℕ → UInt8 → Option (ℕ × List ClientAction)) (mem : List UInt8) :
    List UInt8 → ℕ → ℕ → HttpclientParser → ClientExec
  | [], p, cs, s => ⟨p, cs, s, []⟩
  | c :: rest, p, cs, s =>
    match next cs c with
    | none => ⟨p, httpclientParserError, s, []⟩
    | some (t, acts) =>
      let (s', rs) := s.acts mem p acts
      if ClientAction.done ∈ acts then
        ⟨p + 1, t, s', rs⟩
      else
        let r := clientExec next mem rest (p + 1) t s'
        { r with reports := rs ++ r.reports }

/-- The marks of a parser are positions of which `V` holds: `field_len` is the distance
of two of them, and `body_start` follows one unless it is still `body`. -/
structure Marks (V : ℕ → Prop) (body : ℕ) (s : HttpclientParser) : Prop where
  nread : s.nread = 0
  mark : s.mark = 0 ∨ V s.mark
  fieldStart : s.fieldStart = 0 ∨ V s.fieldStart
  fieldLen : s.fieldLen = 0 ∨
    ∃ start q, (start = 0 ∨ V start) ∧ V q ∧ start ≤ q ∧ s.fieldLen = q - start
  bodyStart : s.bodyStart = body ∨ ∃ q, V q ∧ s.bodyStart = q + 1

/-- A position with a byte, between the start and the stop of the machine. -/
def Visited (off len stop q : ℕ) : Prop :=
  off ≤ q ∧ q ≤ stop ∧ q < len

/-- The registers on entry to the machine. -/
def HttpclientParser.enter (s : HttpclientParser) : HttpclientParser :=
  { s with nread := 0, mark := 0, fieldLen := 0, fieldStart := 0 }

/-- A machine over the `len` bytes from `mem` on, started at offset `off`: it stops inside
its buffer, and its marks are positions it has visited. -/
structure ClientMachine where
  run : HttpclientParser → List UInt8 → ℕ → ℕ → ClientExec
  stops :
    ∀ s mem len off, off ≤ len → len ≤ mem.length →
      off ≤ (run s mem len off).p ∧ (run s mem len off).p ≤ len
  marks :
    ∀ (s : HttpclientParser) mem len off, off ≤ len → len ≤ mem.length →
      Marks (Visited off len (run s.enter mem len off).p) s.bodyStart
        (run s.enter mem len off).parser

/-- Ways in which a call does not return. -/
inductive ClientFault where
  | assertion (text : String)
  | outOfBounds
deriving DecidableEq, Repr

/-- The end of `httpclient_parser_execute`: assertions first, then the checks. -/
def HttpclientParser.leave (s : HttpclientParser) (p len : ℕ) :
    Except ClientFault ℤ :=
  if ¬ p ≤ len then .error (.assertion "buffer overflow after parsing execute")
  else if ¬ s.nread ≤ len then .error (.assertion "nread longer than length")
  else if ¬ s.bodyStart ≤ len then .error (.assertion "body starts after buffer end")
  else if ¬ s.mark < len then .ok (-1)
  else if ¬ s.fieldLen ≤ len then .ok (-1)
  else if ¬ s.fieldStart < len then .ok (-1)
  else .ok (toInt32 s.nread)

/-- The registers after the machine stopped at `r`, started at offset `off`. -/
def HttpclientParser.after (r : ClientExec) (off : ℕ) : HttpclientParser :=
  { r.parser with cs := r.cs, nread := r.parser.nread + (r.p - off) }

/-- `httpclient_parser_execute` on the memory from `buffer` on. -/
def httpclientParserExecute (M : ClientMachine) (s : HttpclientParser)
    (mem : List UInt8) (len off : ℕ) :
    Except ClientFault (ℤ × HttpclientParser × List ClientReport) :=
  if ¬ off ≤ len then
    .error (.assertion "offset past end of buffer")
  else
    match mem[len]? with
    | none => .error .outOfBounds
    | some c =>
      if c ≠ 0 then
        .error (.assertion "pointer does not end on NUL")
      else if (len : ℤ) - off ≠ toInt32 len - toInt32 off then
        .error (.assertion "pointers aren't same distance")
      else
        let r := M.run s.enter mem len off
        match (HttpclientParser.after r off).leave r.p len with
        | .error e => .error e
        | .ok ret => .ok (ret, HttpclientParser.after r off, r.reports)

/-- `HttpResponseParser`. -/
structure HttpResponseParser where
  parser : HttpclientParser
  data : HttpResponse
  error : ℕ
deriving DecidableEq, Repr

/-- `HttpResponse(version, close)`. -/
def HttpResponse.new (version : UInt8) (close : Bool) : HttpResponse where
  status := 200
  version := version
  close := close
  body := []
  reason := []
  headers := []
  cookies := []

/-- The constructor, on the memory of a parser. -/
def HttpResponseParser.new (s : HttpclientParser) : HttpResponseParser where
  parser := httpclientParserInit s
  data := HttpResponse.new 0x11 true
  error := 0

def onResponseVersion (h : HttpResponseParser) (ptr : List UInt8) (length : ℕ) :
    HttpResponseParser :=
  if strncmpEq length ptr (bytesOf "HTTP/1.1") then
    { h with data := { h.data with version := 0x11 } }
  else if strncmpEq length ptr (bytesOf "HTTP/1.0") then
    { h with data := { h.data with version := 0x10 } }
  else
    { h with error := 1001 }

/-- A field with an empty name is dropped. -/
def onResponseHttpField (h : HttpResponseParser)
    (field : List UInt8) (flen : ℕ) (value : List UInt8) (vlen : ℕ) :
    HttpResponseParser :=
  if flen = 0 then
    h
  else
    { h with
      data := { h.data with
        headers := h.data.headers.set (field.take flen) (value.take vlen) } }

/-- The callbacks the constructor installs; those for chunks and for the end of the head
are empty.  The lengths they get are distances in the buffer, which no string refuses. -/
def onResponse (mem : List UInt8) (h : HttpResponseParser) :
    ClientReport → HttpResponseParser
  | .field fieldStart fieldLen mark fpc =>
    onResponseHttpField h (mem.drop fieldStart) fieldLen (mem.drop mark) (sizeSub fpc mark)
  | .element .reasonPhrase start fpc =>
    { h with data := { h.data with reason := (mem.drop start).take (sizeSub fpc start) } }
  | .element .statusCode start _ =>
    { h with data := { h.data with status := (atoi (mem.drop start) % 2 ^ 32).toNat } }
  | .element .chunkSize _ _ => h
  | .element .httpVersion start fpc => onResponseVersion h (mem.drop start) (sizeSub fpc start)
  | .element .lastChunk _ _ => h
  | .headerDone _ => h

/-- `memmove(data, data + offset, count)` on the memory from `data` on. -/
def memmove (mem : List UInt8) (offset count : ℕ) : Option (List UInt8) :=
  if offset + count ≤ mem.length then
    some ((mem.drop offset).take count ++ mem.drop count)
  else
    none

/-- An `int` stored in a `size_t`. -/
def toSize (n : ℤ) : ℕ :=
  (n % 2 ^ 64).toNat

/-- The parser a call starts with. -/
def HttpResponseParser.begin (h : HttpResponseParser) (chunck : Bool) : HttpclientParser :=
  if chunck then httpclientParserInit h.parser else h.parser

/-- `HttpResponseParser::execute`: the offset it returns, the parser, and the memory. -/
def HttpResponseParser.execute (M : ClientMachine) (h : HttpResponseParser)
    (mem : List UInt8) (len : ℕ) (chunck : Bool) :
    Except ClientFault (ℕ × HttpResponseParser × List UInt8) :=
  match httpclientParserExecute M (h.begin chunck) mem len 0 with
  | .error e => .error e
  | .ok (ret, s, reports) =>
    let offset := toSize ret
    match memmove mem offset (sizeSub len offset) with
    | none => .error .outOfBounds
    | some mem' => .ok (offset, reports.foldl (onResponse mem) { h with parser := s }, mem')

section Table

variable {next : ℕ → UInt8 → Option (ℕ × List ClientAction)} {mem : List UInt8}

theorem Marks.mono {V V' : ℕ → Prop} {body : ℕ} {s : HttpclientParser}
    (h : Marks V body s) (hV : ∀ q, V q → V' q) :
    Marks V' body s where
  nread := h.nread
  mark := h.mark.imp_right (hV _)
  fieldStart := h.fieldStart.imp_right (hV _)
  fieldLen := by
    refine h.fieldLen.imp_right ?_
    rintro ⟨start, q, hstart, hq, hle, hlen⟩
    exact ⟨start, q, hstart.imp_right (hV _), hV _ hq, hle, hlen⟩
  bodyStart := by
    refine h.bodyStart.imp_right ?_
    rintro ⟨q, hq, hbody⟩
    exact ⟨q, hV _ hq, hbody⟩

theorem Marks.act {V : ℕ → Prop} {p body : ℕ} {s : HttpclientParser}
    (h : Marks V body s) (hp : V p) (hV : ∀ q, V q → q ≤ p) (a : ClientAction) :
    Marks V body (s.act mem p a).1 := by
  cases a with
  | mark => exact { h with mark := Or.inr hp }
  | startValue => exact { h with mark := Or.inr hp }
  | startField => exact { h with fieldStart := Or.inr hp }
  | writeField =>
    have hle : s.fieldStart ≤ p := by
      cases h.fieldStart with
      | inl hzero => omega
      | inr hstart => exact hV _ hstart
    exact { h with
      fieldLen := Or.inr ⟨s.fieldStart, p, h.fieldStart, hp, hle, sizeSub_of_le hle⟩ }
  | done => exact { h with bodyStart := Or.inr ⟨p, hp, rfl⟩ }
  | writeContentLen => exact { h with }
  | writeConnectionClose => exact { h with }
  | writeValue => exact h
  | reasonPhrase => exact h
  | statusCode => exact { h with }
  | httpVersion => exact h
  | chunkSize => exact { h with }
  | transChunked => exact { h with }

theorem Marks.acts {V : ℕ → Prop} {p body : ℕ} {s : HttpclientParser}
    (h : Marks V body s) (hp : V p) (hV : ∀ q, V q → q ≤ p) (as : List ClientAction) :
    Marks V body (s.acts mem p as).1 := by
  induction as generalizing s with
  | nil => exact h
  | cons a as ih =>
    simp only [HttpclientParser.acts]
    split
    · exact h.act hp hV a
    · exact ih (h.act hp hV a)

theorem Marks.read {off p body : ℕ} {s : HttpclientParser}
    (h : Marks (fun q => off ≤ q ∧ q < p) body s) :
    Marks (fun q => off ≤ q ∧ q < p + 1) body s :=
  h.mono fun _ hq => ⟨hq.1, Nat.lt_succ_of_lt hq.2⟩

theorem Marks.acts_read {off p body : ℕ} {s : HttpclientParser}
    (h : Marks (fun q => off ≤ q ∧ q < p) body s) (hp : off ≤ p) (as : List ClientAction) :
    Marks (fun q => off ≤ q ∧ q < p + 1) body (s.acts mem p as).1 :=
  h.read.acts ⟨hp, Nat.lt_succ_self p⟩ (fun _ hq => Nat.le_of_lt_succ hq.2) as

theorem clientExec_stops
    (next : ℕ → UInt8 → Option (ℕ × List ClientAction)) (mem rest : List UInt8)
    (p cs : ℕ) (s : HttpclientParser) :
    p ≤ (clientExec next mem rest p cs s).p ∧
      (clientExec next mem rest p cs s).p ≤ p + rest.length := by
  induction rest generalizing p cs s with
  | nil => exact ⟨Nat.le_refl _, Nat.le_refl _⟩
  | cons c rest ih =>
    simp only [clientExec, List.length_cons]
    cases next cs c with
    | none => exact ⟨Nat.le_refl _, Nat.le_add_right _ _⟩
    | some j =>
      obtain ⟨t, acts⟩ := j
      dsimp only
      split
      · exact ⟨Nat.le_succ p, by dsimp only; omega⟩
      · obtain ⟨hle, hend⟩ := ih (p + 1) t (s.acts mem p acts).1
        exact ⟨by dsimp only; omega, by dsimp only; omega⟩

/-- A run that has marked only positions from `off` on, before `p`, goes on so. -/
theorem clientExec_marks {off p body : ℕ} (hp : off ≤ p)
    (rest : List UInt8) (cs : ℕ) {s : HttpclientParser}
    (h : Marks (fun q => off ≤ q ∧ q < p) body s) :
    Marks (fun q => off ≤ q ∧ q < (clientExec next mem rest p cs s).p) body
      (clientExec next mem rest p cs s).parser := by
  induction rest generalizing p cs s with
  | nil => exact h
  | cons c rest ih =>
    simp only [clientExec]
    cases next cs c with
    | none => exact h
    | some j =>
      obtain ⟨t, acts⟩ := j
      dsimp only
      split
      · exact h.acts_read hp acts
      · exact ih (by omega) t (h.acts_read hp acts)

/-- The machine of a table. -/
def tableMachine (next : ℕ → UInt8 → Option (ℕ × List ClientAction)) : ClientMachine where
  run s mem len off := clientExec next mem ((mem.take len).drop off) off s.cs s
  stops := by
    intro s mem len off hoff hlen
    obtain ⟨hle, hend⟩ := clientExec_stops next mem ((mem.take len).drop off) off s.cs s
    rw [List.length_drop, List.length_take] at hend
    exact ⟨hle, by omega⟩
  marks := by
    intro s mem len off hoff hlen
    have hstart : Marks (fun q => off ≤ q ∧ q < off) s.bodyStart s.enter :=
      ⟨rfl, Or.inl rfl, Or.inl rfl, Or.inl rfl, Or.inl rfl⟩
    refine (clientExec_marks (Nat.le_refl off) _ _ hstart).mono ?_
    intro q hq
    have hend := (clientExec_stops next mem ((mem.take len).drop off) off s.enter.cs s.enter).2
    rw [List.length_drop, List.length_take] at hend
    exact ⟨hq.1, Nat.le_of_lt hq.2, by omega⟩

end Table

section Consumption

variable {M : ClientMachine} {h : HttpResponseParser} {mem : List UInt8} {len : ℕ}

/-- The call returns an offset into the buffer and moves what it did not consume to the
front. -/
def InRange (mem : List UInt8) (len : ℕ)
    (result : Except ClientFault (ℕ × HttpResponseParser × List UInt8)) : Prop :=
  ∃ offset h' mem', result = .ok (offset, h', mem') ∧ offset ≤ len ∧
    mem'.take (len - offset) = (mem.take len).drop offset

/-- `body_start` after the machine has run over the buffer. -/
def ClientMachine.bodyStartAfter (M : ClientMachine) (s : HttpclientParser)
    (mem : List UInt8) (len : ℕ) : ℕ :=
  (M.run s.enter mem len 0).parser.bodyStart

theorem Marks.inBuffer {len p body : ℕ} {s : HttpclientParser}
    (hmarks : Marks (Visited 0 len p) body s) (hlen : 0 < len) :
    s.mark < len ∧ s.fieldLen ≤ len ∧ s.fieldStart < len := by
  refine ⟨?_, ?_, ?_⟩
  · cases hmarks.mark with
    | inl hzero => omega
    | inr hvisited => exact hvisited.2.2
  · cases hmarks.fieldLen with
    | inl hzero => omega
    | inr hdist =>
      obtain ⟨start, q, _, hq, _, heq⟩ := hdist
      have hlt := hq.2.2
      omega
  · cases hmarks.fieldStart with
    | inl hzero => omega
    | inr hvisited => exact hvisited.2.2

/-- How a call of the parser ends: the checks fail on the empty buffer only. -/
theorem leave_after (s : HttpclientParser) (hmem : len ≤ mem.length) (hlen : len < 2 ^ 31) :
    (HttpclientParser.after (M.run s.enter mem len 0) 0).leave
        (M.run s.enter mem len 0).p len =
      if ¬ M.bodyStartAfter s mem len ≤ len then
        .error (.assertion "body starts after buffer end")
      else
        .ok (if len = 0 then -1 else ((M.run s.enter mem len 0).p : ℤ)) := by
  have hmarks := M.marks s mem len 0 (Nat.zero_le _) hmem
  have hstop := (M.stops s.enter mem len 0 (Nat.zero_le _) hmem).2
  have hnread : (HttpclientParser.after (M.run s.enter mem len 0) 0).nread =
      (M.run s.enter mem len 0).p := by
    rw [HttpclientParser.after, hmarks.nread, Nat.zero_add, Nat.sub_zero]
  rw [HttpclientParser.leave, if_neg (not_not.mpr hstop), hnread, if_neg (not_not.mpr hstop)]
  refine if_congr Iff.rfl rfl ?_
  by_cases hzero : len = 0
  · subst hzero
    rw [if_pos rfl, if_pos]
    exact Nat.not_lt_zero _
  · obtain ⟨hmark, hfieldLen, hfieldStart⟩ :
        (HttpclientParser.after (M.run s.enter mem len 0) 0).mark < len ∧
          (HttpclientParser.after (M.run s.enter mem len 0) 0).fieldLen ≤ len ∧
          (HttpclientParser.after (M.run s.enter mem len 0) 0).fieldStart < len :=
      hmarks.inBuffer (Nat.pos_of_ne_zero hzero)
    rw [if_neg (not_not.mpr hmark), if_neg (not_not.mpr hfieldLen),
      if_neg (not_not.mpr hfieldStart), if_neg hzero, toInt32_of_lt (by omega)]

theorem httpclientParserExecute_of_buffer
    (s : HttpclientParser) (hnul : mem[len]? = some 0) (hlen : len < 2 ^ 31) :
    httpclientParserExecute M s mem len 0 =
      if ¬ M.bodyStartAfter s mem len ≤ len then
        .error (.assertion "body starts after buffer end")
      else
        .ok (if len = 0 then -1 else ((M.run s.enter mem len 0).p : ℤ),
          HttpclientParser.after (M.run s.enter mem len 0) 0,
          (M.run s.enter mem len 0).reports) := by
  have hmem : len < mem.length := (List.getElem?_eq_some_iff.mp hnul).1
  have hdistance : (len : ℤ) - (0 : ℕ) = toInt32 len - toInt32 0 := by
    rw [toInt32_of_lt hlen, toInt32_of_lt (by decide)]
  rw [httpclientParserExecute, if_neg (not_not.mpr (Nat.zero_le _)), hnul]
  dsimp only
  rw [if_neg (not_not.mpr rfl), if_neg (not_not.mpr hdistance), leave_after s hmem.le hlen]
  split_ifs <;> rfl

/-- Any buffer but the one that the parser demands ends the program. -/
theorem buffer_of_httpclientParserExecute_ok
    {s : HttpclientParser} {result : ℤ × HttpclientParser × List ClientReport}
    (hok : httpclientParserExecute M s mem len 0 = .ok result) :
    mem[len]? = some 0 ∧ len < 2 ^ 31 := by
  rw [httpclientParserExecute, if_neg (not_not.mpr (Nat.zero_le _))] at hok
  cases hmem : mem[len]? with
  | none =>
    rw [hmem] at hok
    cases hok
  | some c =>
    rw [hmem] at hok
    dsimp only at hok
    split_ifs at hok with hc hdistance
    refine ⟨congrArg some (not_not.mp hc), ?_⟩
    have hzero : toInt32 0 = 0 := toInt32_of_lt (by decide)
    rw [← toInt32_eq_self_iff]
    omega

theorem toSize_natCast {n : ℕ} (hn : n < 2 ^ 64) : toSize n = n := by
  rw [toSize]
  omega

theorem execute_of_ok
    {chunck : Bool} {ret : ℤ} {s : HttpclientParser} {reports : List ClientReport}
    (hok : httpclientParserExecute M (h.begin chunck) mem len 0 = .ok (ret, s, reports)) :
    h.execute M mem len chunck =
      match memmove mem (toSize ret) (sizeSub len (toSize ret)) with
      | none => .error .outOfBounds
      | some mem' =>
        .ok (toSize ret, reports.foldl (onResponse mem) { h with parser := s }, mem') := by
  rw [HttpResponseParser.execute, hok]

theorem buffer_of_inRange {chunck : Bool}
    (hrange : InRange mem len (h.execute M mem len chunck)) :
    mem[len]? = some 0 ∧ len < 2 ^ 31 ∧ M.bodyStartAfter (h.begin chunck) mem len ≤ len := by
  obtain ⟨offset, h', mem', hok, -⟩ := hrange
  cases hexec : httpclientParserExecute M (h.begin chunck) mem len 0 with
  | error e =>
    rw [HttpResponseParser.execute, hexec] at hok
    cases hok
  | ok result =>
    obtain ⟨hnul, hlen⟩ := buffer_of_httpclientParserExecute_ok hexec
    refine ⟨hnul, hlen, ?_⟩
    by_contra hbody
    rw [httpclientParserExecute_of_buffer _ hnul hlen, if_pos hbody] at hexec
    cases hexec

/-- On the empty buffer `-1` becomes the largest size there is. -/
theorem not_inRange_of_empty (chunck : Bool) : ¬ InRange mem 0 (h.execute M mem 0 chunck) := by
  intro hrange
  obtain ⟨hnul, hlen, hbody⟩ := buffer_of_inRange hrange
  have hexec := httpclientParserExecute_of_buffer (M := M) (h.begin chunck) hnul hlen
  rw [if_neg (not_not.mpr hbody), if_pos rfl] at hexec
  obtain ⟨offset, h', mem', hok, hle, -⟩ := hrange
  rw [execute_of_ok hexec] at hok
  have hoffset : offset = toSize (-1) := by
    split at hok
    · cases hok
    · injection hok with hpair
      exact (congrArg Prod.fst hpair).symm
  rw [hoffset] at hle
  exact absurd hle (by decide)

theorem pos_of_inRange {chunck : Bool} (hrange : InRange mem len (h.execute M mem len chunck)) :
    0 < len := by
  apply Nat.pos_of_ne_zero
  rintro rfl
  exact not_inRange_of_empty chunck hrange

/-- With a byte to read, the parser has consumed up to where the machine stopped. -/
theorem inRange_of_buffer {chunck : Bool}
    (hpos : 0 < len) (hnul : mem[len]? = some 0) (hlen : len < 2 ^ 31)
    (hbody : M.bodyStartAfter (h.begin chunck) mem len ≤ len) :
    InRange mem len (h.execute M mem len chunck) := by
  have hmem : len < mem.length := (List.getElem?_eq_some_iff.mp hnul).1
  have hstop := (M.stops (h.begin chunck).enter mem len 0 (Nat.zero_le _) hmem.le).2
  have hexec := httpclientParserExecute_of_buffer (M := M) (h.begin chunck) hnul hlen
  rw [if_neg (not_not.mpr hbody), if_neg (Nat.ne_of_gt hpos)] at hexec
  rw [execute_of_ok hexec, toSize_natCast (by omega), sizeSub_of_le hstop, memmove,
    if_pos (by omega)]
  refine ⟨_, _, _, rfl, hstop, ?_⟩
  rw [List.take_left' (by rw [List.length_take, List.length_drop]; omega), List.drop_take]

/-- A body that had not started beyond the buffer before the call starts in the buffer. -/
theorem bodyStartAfter_le {chunck : Bool}
    (hbody : (h.begin chunck).bodyStart ≤ len) (hmem : len ≤ mem.length) :
    M.bodyStartAfter (h.begin chunck) mem len ≤ len := by
  have hmarks := M.marks (h.begin chunck) mem len 0 (Nat.zero_le _) hmem
  rw [ClientMachine.bodyStartAfter]
  cases hmarks.bodyStart with
  | inl hsame => omega
  | inr hdone =>
    obtain ⟨q, hq, heq⟩ := hdone
    have hlt := hq.2.2
    omega

/-- `HttpResponseParser::execute` consumes in range exactly on a buffer with a byte in it,
closed by a zero, short enough for an `int`, in which the body starts.  The last is so if
the body had not started beyond the buffer before the call, as with `chunck`. -/
theorem execute_inRange_iff (M : ClientMachine) (h : HttpResponseParser)
    (mem : List UInt8) (len : ℕ) (chunck : Bool) :
    (InRange mem len (h.execute M mem len chunck) ↔
      0 < len ∧ mem[len]? = some 0 ∧ len < 2 ^ 31 ∧
        M.bodyStartAfter (h.begin chunck) mem len ≤ len) ∧
      ((h.begin chunck).bodyStart ≤ len →
        (InRange mem len (h.execute M mem len chunck) ↔
          0 < len ∧ mem[len]? = some 0 ∧ len < 2 ^ 31)) := by
  constructor
  · constructor
    · intro hrange
      exact ⟨pos_of_inRange hrange, buffer_of_inRange hrange⟩
    · rintro ⟨hpos, hnul, hlen, hbody⟩
      exact inRange_of_buffer hpos hnul hlen hbody
  · intro hbody
    constructor
    · intro hrange
      have hbuffer := buffer_of_inRange hrange
      exact ⟨pos_of_inRange hrange, hbuffer.1, hbuffer.2.1⟩
    · rintro ⟨hpos, hnul, hlen⟩
      have hmem : len < mem.length := (List.getElem?_eq_some_iff.mp hnul).1
      exact inRange_of_buffer hpos hnul hlen (bodyStartAfter_le hbody hmem.le)

/-- A parser just constructed, on memory that was zero. -/
def newParser : HttpResponseParser :=
  .new ⟨0, 0, 0, 0, false, false, false, 0, 0, 0, 0⟩

/-- An empty read: the parser fails its check on `mark`, and the wrapper moves the byte in
front of the buffer. -/
theorem execute_empty_out_of_range :
    httpclientParserExecute (tableMachine fun _ _ => none) newParser.parser [0] 0 0 =
        .ok (-1, newParser.parser, []) ∧
      toSize (-1) = 2 ^ 64 - 1 ∧ sizeSub 0 (toSize (-1)) = 1 ∧
      newParser.execute (tableMachine fun _ _ => none) [0] 0 false = .error .outOfBounds ∧
      ¬ InRange [0] 0 (newParser.execute (tableMachine fun _ _ => none) [0] 0 false) :=
  ⟨by decide, by decide, by decide, by decide, not_inRange_of_empty false⟩

end Consumption

end Http
end Civan
