import Civan.Lib.MachineInt
import Mathlib.Tactic

/-!
# The request-head parser generated from `http11_parser.rl`

The grammar compiles to a table-driven machine.  The table itself is the
parameter `Machine.next`; what the grammar says about the order of its actions
is carried by the other fields of `Machine`.  The embedded actions, the registers
they use and `http_parser_execute` around them are as in the source.

A register holds an offset into the buffer of the current call.  A token is
reported as a pair of such offsets, and `http_parser_execute` sets `mark`,
`field_start` and `field_len` to zero on entry, but not `query_start`.
-/

namespace Civan
namespace Http

open MachineInt

/-- The actions embedded in the grammar. -/
inductive Action where
  | mark
  | startField
  | writeField
  | startValue
  | writeValue
  | requestMethod
  | requestUri
  | fragment
  | startQuery
  | queryString
  | httpVersion
  | requestPath
  | done
  | xml
  | json
deriving DecidableEq, Repr

/-- `http_parser_start`. -/
def httpParserStart : ℕ := 1

/-- `http_parser_first_final`. -/
def httpParserFirstFinal : ℕ := 348

/-- `http_parser_error`. -/
def httpParserError : ℕ := 0

/-- How far the name of a header field has been read. -/
inductive NamePhase where
  | idle
  | opening
  | inside
  | ended
deriving DecidableEq, Repr

/-- How far a query string has been read. -/
inductive QueryPhase where
  | closed
  | opening
  | inside
deriving DecidableEq, Repr

/-- What the grammar knows about the tokens in progress at a state. -/
structure Phase where
  name : NamePhase
  query : QueryPhase
deriving DecidableEq, Repr

/-- The order in which the grammar embeds the actions: a name ends after the byte
it starts at and before its value is written, a query is written once begun. -/
def Phase.act (φ : Phase) : Action → Option Phase
  | .startField => some { φ with name := .opening }
  | .writeField => if φ.name = .inside then some { φ with name := .ended } else none
  | .writeValue => if φ.name = .ended then some { φ with name := .idle } else none
  | .startQuery => some { φ with query := .opening }
  | .queryString => if φ.query = .closed then none else some { φ with query := .closed }
  | _ => some φ

/-- Moving to the next byte: what was just opened is now in progress. -/
def Phase.settle (φ : Phase) : Phase where
  name := if φ.name = .opening then .inside else φ.name
  query := if φ.query = .opening then .inside else φ.query

/-- The phases through a list of actions. -/
def Phase.acts : Phase → List Action → Option Phase
  | φ, [] => some φ
  | φ, a :: as =>
    match φ.act a with
    | none => none
    | some φ' => φ'.acts as

/--
The generated machine.  `next cs c` is the jump taken in state `cs` on byte `c`:
the state it leads to and the actions on the way, or `none` for `goto st0`.
-/
structure Machine where
  next : ℕ → UInt8 → Option (ℕ × List Action)
  phase : ℕ → Phase
  phase_start : phase httpParserStart = ⟨.idle, .closed⟩
  phase_next :
    ∀ cs c t acts, next cs c = some (t, acts) →
      ∃ φ, (phase cs).acts acts = some φ ∧ φ.settle = phase t
  next_ne_error : ∀ cs c t acts, next cs c = some (t, acts) → t ≠ httpParserError
  done_iff_final :
    ∀ cs c t acts, next cs c = some (t, acts) → (Action.done ∈ acts ↔ httpParserFirstFinal ≤ t)
  method_space : ∀ cs c t acts, next cs c = some (t, acts) → Action.requestMethod ∈ acts → c = 32

/-- `http_parser`, without the callbacks. -/
structure HttpParser where
  cs : ℕ
  bodyStart : ℕ
  nread : ℕ
  mark : ℕ
  fieldStart : ℕ
  fieldLen : ℕ
  queryStart : ℕ
  xmlSent : Bool
  jsonSent : Bool
deriving DecidableEq, Repr

/-- The elements reported through an `element_cb`. -/
inductive Element where
  | requestMethod
  | requestUri
  | fragment
  | requestPath
  | queryString
  | httpVersion
deriving DecidableEq, Repr

/-- A callback invocation, by the offsets its pointers are made of.  `element`
passes `PTR_TO(start)` and `LEN(start, fpc)`. -/
inductive Report where
  | field (fieldStart fieldLen mark fpc : ℕ)
  | element (kind : Element) (start fpc : ℕ)
  | headerDone (fpc : ℕ)
deriving DecidableEq, Repr

/-- `http_parser_init`.  `query_start` keeps what the memory held. -/
def httpParserInit (queryStart : ℕ) : HttpParser where
  cs := httpParserStart
  bodyStart := 0
  nread := 0
  mark := 0
  fieldStart := 0
  fieldLen := 0
  queryStart := queryStart
  xmlSent := false
  jsonSent := false

/-- One action at offset `fpc`: its effect on the registers, and the callback it
invokes, if any. -/
def HttpParser.act (s : HttpParser) (fpc : ℕ) : Action → HttpParser × List Report
  | .mark => ({ s with mark := fpc }, [])
  | .startField => ({ s with fieldStart := fpc }, [])
  | .writeField => ({ s with fieldLen := sizeSub fpc s.fieldStart }, [])
  | .startValue => ({ s with mark := fpc }, [])
  | .writeValue => (s, [.field s.fieldStart s.fieldLen s.mark fpc])
  | .requestMethod => (s, [.element .requestMethod s.mark fpc])
  | .requestUri => (s, [.element .requestUri s.mark fpc])
  | .fragment => (s, [.element .fragment s.mark fpc])
  | .startQuery => ({ s with queryStart := fpc }, [])
  | .queryString => (s, [.element .queryString s.queryStart fpc])
  | .httpVersion => (s, [.element .httpVersion s.mark fpc])
  | .requestPath => (s, [.element .requestPath s.mark fpc])
  | .done =>
    if s.xmlSent || s.jsonSent then
      ({ s with bodyStart := s.mark }, [])
    else
      ({ s with bodyStart := fpc + 1 }, [.headerDone fpc])
  | .xml => ({ s with xmlSent := true }, [])
  | .json => ({ s with jsonSent := true }, [])

/-- The actions of one jump, in order. -/
def HttpParser.acts : HttpParser → ℕ → List Action → HttpParser × List Report
  | s, _, [] => (s, [])
  | s, fpc, a :: as =>
    let (s₁, rs₁) := s.act fpc a
    let (s₂, rs₂) := s₁.acts fpc as
    (s₂, rs₁ ++ rs₂)

/-- Where the machine stops: offset, state, registers and the callbacks so far. -/
structure Exec where
  p : ℕ
  cs : ℕ
  parser : HttpParser
  reports : List Report
deriving DecidableEq, Repr

/-- `write exec`: run over the bytes from offset `p` on.  `done` breaks out past
its byte; an impossible byte stops in the error state without consuming it. -/
def exec (M : Machine) : List UInt8 → ℕ → ℕ → HttpParser → Exec
  | [], p, cs, s => ⟨p, cs, s, []⟩
  | c :: rest, p, cs, s =>
    match M.next cs c with
    | none => ⟨p, httpParserError, s, []⟩
    | some (t, acts) =>
      let (s', rs) := s.acts p acts
      if Action.done ∈ acts then
        ⟨p + 1, t, s', rs⟩
      else
        let r := exec M rest (p + 1) t s'
        { r with reports := rs ++ r.reports }

/-- Ways in which a call does not return. -/
inductive Abort where
  | assertion (text : String)
  | lengthError
deriving DecidableEq, Repr

/-- The first of the closing assertions that fails, if any. -/
def HttpParser.failedAssert (s : HttpParser) (len : ℕ) : Option String :=
  if ¬ s.nread ≤ len then some "nread longer than length"
  else if ¬ s.bodyStart ≤ len then some "body starts after buffer end"
  else if ¬ s.mark < len then some "mark is after buffer end"
  else if ¬ s.fieldLen ≤ len then some "field has length longer than whole buffer"
  else if ¬ s.fieldStart < len then some "field starts after buffer end"
  else none

def httpParserHasError (s : HttpParser) : Bool :=
  s.cs == httpParserError

def httpParserIsFinished (s : HttpParser) : Bool :=
  httpParserFirstFinal ≤ s.cs

def httpParserFinish (s : HttpParser) : ℤ :=
  if httpParserHasError s then -1
  else if httpParserIsFinished s then 1
  else 0

/-- The registers on entry to the machine. -/
def HttpParser.enter (s : HttpParser) : HttpParser :=
  { s with nread := 0, mark := 0, fieldLen := 0, fieldStart := 0 }

/-- The registers after the machine stopped at `r`, started at offset `off`. -/
def HttpParser.leave (r : Exec) (off : ℕ) : HttpParser :=
  { r.parser with
    cs := if httpParserHasError r.parser then r.parser.cs else r.cs
    nread := r.parser.nread + (r.p - off) }

section Execute

variable {δ : Type}

/-- `http_parser_execute`.  The callbacks act on `data` only, so they are applied
to the reports of the machine in order. -/
def httpParserExecute (M : Machine) (callback : List UInt8 → δ → Report → Except Abort δ)
    (s : HttpParser) (data : δ) (buffer : List UInt8) (off : ℕ) :
    Except Abort (ℕ × HttpParser × δ) :=
  let len := buffer.length
  if len = 0 then
    .ok (0, s, data)
  else if ¬ off ≤ len then
    .error (.assertion "offset past end of buffer")
  else if (len : ℤ) - off ≠ toInt32 len - toInt32 off then
    .error (.assertion "pointers aren't same distance")
  else
    let r := exec M (buffer.drop off) off s.cs s.enter
    match r.reports.foldlM (callback buffer) data with
    | .error e => .error e
    | .ok data' =>
      let s' := HttpParser.leave r off
      match s'.failedAssert len with
      | some text => .error (.assertion text)
      | none => .ok (s'.nread, s', data')

end Execute

/-- States in which the machine neither failed nor finished. -/
def Running (cs : ℕ) : Prop :=
  cs ≠ httpParserError ∧ cs < httpParserFirstFinal

instance (cs : ℕ) : Decidable (Running cs) :=
  inferInstanceAs (Decidable (_ ∧ _))

section Runs

variable {M : Machine}

theorem acts_cs (s : HttpParser) (p : ℕ) (as : List Action) : (s.acts p as).1.cs = s.cs := by
  induction as generalizing s with
  | nil => rfl
  | cons a as ih =>
    have ha : (s.act p a).1.cs = s.cs := by
      cases a <;> simp only [HttpParser.act]
      split <;> rfl
    exact (ih _).trans ha

theorem acts_nread (s : HttpParser) (p : ℕ) (as : List Action) :
    (s.acts p as).1.nread = s.nread := by
  induction as generalizing s with
  | nil => rfl
  | cons a as ih =>
    have ha : (s.act p a).1.nread = s.nread := by
      cases a <;> simp only [HttpParser.act]
      split <;> rfl
    exact (ih _).trans ha

theorem acts_bodyStart (s : HttpParser) (p : ℕ) {as : List Action} (hdone : Action.done ∉ as) :
    (s.acts p as).1.bodyStart = s.bodyStart := by
  induction as generalizing s with
  | nil => rfl
  | cons a as ih =>
    have hne : Action.done ≠ a := fun h => hdone (h ▸ List.mem_cons_self)
    have has : Action.done ∉ as := fun h => hdone (List.mem_cons_of_mem a h)
    have ha : (s.act p a).1.bodyStart = s.bodyStart := by
      cases a <;> first | rfl | exact absurd rfl hne
    exact (ih _ has).trans ha

theorem Machine.running_next (M : Machine) {cs t : ℕ} {c : UInt8} {acts : List Action}
    (hnext : M.next cs c = some (t, acts)) (hdone : Action.done ∉ acts) :
    Running t := by
  refine ⟨M.next_ne_error _ _ _ _ hnext, ?_⟩
  rw [M.done_iff_final _ _ _ _ hnext] at hdone
  exact Nat.lt_of_not_le hdone

theorem Machine.not_running_next (M : Machine) {cs t : ℕ} {c : UInt8} {acts : List Action}
    (hnext : M.next cs c = some (t, acts)) (hdone : Action.done ∈ acts) :
    ¬ Running t := by
  rw [M.done_iff_final _ _ _ _ hnext] at hdone
  exact fun hrun => absurd hrun.2 (Nat.not_lt.mpr hdone)

theorem exec_none {c : UInt8} {cs : ℕ} (hnext : M.next cs c = none)
    (rest : List UInt8) (p : ℕ) (s : HttpParser) :
    exec M (c :: rest) p cs s = ⟨p, httpParserError, s, []⟩ := by
  rw [exec, hnext]

theorem exec_done {c : UInt8} {cs t : ℕ} {acts : List Action}
    (hnext : M.next cs c = some (t, acts)) (hdone : Action.done ∈ acts)
    (rest : List UInt8) (p : ℕ) (s : HttpParser) :
    exec M (c :: rest) p cs s = ⟨p + 1, t, (s.acts p acts).1, (s.acts p acts).2⟩ := by
  rw [exec, hnext]
  dsimp only
  rw [if_pos hdone]

theorem exec_step {c : UInt8} {cs t : ℕ} {acts : List Action}
    (hnext : M.next cs c = some (t, acts)) (hdone : Action.done ∉ acts)
    (rest : List UInt8) (p : ℕ) (s : HttpParser) :
    exec M (c :: rest) p cs s =
      { exec M rest (p + 1) t (s.acts p acts).1 with
        reports := (s.acts p acts).2 ++ (exec M rest (p + 1) t (s.acts p acts).1).reports } := by
  rw [exec, hnext]
  dsimp only
  rw [if_neg hdone]

/-- The entry state and the byte count are not touched by the machine. -/
theorem exec_cs_nread (rest : List UInt8) (p cs : ℕ) (s : HttpParser) :
    (exec M rest p cs s).parser.cs = s.cs ∧ (exec M rest p cs s).parser.nread = s.nread := by
  induction rest generalizing p cs s with
  | nil => exact ⟨rfl, rfl⟩
  | cons c rest ih =>
    cases hnext : M.next cs c with
    | none =>
      rw [exec_none hnext]
      exact ⟨rfl, rfl⟩
    | some j =>
      obtain ⟨t, acts⟩ := j
      have hcs := acts_cs s p acts
      have hnread := acts_nread s p acts
      by_cases hdone : Action.done ∈ acts
      · rw [exec_done hnext hdone]
        exact ⟨hcs, hnread⟩
      · rw [exec_step hnext hdone]
        obtain ⟨ih₁, ih₂⟩ := ih (p + 1) t (s.acts p acts).1
        exact ⟨ih₁.trans hcs, ih₂.trans hnread⟩

theorem exec_p (rest : List UInt8) (p cs : ℕ) (s : HttpParser) :
    p ≤ (exec M rest p cs s).p ∧
      (exec M rest p cs s).p ≤ p + rest.length ∧
      (Running (exec M rest p cs s).cs →
        (exec M rest p cs s).p = p + rest.length ∧
        (exec M rest p cs s).parser.bodyStart = s.bodyStart) := by
  induction rest generalizing p cs s with
  | nil => exact ⟨Nat.le_refl _, Nat.le_refl _, fun _ => ⟨rfl, rfl⟩⟩
  | cons c rest ih =>
    cases hnext : M.next cs c with
    | none =>
      rw [exec_none hnext]
      exact ⟨Nat.le_refl _, Nat.le_add_right _ _, fun hrun => absurd rfl hrun.1⟩
    | some j =>
      obtain ⟨t, acts⟩ := j
      rw [List.length_cons]
      by_cases hdone : Action.done ∈ acts
      · rw [exec_done hnext hdone]
        dsimp only
        exact ⟨by omega, by omega, fun hrun => absurd hrun (M.not_running_next hnext hdone)⟩
      · rw [exec_step hnext hdone]
        obtain ⟨ih₁, ih₂, ih₃⟩ := ih (p + 1) t (s.acts p acts).1
        dsimp only
        refine ⟨by omega, by omega, ?_⟩
        intro hrun
        obtain ⟨hp, hbody⟩ := ih₃ hrun
        exact ⟨by omega, hbody.trans (acts_bodyStart s p hdone)⟩

/-- A machine still running has made a jump that is not the last. -/
theorem exists_next_of_running {c : UInt8} {rest : List UInt8} {p cs : ℕ} {s : HttpParser}
    (hrun : Running (exec M (c :: rest) p cs s).cs) :
    ∃ t acts, M.next cs c = some (t, acts) ∧ Action.done ∉ acts := by
  cases hnext : M.next cs c with
  | none =>
    rw [exec_none hnext] at hrun
    exact absurd rfl hrun.1
  | some j =>
    obtain ⟨t, acts⟩ := j
    refine ⟨t, acts, rfl, ?_⟩
    intro hdone
    rw [exec_done hnext hdone] at hrun
    exact M.not_running_next hnext hdone hrun

theorem exec_append_running {a : List UInt8} (b : List UInt8) {p cs : ℕ} {s : HttpParser}
    (hrun : Running (exec M a p cs s).cs) :
    exec M (a ++ b) p cs s =
      { exec M b (p + a.length) (exec M a p cs s).cs (exec M a p cs s).parser with
        reports := (exec M a p cs s).reports ++
          (exec M b (p + a.length) (exec M a p cs s).cs (exec M a p cs s).parser).reports } := by
  induction a generalizing p cs s with
  | nil => simp [exec]
  | cons c rest ih =>
    obtain ⟨t, acts, hnext, hdone⟩ := exists_next_of_running hrun
    have hlen : p + (c :: rest).length = p + 1 + rest.length := by
      rw [List.length_cons]
      omega
    rw [exec_step hnext hdone] at hrun
    rw [List.cons_append, exec_step hnext hdone, exec_step hnext hdone, ih hrun, hlen]
    simp only [List.append_assoc]

end Runs

section Assertions

variable {M : Machine}

/-- The registers point into a buffer of `n` bytes read up to `p`. -/
structure InBuffer (n p : ℕ) (s : HttpParser) : Prop where
  mark_le : s.mark ≤ p
  mark_lt : s.mark < n
  fieldStart_le : s.fieldStart ≤ p
  fieldStart_lt : s.fieldStart < n
  fieldLen_le : s.fieldLen ≤ n
  bodyStart_le : s.bodyStart ≤ n

theorem InBuffer.act {n p : ℕ} {s : HttpParser} (h : InBuffer n p s) (hp : p < n) (a : Action) :
    InBuffer n p (s.act p a).1 := by
  obtain ⟨h₁, h₂, h₃, h₄, h₅, h₆⟩ := h
  cases a with
  | writeField =>
    have hsub := sizeSub_of_le h₃
    refine ⟨h₁, h₂, h₃, h₄, ?_, h₆⟩
    dsimp only [HttpParser.act]
    omega
  | done =>
    simp only [HttpParser.act]
    split
    · exact ⟨h₁, h₂, h₃, h₄, h₅, Nat.le_of_lt h₂⟩
    · exact ⟨h₁, h₂, h₃, h₄, h₅, hp⟩
  | mark => exact ⟨Nat.le_refl _, hp, h₃, h₄, h₅, h₆⟩
  | startValue => exact ⟨Nat.le_refl _, hp, h₃, h₄, h₅, h₆⟩
  | startField => exact ⟨h₁, h₂, Nat.le_refl _, hp, h₅, h₆⟩
  | writeValue => exact ⟨h₁, h₂, h₃, h₄, h₅, h₆⟩
  | requestMethod => exact ⟨h₁, h₂, h₃, h₄, h₅, h₆⟩
  | requestUri => exact ⟨h₁, h₂, h₃, h₄, h₅, h₆⟩
  | fragment => exact ⟨h₁, h₂, h₃, h₄, h₅, h₆⟩
  | startQuery => exact ⟨h₁, h₂, h₃, h₄, h₅, h₆⟩
  | queryString => exact ⟨h₁, h₂, h₃, h₄, h₅, h₆⟩
  | httpVersion => exact ⟨h₁, h₂, h₃, h₄, h₅, h₆⟩
  | requestPath => exact ⟨h₁, h₂, h₃, h₄, h₅, h₆⟩
  | xml => exact ⟨h₁, h₂, h₃, h₄, h₅, h₆⟩
  | json => exact ⟨h₁, h₂, h₃, h₄, h₅, h₆⟩

theorem InBuffer.acts {n p : ℕ} {s : HttpParser}
    (h : InBuffer n p s) (hp : p < n) (as : List Action) :
    InBuffer n p (s.acts p as).1 := by
  induction as generalizing s with
  | nil => exact h
  | cons a as ih => exact ih (h.act hp a)

theorem InBuffer.mono {n p q : ℕ} {s : HttpParser} (h : InBuffer n p s) (hpq : p ≤ q) :
    InBuffer n q s :=
  ⟨Nat.le_trans h.mark_le hpq, h.mark_lt, Nat.le_trans h.fieldStart_le hpq,
    h.fieldStart_lt, h.fieldLen_le, h.bodyStart_le⟩

theorem InBuffer.exec {n p cs : ℕ} {s : HttpParser} {rest : List UInt8}
    (h : InBuffer n p s) (hrest : p + rest.length ≤ n) :
    InBuffer n (exec M rest p cs s).p (exec M rest p cs s).parser := by
  induction rest generalizing p cs s with
  | nil => exact h
  | cons c rest ih =>
    rw [List.length_cons] at hrest
    cases hnext : M.next cs c with
    | none =>
      rw [exec_none hnext]
      exact h
    | some j =>
      obtain ⟨t, acts⟩ := j
      have hacts := (h.acts (by omega) acts).mono (Nat.le_succ p)
      by_cases hdone : Action.done ∈ acts
      · rw [exec_done hnext hdone]
        exact hacts
      · rw [exec_step hnext hdone]
        exact ih hacts (by omega)

theorem InBuffer.failedAssert {n p : ℕ} {s : HttpParser}
    (h : InBuffer n p s) (hnread : s.nread ≤ n) :
    s.failedAssert n = none := by
  simp [HttpParser.failedAssert, hnread, h.bodyStart_le, h.mark_lt, h.fieldLen_le,
    h.fieldStart_lt]

/-- A call on a non-empty buffer below 2 GiB never fails an assertion: it runs the
machine and the callbacks, and returns how far the machine came. -/
theorem httpParserExecute_eq {δ : Type} (callback : List UInt8 → δ → Report → Except Abort δ)
    {s : HttpParser} (data : δ) {buffer : List UInt8} (hne : buffer ≠ [])
    (hlen : buffer.length < 2 ^ 31) (hbody : s.bodyStart ≤ buffer.length) :
    httpParserExecute M callback s data buffer 0 =
      match (exec M buffer 0 s.cs s.enter).reports.foldlM (callback buffer) data with
      | .error e => .error e
      | .ok data' =>
        .ok ((exec M buffer 0 s.cs s.enter).p,
          HttpParser.leave (exec M buffer 0 s.cs s.enter) 0, data') := by
  have hpos : 0 < buffer.length := List.length_pos_iff.mpr hne
  have hin : InBuffer buffer.length 0 s.enter :=
    ⟨Nat.le_refl _, hpos, Nat.le_refl _, hpos, Nat.zero_le _, hbody⟩
  have hexec : InBuffer buffer.length _ (exec M buffer 0 s.cs s.enter).parser :=
    hin.exec (by omega)
  have hnread : (exec M buffer 0 s.cs s.enter).parser.nread = 0 :=
    (exec_cs_nread buffer 0 s.cs s.enter).2
  have hp := (exec_p (M := M) buffer 0 s.cs s.enter).2.1
  have hleave : (HttpParser.leave (exec M buffer 0 s.cs s.enter) 0).nread =
      (exec M buffer 0 s.cs s.enter).p := by
    simp only [HttpParser.leave, hnread]
    omega
  have hin' : InBuffer buffer.length _
      (HttpParser.leave (exec M buffer 0 s.cs s.enter) 0) :=
    ⟨hexec.mark_le, hexec.mark_lt, hexec.fieldStart_le, hexec.fieldStart_lt,
      hexec.fieldLen_le, hexec.bodyStart_le⟩
  have hzero : toInt32 0 = 0 := toInt32_of_lt (by omega)
  rw [httpParserExecute]
  dsimp only
  rw [if_neg (by omega), if_neg (by omega),
    if_neg (by rw [toInt32_of_lt hlen, hzero]; simp), List.drop_zero,
    hin'.failedAssert (by rw [hleave]; omega), hleave]

end Assertions

end Http
end Civan
