import Civan.Http.Session

/-!
# Heads that arrive in pieces

Between two reads the registers of the machine are reset and the consumed bytes
are gone.  This file compares the machine on a whole head with the machine on the
reads the head arrives in.

`Aligned` relates the registers of both: an offset set in the current read is the
same place of the head, and one set before it is lost.  One action, one jump, one
read and the whole sequence of reads keep it, so that the tokens reported agree
exactly when no read boundary falls inside a token.
-/

namespace Civan
namespace Http

open MachineInt

/-- What a callback can see of its token, and the length it is told. -/
inductive Token where
  | field (name : List UInt8) (flen : ℕ) (value : List UInt8) (vlen : ℕ)
  | element (kind : Element) (bytes : List UInt8) (length : ℕ)
  | silent
deriving DecidableEq, Repr

/-- The token of a report; the callbacks for the URI and the end of the head see
nothing. -/
def Report.token (buffer : List UInt8) : Report → Token
  | .field fieldStart fieldLen mark fpc =>
    .field ((buffer.drop fieldStart).take fieldLen) fieldLen
      ((buffer.drop mark).take (sizeSub fpc mark)) (sizeSub fpc mark)
  | .element .requestUri _ _ => .silent
  | .element kind start fpc =>
    .element kind ((buffer.drop start).take (sizeSub fpc start)) (sizeSub fpc start)
  | .headerDone _ => .silent

/-- The token began before offset `b`. -/
def Report.StartsBefore (b : ℕ) : Report → Prop
  | .field fieldStart _ mark _ => fieldStart < b ∨ mark < b
  | .element .requestUri _ _ => False
  | .element _ start _ => start < b
  | .headerDone _ => False

/-- Where the report is made. -/
def Report.fpc : Report → ℕ
  | .field _ _ _ fpc => fpc
  | .element _ _ fpc => fpc
  | .headerDone fpc => fpc

/-- Offset `b` falls inside the token: after its first byte, and not after the
byte that ends it. -/
def Report.CutAt (b : ℕ) (r : Report) : Prop :=
  r.StartsBefore b ∧ b ≤ r.fpc

instance (b : ℕ) (r : Report) : Decidable (r.StartsBefore b) :=
  match r with
  | .field _ _ _ _ => inferInstanceAs (Decidable (_ ∨ _))
  | .element .requestUri _ _ => inferInstanceAs (Decidable False)
  | .element .requestMethod _ _ => inferInstanceAs (Decidable (_ < _))
  | .element .fragment _ _ => inferInstanceAs (Decidable (_ < _))
  | .element .requestPath _ _ => inferInstanceAs (Decidable (_ < _))
  | .element .queryString _ _ => inferInstanceAs (Decidable (_ < _))
  | .element .httpVersion _ _ => inferInstanceAs (Decidable (_ < _))
  | .headerDone _ => inferInstanceAs (Decidable False)

instance (b : ℕ) (r : Report) : Decidable (r.CutAt b) :=
  inferInstanceAs (Decidable (_ ∧ _))

/-- The offsets in the head at which the reads begin. -/
def boundaries : ℕ → List (List UInt8) → List ℕ
  | _, [] => []
  | base, r :: rs => base :: boundaries (base + r.length) rs

/-- The reports of the machine on a whole head. -/
def headReports (M : Machine) (queryStart : ℕ) (head : List UInt8) : List Report :=
  (exec M head 0 httpParserStart (httpParserInit queryStart).enter).reports

/-- The tokens of a whole head. -/
def headTokens (M : Machine) (queryStart : ℕ) (head : List UInt8) : List Token :=
  (headReports M queryStart head).map (Report.token head)

/-- The tokens reported over successive reads. -/
def readTokens (M : Machine) : HttpParser → List (List UInt8) → List Token
  | _, [] => []
  | s, r :: rs =>
    let e := exec M r 0 s.cs s.enter
    e.reports.map (Report.token r) ++
      if Running e.cs then readTokens M (HttpParser.leave e 0) rs else []

/-- No read begins inside a token. -/
def NoTokenCut (M : Machine) (queryStart : ℕ) (reads : List (List UInt8)) : Prop :=
  ∀ r ∈ headReports M queryStart reads.flatten, ∀ b ∈ boundaries 0 reads, ¬ r.CutAt b

/--
Registers `w` of the machine on the whole head, at offset `pos`, and registers
`s` of the machine on the read that began at `base`.
-/
structure Aligned (base pos : ℕ) (φ : Phase) (w s : HttpParser) : Prop where
  base_le : base ≤ pos
  pos_lt : pos < 2 ^ 31
  mark_eq : s.mark = w.mark - base
  mark_le : w.mark ≤ pos
  fieldStart_eq : s.fieldStart = w.fieldStart - base
  fieldStart_le : w.fieldStart ≤ pos
  name_inside : φ.name = .inside → w.fieldStart < pos
  name_ended :
    φ.name = .ended →
      0 < w.fieldLen ∧
      w.fieldStart + w.fieldLen ≤ pos ∧
      (base ≤ w.fieldStart → s.fieldLen = w.fieldLen) ∧
      (w.fieldStart < base → s.fieldLen < w.fieldLen)
  query_open :
    φ.query ≠ .closed →
      w.queryStart ≤ pos ∧
      s.queryStart ≤ w.queryStart ∧
      (base ≤ w.queryStart → s.queryStart = w.queryStart - base)
  query_inside : φ.query = .inside → w.queryStart < pos
  xmlSent_eq : s.xmlSent = w.xmlSent
  jsonSent_eq : s.jsonSent = w.jsonSent

/-- The read holds the bytes of the head from `base` on. -/
def Window (head read : List UInt8) (base : ℕ) : Prop :=
  ∃ after, head.drop base = read ++ after

theorem Window.slice {head read : List UInt8} {base start n : ℕ} (h : Window head read base)
    (hbase : base ≤ start) (hn : start - base + n ≤ read.length) :
    (head.drop start).take n = (read.drop (start - base)).take n := by
  obtain ⟨after, hdrop⟩ := h
  have hstart : head.drop start = (head.drop base).drop (start - base) := by
    rw [List.drop_drop]
    congr 1
    omega
  rw [hstart, hdrop, List.drop_append_of_le_length (by omega),
    List.take_append_of_le_length (by rw [List.length_drop]; omega)]

section OneToken

variable {base pos : ℕ} {head read : List UInt8}

/-- A token from a register that the reset respects is the same in both buffers
exactly when it began in the current read. -/
theorem slice_eq_iff (hwin : Window head read base)
    (hbase : base ≤ pos) (hread : pos - base ≤ read.length) {start : ℕ} (hstart : start ≤ pos) :
    (((head.drop start).take (sizeSub pos start) =
          (read.drop (start - base)).take (sizeSub (pos - base) (start - base))) ∧
        sizeSub pos start = sizeSub (pos - base) (start - base)) ↔
      ¬ start < base := by
  have hwhole : sizeSub pos start = pos - start := sizeSub_of_le hstart
  have hpart : sizeSub (pos - base) (start - base) = pos - base - (start - base) :=
    sizeSub_of_le (by omega)
  rw [hwhole, hpart]
  constructor
  · rintro ⟨_, hlen⟩
    omega
  · intro hge
    have hlen : pos - base - (start - base) = pos - start := by omega
    rw [hlen]
    exact ⟨hwin.slice (by omega) (by omega), rfl⟩

/-- The same for the query, whose register keeps its old offset over a read. -/
theorem query_slice_eq_iff (hwin : Window head read base)
    (hbase : base ≤ pos) (hread : pos - base ≤ read.length) (hpos : pos < 2 ^ 31)
    {start start' : ℕ} (hstart : start ≤ pos) (hle : start' ≤ start)
    (heq : base ≤ start → start' = start - base) :
    (((head.drop start).take (sizeSub pos start) =
          (read.drop start').take (sizeSub (pos - base) start')) ∧
        sizeSub pos start = sizeSub (pos - base) start') ↔
      ¬ start < base := by
  by_cases hlt : start < base
  · have hwhole : sizeSub pos start = pos - start := sizeSub_of_le hstart
    refine iff_of_false ?_ (not_not.mpr hlt)
    rintro ⟨_, hlen⟩
    rw [hwhole] at hlen
    by_cases hin : start' ≤ pos - base
    · rw [sizeSub_of_le hin] at hlen
      omega
    · rw [sizeSub_of_lt (by omega)] at hlen
      omega
  · rw [heq (by omega)]
    exact slice_eq_iff hwin hbase hread hstart

end OneToken

/-- The reports `ws` on the whole head and `ss` on the read that began at `base`
carry the same tokens exactly when no token began before `base`. -/
structure Agree (base : ℕ) (head read : List UInt8) (ws ss : List Report) : Prop where
  length_eq : ws.length = ss.length
  tokens_iff :
    ws.map (Report.token head) = ss.map (Report.token read) ↔ ∀ r ∈ ws, ¬ r.StartsBefore base

section Reports

variable {base : ℕ} {head read : List UInt8}

theorem agree_nil : Agree base head read [] [] :=
  ⟨rfl, by simp⟩

theorem agree_append {ws ws' ss ss' : List Report}
    (h : Agree base head read ws ss) (h' : Agree base head read ws' ss') :
    Agree base head read (ws ++ ws') (ss ++ ss') := by
  refine ⟨by rw [List.length_append, List.length_append, h.length_eq, h'.length_eq], ?_⟩
  rw [List.map_append, List.map_append,
    List.append_eq_append_iff_of_size_eq_left (by simp [h.length_eq]), h.tokens_iff, h'.tokens_iff]
  simp only [List.mem_append]
  constructor
  · rintro ⟨hl, hr⟩ r (hmem | hmem)
    · exact hl r hmem
    · exact hr r hmem
  · intro hall
    exact ⟨fun r hr => hall r (Or.inl hr), fun r hr => hall r (Or.inr hr)⟩

theorem agree_single {w s : Report} (h : w.token head = s.token read ↔ ¬ w.StartsBefore base) :
    Agree base head read [w] [s] := by
  refine ⟨rfl, ?_⟩
  simp [h]

theorem agree_element {kind : Element} (hkind : kind ≠ .requestUri) {start start' fpc fpc' : ℕ}
    (h :
      ((head.drop start).take (sizeSub fpc start) =
            (read.drop start').take (sizeSub fpc' start') ∧
          sizeSub fpc start = sizeSub fpc' start') ↔
        ¬ start < base) :
    Agree base head read [.element kind start fpc] [.element kind start' fpc'] := by
  apply agree_single
  cases kind with
  | requestUri => exact absurd rfl hkind
  | requestMethod => simpa [Report.token, Report.StartsBefore] using h
  | fragment => simpa [Report.token, Report.StartsBefore] using h
  | requestPath => simpa [Report.token, Report.StartsBefore] using h
  | queryString => simpa [Report.token, Report.StartsBefore] using h
  | httpVersion => simpa [Report.token, Report.StartsBefore] using h

end Reports

section Actions

variable {base pos : ℕ} {φ φ' : Phase} {w s : HttpParser} {head read : List UInt8}

theorem Aligned.agree_mark (h : Aligned base pos φ w s)
    (hwin : Window head read base) (hread : pos - base ≤ read.length)
    {kind : Element} (hkind : kind ≠ .requestUri) :
    Agree base head read [.element kind w.mark pos] [.element kind s.mark (pos - base)] := by
  apply agree_element hkind
  rw [h.mark_eq]
  exact slice_eq_iff hwin h.base_le hread h.mark_le

theorem Aligned.agree_field (h : Aligned base pos φ w s)
    (hwin : Window head read base) (hread : pos - base ≤ read.length) (hname : φ.name = .ended) :
    Agree base head read
      [.field w.fieldStart w.fieldLen w.mark pos]
      [.field s.fieldStart s.fieldLen s.mark (pos - base)] := by
  apply agree_single
  have hvalue := slice_eq_iff hwin h.base_le hread h.mark_le
  obtain ⟨hpos, hend, hsame, hless⟩ := h.name_ended hname
  simp only [Report.token, Report.StartsBefore, Token.field.injEq, h.mark_eq,
    h.fieldStart_eq, hvalue, not_or]
  constructor
  · rintro ⟨_, hlen, hmark⟩
    refine ⟨?_, hmark⟩
    intro hlt
    have := hless hlt
    omega
  · rintro ⟨hge, hmark⟩
    have hlen := hsame (by omega)
    rw [hlen]
    exact ⟨hwin.slice (by omega) (by omega), rfl, hmark⟩

theorem Aligned.act (h : Aligned base pos φ w s)
    (hwin : Window head read base) (hread : pos - base ≤ read.length)
    {a : Action} (ha : φ.act a = some φ') :
    Aligned base pos φ' (w.act pos a).1 (s.act (pos - base) a).1 ∧
      Agree base head read (w.act pos a).2 (s.act (pos - base) a).2 := by
  have hbase := h.base_le
  cases a with
  | mark | startValue =>
    obtain rfl := Option.some.inj ha
    exact ⟨{ h with mark_eq := rfl, mark_le := Nat.le_refl _ }, agree_nil⟩
  | startField =>
    obtain rfl := Option.some.inj ha
    exact
      ⟨{ h with
          fieldStart_eq := rfl
          fieldStart_le := Nat.le_refl _
          name_inside := by simp
          name_ended := by simp }, agree_nil⟩
  | writeField =>
    simp only [Phase.act] at ha
    split at ha
    next hname =>
      obtain rfl := Option.some.inj ha
      have hlt := h.name_inside hname
      have hwhole : sizeSub pos w.fieldStart = pos - w.fieldStart :=
        sizeSub_of_le h.fieldStart_le
      have hpart : sizeSub (pos - base) s.fieldStart = pos - base - s.fieldStart := by
        apply sizeSub_of_le
        rw [h.fieldStart_eq]
        omega
      have heq := h.fieldStart_eq
      refine ⟨{ h with name_inside := by simp, name_ended := ?_ }, agree_nil⟩
      intro _
      simp only [HttpParser.act, hwhole, hpart]
      exact ⟨by omega, by omega, by omega, by omega⟩
    next => cases ha
  | writeValue =>
    simp only [Phase.act] at ha
    split at ha
    next hname =>
      obtain rfl := Option.some.inj ha
      exact ⟨{ h with name_inside := by simp, name_ended := by simp },
        h.agree_field hwin hread hname⟩
    next => cases ha
  | requestMethod | fragment | httpVersion | requestPath =>
    obtain rfl := Option.some.inj ha
    exact ⟨h, h.agree_mark hwin hread (by decide)⟩
  | requestUri =>
    obtain rfl := Option.some.inj ha
    refine ⟨h, agree_single ?_⟩
    simp [Report.token, Report.StartsBefore]
  | startQuery =>
    obtain rfl := Option.some.inj ha
    refine ⟨{ h with query_open := ?_, query_inside := by simp }, agree_nil⟩
    intro _
    exact ⟨Nat.le_refl _, Nat.sub_le _ _, fun _ => rfl⟩
  | queryString =>
    simp only [Phase.act] at ha
    split at ha
    next => cases ha
    next hopen =>
      obtain rfl := Option.some.inj ha
      obtain ⟨hle, hle', heq⟩ := h.query_open hopen
      refine ⟨{ h with query_open := by simp, query_inside := by simp }, ?_⟩
      exact agree_element (by decide)
        (query_slice_eq_iff hwin hbase hread h.pos_lt hle hle' heq)
  | done =>
    obtain rfl := Option.some.inj ha
    simp only [HttpParser.act, h.xmlSent_eq, h.jsonSent_eq]
    split
    · exact ⟨{ h with xmlSent_eq := rfl, jsonSent_eq := rfl }, agree_nil⟩
    · refine ⟨{ h with xmlSent_eq := rfl, jsonSent_eq := rfl }, agree_single ?_⟩
      simp [Report.token, Report.StartsBefore]
  | xml =>
    obtain rfl := Option.some.inj ha
    exact ⟨{ h with xmlSent_eq := rfl }, agree_nil⟩
  | json =>
    obtain rfl := Option.some.inj ha
    exact ⟨{ h with jsonSent_eq := rfl }, agree_nil⟩

theorem Aligned.acts (h : Aligned base pos φ w s)
    (hwin : Window head read base) (hread : pos - base ≤ read.length)
    {as : List Action} (has : φ.acts as = some φ') :
    Aligned base pos φ' (w.acts pos as).1 (s.acts (pos - base) as).1 ∧
      Agree base head read (w.acts pos as).2 (s.acts (pos - base) as).2 := by
  induction as generalizing φ w s with
  | nil =>
    obtain rfl := Option.some.inj has
    exact ⟨h, agree_nil⟩
  | cons a as ih =>
    rw [Phase.acts] at has
    cases ha : φ.act a with
    | none => simp [ha] at has
    | some φ₁ =>
      rw [ha] at has
      obtain ⟨h₁, hagree₁⟩ := h.act hwin hread ha
      obtain ⟨h₂, hagree₂⟩ := ih h₁ has
      exact ⟨h₂, agree_append hagree₁ hagree₂⟩

theorem Aligned.settle (h : Aligned base pos φ w s) (hpos : pos + 1 < 2 ^ 31) :
    Aligned base (pos + 1) φ.settle w s where
  base_le := Nat.le_succ_of_le h.base_le
  pos_lt := hpos
  mark_eq := h.mark_eq
  mark_le := Nat.le_succ_of_le h.mark_le
  fieldStart_eq := h.fieldStart_eq
  fieldStart_le := Nat.le_succ_of_le h.fieldStart_le
  name_inside := fun _ => Nat.lt_succ_of_le h.fieldStart_le
  name_ended := by
    intro hname
    have hended : φ.name = .ended := by
      simp only [Phase.settle] at hname
      split at hname
      · cases hname
      · exact hname
    obtain ⟨h₁, h₂, h₃⟩ := h.name_ended hended
    exact ⟨h₁, by omega, h₃⟩
  query_open := by
    intro hquery
    have hopen : φ.query ≠ .closed := by
      intro hclosed
      simp [Phase.settle, hclosed] at hquery
    obtain ⟨h₁, h₂⟩ := h.query_open hopen
    exact ⟨by omega, h₂⟩
  query_inside := by
    intro hquery
    have hopen : φ.query ≠ .closed := by
      intro hclosed
      simp [Phase.settle, hclosed] at hquery
    exact Nat.lt_succ_of_le (h.query_open hopen).1
  xmlSent_eq := h.xmlSent_eq
  jsonSent_eq := h.jsonSent_eq

theorem Aligned.enter (h : Aligned base pos φ w s) (hquery : φ.query ≠ .opening) :
    Aligned pos pos φ w s.enter where
  base_le := Nat.le_refl _
  pos_lt := h.pos_lt
  mark_eq := (Nat.sub_eq_zero_of_le h.mark_le).symm
  mark_le := h.mark_le
  fieldStart_eq := (Nat.sub_eq_zero_of_le h.fieldStart_le).symm
  fieldStart_le := h.fieldStart_le
  name_inside := h.name_inside
  name_ended := by
    intro hended
    obtain ⟨h₁, h₂, _⟩ := h.name_ended hended
    exact ⟨h₁, h₂, fun _ => by omega, fun _ => h₁⟩
  query_open := by
    intro hopen
    obtain ⟨h₁, h₂, _⟩ := h.query_open hopen
    have hinside : φ.query = .inside := by
      cases hφ : φ.query with
      | closed => exact absurd hφ hopen
      | opening => exact absurd hφ hquery
      | inside => rfl
    have hlt := h.query_inside hinside
    exact ⟨h₁, h₂, fun _ => by omega⟩
  query_inside := h.query_inside
  xmlSent_eq := h.xmlSent_eq
  jsonSent_eq := h.jsonSent_eq

end Actions

section OneRead

variable {M : Machine}

theorem act_fpc (s : HttpParser) (p : ℕ) (a : Action) : ∀ r ∈ (s.act p a).2, r.fpc = p := by
  intro r hr
  cases a with
  | done =>
    simp only [HttpParser.act] at hr
    split at hr
    · simp at hr
    · rw [List.mem_singleton.mp hr]
      rfl
  | writeValue | requestMethod | requestUri | fragment | queryString | httpVersion |
      requestPath =>
      rw [List.mem_singleton.mp hr]
      rfl
  | mark | startField | writeField | startValue | startQuery | xml | json =>
    simp [HttpParser.act] at hr

theorem acts_fpc (s : HttpParser) (p : ℕ) (as : List Action) :
    ∀ r ∈ (s.acts p as).2, r.fpc = p := by
  induction as generalizing s with
  | nil =>
    intro r hr
    simp [HttpParser.acts] at hr
  | cons a as ih =>
    intro r hr
    rcases List.mem_append.mp hr with hhead | htail
    · exact act_fpc s p a r hhead
    · exact ih _ r htail

/-- Reports are made at the bytes the machine reads. -/
theorem exec_fpc (rest : List UInt8) (p cs : ℕ) (s : HttpParser) :
    ∀ r ∈ (exec M rest p cs s).reports, p ≤ r.fpc ∧ r.fpc < p + rest.length := by
  induction rest generalizing p cs s with
  | nil =>
    intro r hr
    simp [exec] at hr
  | cons c rest ih =>
    intro r hr
    rw [List.length_cons]
    cases hnext : M.next cs c with
    | none =>
      rw [exec_none hnext] at hr
      simp at hr
    | some j =>
      obtain ⟨t, acts⟩ := j
      have hhere := acts_fpc s p acts
      by_cases hdone : Action.done ∈ acts
      · rw [exec_done hnext hdone] at hr
        have := hhere r hr
        omega
      · rw [exec_step hnext hdone] at hr
        rcases List.mem_append.mp hr with hr | hr
        · have := hhere r hr
          omega
        · have := ih (p + 1) t _ r hr
          omega

/-- One read: the machine on the read and the machine on the head reach the same
state, and their reports agree. -/
theorem exec_aligned
    {base pos cs : ℕ} {w s : HttpParser} {head read : List UInt8} (rest : List UInt8)
    (h : Aligned base pos (M.phase cs) w s) (hwin : Window head read base)
    (hrest : pos - base + rest.length ≤ read.length) (hlt : pos + rest.length < 2 ^ 31) :
    (exec M rest (pos - base) cs s).cs = (exec M rest pos cs w).cs ∧
      Agree base head read
        (exec M rest pos cs w).reports (exec M rest (pos - base) cs s).reports ∧
      (Running (exec M rest pos cs w).cs →
        Aligned base (pos + rest.length) (M.phase (exec M rest pos cs w).cs)
          (exec M rest pos cs w).parser (exec M rest (pos - base) cs s).parser) := by
  induction rest generalizing pos cs w s with
  | nil => exact ⟨rfl, agree_nil, fun _ => h⟩
  | cons c rest ih =>
    rw [List.length_cons] at hrest hlt
    cases hnext : M.next cs c with
    | none =>
      rw [exec_none hnext, exec_none hnext]
      exact ⟨rfl, agree_nil, fun hrun => absurd rfl hrun.1⟩
    | some j =>
      obtain ⟨t, acts⟩ := j
      obtain ⟨φ, hacts, hsettle⟩ := M.phase_next _ _ _ _ hnext
      obtain ⟨haligned, hagree⟩ := h.acts hwin (by omega) hacts
      by_cases hdone : Action.done ∈ acts
      · rw [exec_done hnext hdone, exec_done hnext hdone]
        exact ⟨rfl, hagree, fun hrun => absurd hrun (M.not_running_next hnext hdone)⟩
      · have hsettled := haligned.settle (by omega)
        rw [hsettle] at hsettled
        have hbase := h.base_le
        have hsub : pos + 1 - base = pos - base + 1 := by omega
        obtain ⟨ihcs, ihagree, ihaligned⟩ := ih hsettled (by omega) (by omega)
        rw [hsub] at ihcs ihagree ihaligned
        have hlen : pos + (c :: rest).length = pos + 1 + rest.length := by
          rw [List.length_cons]
          omega
        rw [exec_step hnext hdone, exec_step hnext hdone, hlen]
        exact ⟨ihcs, agree_append hagree ihagree, ihaligned⟩

theorem exec_append_stopped {a : List UInt8} (b : List UInt8) {p cs : ℕ} {s : HttpParser}
    (hcs : Running cs) (hstop : ¬ Running (exec M a p cs s).cs) :
    exec M (a ++ b) p cs s = exec M a p cs s := by
  induction a generalizing p cs s with
  | nil => exact absurd hcs hstop
  | cons c rest ih =>
    rw [List.cons_append]
    cases hnext : M.next cs c with
    | none => rw [exec_none hnext, exec_none hnext]
    | some j =>
      obtain ⟨t, acts⟩ := j
      by_cases hdone : Action.done ∈ acts
      · rw [exec_done hnext hdone, exec_done hnext hdone]
      · rw [exec_step hnext hdone] at hstop
        rw [exec_step hnext hdone, exec_step hnext hdone,
          ih (M.running_next hnext hdone) hstop]

/-- After a jump nothing is just being opened. -/
theorem exec_query_settled {rest : List UInt8} {p cs : ℕ} {s : HttpParser}
    (hcs : (M.phase cs).query ≠ .opening) (hrun : Running (exec M rest p cs s).cs) :
    (M.phase (exec M rest p cs s).cs).query ≠ .opening := by
  induction rest generalizing p cs s with
  | nil => exact hcs
  | cons c rest ih =>
    obtain ⟨t, acts, hnext, hdone⟩ := exists_next_of_running hrun
    obtain ⟨φ, _, hsettle⟩ := M.phase_next _ _ _ _ hnext
    have ht : (M.phase t).query ≠ .opening := by
      rw [← hsettle]
      simp only [Phase.settle]
      split
      · simp
      next hne => exact hne
    rw [exec_step hnext hdone] at hrun ⊢
    exact ih ht hrun

theorem leave_cs (rest : List UInt8) (p off cs : ℕ) {s : HttpParser}
    (hcs : s.cs ≠ httpParserError) :
    (HttpParser.leave (exec M rest p cs s) off).cs = (exec M rest p cs s).cs := by
  have hkeep := (exec_cs_nread (M := M) rest p cs s).1
  simp [HttpParser.leave, httpParserHasError, hkeep, hcs]

end OneRead

theorem le_of_mem_boundaries {base b : ℕ} {reads : List (List UInt8)}
    (hb : b ∈ boundaries base reads) :
    base ≤ b := by
  induction reads generalizing base with
  | nil => simp [boundaries] at hb
  | cons r rs ih =>
    rcases List.mem_cons.mp hb with rfl | hb
    · exact Nat.le_refl _
    · have := ih hb
      omega

/-- A token that begins before `base` and ends later is also cut at any later
offset up to its end. -/
theorem Report.CutAt.mono {b b' : ℕ} {r : Report}
    (h : r.CutAt b) (hle : b ≤ b') (hfpc : b' ≤ r.fpc) :
    r.CutAt b' := by
  refine ⟨?_, hfpc⟩
  obtain ⟨hstart, _⟩ := h
  cases r with
  | field fieldStart fieldLen mark fpc =>
    rcases hstart with hlt | hlt
    · exact Or.inl (Nat.lt_of_lt_of_le hlt hle)
    · exact Or.inr (Nat.lt_of_lt_of_le hlt hle)
  | element kind start fpc =>
    cases kind with
    | requestUri => exact hstart
    | requestMethod => exact Nat.lt_of_lt_of_le hstart hle
    | fragment => exact Nat.lt_of_lt_of_le hstart hle
    | requestPath => exact Nat.lt_of_lt_of_le hstart hle
    | queryString => exact Nat.lt_of_lt_of_le hstart hle
    | httpVersion => exact Nat.lt_of_lt_of_le hstart hle
  | headerDone fpc => exact hstart

section AllReads

variable {M : Machine} {head : List UInt8}

/-- Reports made within one read are cut by its own beginning or not at all. -/
theorem uncut_within_read_iff
    {base : ℕ} {read : List UInt8} (rs : List (List UInt8)) {reports : List Report}
    (hfpc : ∀ r ∈ reports, base ≤ r.fpc ∧ r.fpc < base + read.length) :
    (∀ r ∈ reports, ∀ b ∈ boundaries base (read :: rs), ¬ r.CutAt b) ↔
      ∀ r ∈ reports, ¬ r.StartsBefore base := by
  constructor
  · intro h r hr hstart
    exact h r hr base List.mem_cons_self ⟨hstart, (hfpc r hr).1⟩
  · intro h r hr b hb hcut
    rcases List.mem_cons.mp hb with rfl | hb
    · exact h r hr hcut.1
    · have hle := le_of_mem_boundaries hb
      have hlt := (hfpc r hr).2
      have := hcut.2
      omega

/-- Reports made in later reads are judged by the later boundaries. -/
theorem uncut_after_read_iff
    (base : ℕ) (read : List UInt8) (rs : List (List UInt8)) {reports : List Report}
    (hfpc : ∀ r ∈ reports, base + read.length ≤ r.fpc) (hnil : rs = [] → reports = []) :
    (∀ r ∈ reports, ∀ b ∈ boundaries base (read :: rs), ¬ r.CutAt b) ↔
      ∀ r ∈ reports, ∀ b ∈ boundaries (base + read.length) rs, ¬ r.CutAt b := by
  constructor
  · intro h r hr b hb
    exact h r hr b (List.mem_cons_of_mem _ hb)
  · intro h r hr b hb hcut
    rcases List.mem_cons.mp hb with rfl | hb
    · cases rs with
      | nil =>
        rw [hnil rfl] at hr
        simp at hr
      | cons r₁ rs₁ =>
        exact h r hr _ List.mem_cons_self (hcut.mono (Nat.le_add_right _ _) (hfpc r hr))
    · exact h r hr b hb hcut

/--
The tokens reported over the reads are those of the head exactly when no read
begins inside a token.  `w` are the registers on the whole head when `base` bytes
of it have been read, and `s` those left by the reads so far.
-/
theorem readTokens_eq_iff {base : ℕ} {w s : HttpParser} {reads : List (List UInt8)}
    (hcs : Running s.cs) (hquery : (M.phase s.cs).query ≠ .opening)
    (h : Aligned base base (M.phase s.cs) w s.enter) (hwin : head.drop base = reads.flatten)
    (hlt : base + reads.flatten.length < 2 ^ 31) :
    (exec M reads.flatten base s.cs w).reports.map (Report.token head) =
        readTokens M s reads ↔
      ∀ r ∈ (exec M reads.flatten base s.cs w).reports,
        ∀ b ∈ boundaries base reads, ¬ r.CutAt b := by
  induction reads generalizing base w s with
  | nil => simp [exec, readTokens]
  | cons r rs ih =>
    rw [List.flatten_cons] at hwin hlt ⊢
    rw [List.length_append] at hlt
    have hwindow : Window head r base := ⟨rs.flatten, hwin⟩
    obtain ⟨hsame, hagree, haligned⟩ :=
      exec_aligned r h hwindow (by omega) (by omega)
    rw [Nat.sub_self] at hsame hagree haligned
    have hfpc := exec_fpc (M := M) r base s.cs w
    have hhere := hagree.tokens_iff.trans (uncut_within_read_iff rs hfpc).symm
    rw [readTokens, hsame]
    by_cases hrun : Running (exec M r base s.cs w).cs
    · have hentry : s.enter.cs ≠ httpParserError := hcs.1
      have hleave : (HttpParser.leave (exec M r 0 s.cs s.enter) 0).cs =
          (exec M r base s.cs w).cs := (leave_cs r 0 0 s.cs hentry).trans hsame
      have hsettled := exec_query_settled hquery hrun
      have hnext : Aligned (base + r.length) (base + r.length)
          (M.phase (exec M r base s.cs w).cs) (exec M r base s.cs w).parser
          (HttpParser.leave (exec M r 0 s.cs s.enter) 0).enter :=
        { (haligned hrun).enter hsettled with }
      have hdrop : head.drop (base + r.length) = rs.flatten := by
        rw [← List.drop_drop, hwin, List.drop_left]
      rw [← hleave] at hrun hsettled hnext
      have hrest := ih hrun hsettled hnext hdrop (by omega)
      rw [hleave] at hrun hrest
      have hlater := exec_fpc (M := M) rs.flatten (base + r.length)
        (exec M r base s.cs w).cs (exec M r base s.cs w).parser
      have hafter := uncut_after_read_iff base r rs
        (fun x hx => (hlater x hx).1) (by rintro rfl; simp [exec])
      rw [exec_append_running _ hrun, if_pos hrun, List.map_append,
        List.append_eq_append_iff_of_size_eq_left (by simp [hagree.length_eq]),
        hhere, hrest, ← hafter]
      simp only [List.mem_append]
      constructor
      · rintro ⟨hl, hr⟩ x (hx | hx)
        · exact hl x hx
        · exact hr x hx
      · intro hall
        exact ⟨fun x hx => hall x (Or.inl hx), fun x hx => hall x (Or.inr hx)⟩
    · rw [exec_append_stopped _ hcs hrun, if_neg hrun, List.append_nil]
      exact hhere

end AllReads

end Http
end Civan
