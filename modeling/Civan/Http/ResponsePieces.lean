import Civan.Http.ClientTable
import Civan.Http.RequestPieces

/-!
# The pieces of a printed response

What the generated machine and the callbacks make of the status line and of one header
line.  The name of a header line may run through the chains of `connection`,
`content-length` and `transfer-encoding` for a while, and a value through those of `close`
and `chunked`: each of these states does for the field what an ordinary one does.

A chain says what has been read: the machine is in the state for a keyword only if the
name, in lower case, is that keyword so far.  So only a line that is called `connection`
can end in the state from which `close` is set.
-/

namespace Civan
namespace Http

open MachineInt Mealy Strtol

section Runs

variable {mem : List UInt8} {p q t : ℕ} {w : List UInt8} {es : List (ℕ × ClientAction)}

/-- The actions on the registers, over the memory of the call. -/
def clientAct (mem : List UInt8) (s : HttpclientParser) (fpc : ℕ) (a : ClientAction) :
    HttpclientParser × List ClientReport :=
  s.act mem fpc a

theorem client_acts_eq_replay
    (s : HttpclientParser) (p : ℕ) {as : List ClientAction} (hdone : ClientAction.done ∉ as) :
    s.acts mem p as = replay (clientAct mem) s (as.map (Prod.mk p)) := by
  induction as generalizing s with
  | nil => rfl
  | cons a as ih =>
    rw [List.mem_cons, not_or] at hdone
    obtain ⟨hne, hrest⟩ := hdone
    simp only [HttpclientParser.acts, if_neg (Ne.symm hne), List.map_cons, replay, ih _ hrest,
      clientAct]

/-- A run that does not finish is the first part of a longer one. -/
theorem clientExec_of_reads (h : Reads clientNext p q w t es) (hdone : ∀ e ∈ es, e.2 ≠ .done)
    (rest : List UInt8) (s : HttpclientParser) :
    clientExec clientNext mem (w ++ rest) p q s =
      { clientExec clientNext mem rest (p + w.length) t (replay (clientAct mem) s es).1 with
        reports := (replay (clientAct mem) s es).2 ++
          (clientExec clientNext mem rest (p + w.length) t
            (replay (clientAct mem) s es).1).reports } := by
  induction h generalizing s with
  | nil p q => rfl
  | @cons p q t r c as w es hstep _ ih =>
    have hacts : ClientAction.done ∉ as := fun hmem =>
      hdone _ (List.mem_append_left _ (List.mem_map_of_mem hmem)) rfl
    have hrest := ih (fun e he => hdone e (List.mem_append_right _ he)) (s.acts mem p as).1
    rw [List.cons_append, clientExec, hstep]
    dsimp only
    rw [if_neg hacts, hrest, replay_append, ← client_acts_eq_replay s p hacts,
      List.length_cons, Nat.add_right_comm, ← Nat.add_assoc, List.append_assoc]

end Runs

/-- The connection is closed, as far as the machine has read: `close` is set one byte
after the line that says so. -/
def closing (q : ℕ) (s : HttpclientParser) : Bool :=
  s.close || decide (q = 43)

/-- Wherever `w` stands in the memory: a run over it leads from `q` to `t`, the callbacks
on the way turn the response `d` into `f d`, the piece asks to close the connection if
`closes` says so, and it announces the length of the body that `len` says. -/
def Conveys (q : ℕ) (w : List UInt8) (t : ℕ) (f : HttpResponse → HttpResponse)
    (closes : Bool) (len : Option ℤ) : Prop :=
  ∀ (mem rest : List UInt8) (p : ℕ) (s : HttpclientParser), mem.drop p = w ++ rest →
    ∃ es, Reads clientNext p q w t es ∧ (∀ e ∈ es, e.2 ≠ .done) ∧
      (∀ h : HttpResponseParser,
        (replay (clientAct mem) s es).2.foldl (onResponse mem) h = { h with data := f h.data }) ∧
      closing t (replay (clientAct mem) s es).1 = (closing q s || closes) ∧
      ∀ n ∈ len, (replay (clientAct mem) s es).1.contentLen = n

section Conveys

variable {q t r : ℕ} {u v w : List UInt8} {f g : HttpResponse → HttpResponse}
variable {closes closes' : Bool} {len len' : Option ℤ}

theorem Conveys.append (hu : Conveys q u t f closes len) (hv : Conveys t v r g closes' len') :
    Conveys q (u ++ v) r (g ∘ f) (closes || closes') len' := by
  intro mem rest p s hdrop
  rw [List.append_assoc] at hdrop
  obtain ⟨es, hes, hdone, hcalls, hclose, _⟩ := hu mem (v ++ rest) p s hdrop
  have hdrop' : mem.drop (p + u.length) = v ++ rest := by
    rw [← List.drop_drop, hdrop, List.drop_left]
  obtain ⟨fs, hfs, hdone', hcalls', hclose', hlen⟩ :=
    hv mem rest (p + u.length) (replay (clientAct mem) s es).1 hdrop'
  refine ⟨es ++ fs, hes.append hfs, ?_, ?_, ?_, ?_⟩
  · intro e he
    rcases List.mem_append.mp he with he | he
    · exact hdone e he
    · exact hdone' e he
  · intro h
    rw [replay_append, List.foldl_append, hcalls, hcalls']
    rfl
  · rw [replay_append, hclose', hclose, Bool.or_assoc]
  · rw [replay_append]
    exact hlen

theorem Conveys.nil (q : ℕ) : Conveys q [] q id false none := by
  intro mem rest p s _
  refine ⟨[], Reads.nil p q, by simp, fun h => rfl, ?_, by simp⟩
  rw [Bool.or_false]
  rfl

theorem Conveys.silent {c : UInt8} (hstep : clientNext q c = some (t, []))
    (hq : q ≠ 43) (ht : t ≠ 43) :
    Conveys q [c] t id false none := by
  intro mem rest p s _
  refine ⟨[], Reads.single hstep p, by simp, fun h => rfl, ?_, by simp⟩
  simp [closing, replay, hq, ht]

/-- The actions that report an element of the status line. -/
inductive Reporting : ClientAction → ClientElement → Prop
  | httpVersion : Reporting .httpVersion .httpVersion
  | statusCode : Reporting .statusCode .statusCode
  | reasonPhrase : Reporting .reasonPhrase .reasonPhrase

theorem Reporting.ne_done {b : ClientAction} {kind : ClientElement} (hb : Reporting b kind) :
    b ≠ .done := by
  cases hb <;> simp

theorem Reporting.replay_eq {b : ClientAction} {kind : ClientElement}
    (hb : Reporting b kind) (mem : List UInt8) (s : HttpclientParser) (p p' : ℕ) :
    (replay (clientAct mem) s [(p, .mark), (p', b)]).2 = [.element kind p p'] ∧
      (replay (clientAct mem) s [(p, .mark), (p', b)]).1.close = s.close := by
  cases hb <;> exact ⟨rfl, rfl⟩

/-- An element that starts with the piece and is reported at its last byte. -/
theorem Conveys.of_element {b : ClientAction} {kind : ClientElement} (hb : Reporting b kind)
    {c : UInt8} (hq : q ≠ 43) (ht : t ≠ 43)
    (hreads : ∀ p, Reads clientNext p q (w ++ [c]) t [(p, .mark), (p + w.length, b)])
    (hcall : ∀ mem rest p, mem.drop p = w ++ c :: rest → ∀ h : HttpResponseParser,
      onResponse mem h (.element kind p (p + w.length)) = { h with data := f h.data }) :
    Conveys q (w ++ [c]) t f false none := by
  intro mem rest p s hdrop
  rw [List.append_assoc, List.singleton_append] at hdrop
  obtain ⟨hreports, hclose⟩ := hb.replay_eq mem s p (p + w.length)
  refine ⟨_, hreads p, ?_, ?_, ?_, by simp⟩
  · simp [hb.ne_done]
  · intro h
    rw [hreports, List.foldl_cons, List.foldl_nil, hcall mem rest p hdrop]
  · simp [closing, hclose, hq, ht]

end Conveys

section Edges

variable {row : List Edge} {c : UInt8}

theorem exists_edgeOn {e : Edge} (he : e ∈ row) (hlo : e.lo ≤ c) (hhi : c ≤ e.hi) :
    ∃ e' ∈ row, e'.lo ≤ c ∧ c ≤ e'.hi ∧ edgeOn row c = some (e'.t, e'.acts) := by
  have hsome : (row.find? fun e => e.lo ≤ c ∧ c ≤ e.hi).isSome := by
    rw [List.find?_isSome]
    exact ⟨e, he, by simp [hlo, hhi]⟩
  obtain ⟨e', hfind⟩ := Option.isSome_iff_exists.mp hsome
  have hon := List.find?_some hfind
  rw [decide_eq_true_eq] at hon
  exact ⟨e', List.mem_of_find?_eq_some hfind, hon.1, hon.2, by rw [edgeOn, hfind]; rfl⟩

theorem exists_edgeOn_of_inRanges
    {t : ℕ} {acts : List ClientAction} {ranges : List (UInt8 × UInt8)}
    (h : ∀ e ∈ edgesOn t acts ranges, e ∈ row) (hc : inRanges ranges c = true) :
    ∃ e ∈ row, e.lo ≤ c ∧ c ≤ e.hi ∧ edgeOn row c = some (e.t, e.acts) := by
  obtain ⟨r, hr, hle⟩ := List.any_eq_true.mp hc
  rw [Bool.and_eq_true, decide_eq_true_eq, decide_eq_true_eq] at hle
  exact exists_edgeOn (h _ (List.mem_map_of_mem hr)) hle.1 hle.2

theorem exists_edgeOn_otherwise {t : ℕ} {acts : List ClientAction}
    (h : ∀ e ∈ otherwise t acts, e ∈ row) (c : UInt8) :
    ∃ e ∈ row, e.lo ≤ c ∧ c ≤ e.hi ∧ edgeOn row c = some (e.t, e.acts) :=
  exists_edgeOn (h _ (List.mem_singleton.mpr rfl)) UInt8.zero_le
    (UInt8.le_iff_toNat_le.mpr (Nat.le_of_lt_succ c.toNat_lt))

end Edges

section StatusLine

theorem value_decimal (n : ℕ) : value 10 (decimal n) = n := by
  have hfold : value 10 (decimal n) =
      (decimal n).foldl (fun n c => 10 * n + (c.toNat - 48)) 0 := by
    refine List.foldl_ext _ _ _ ?_
    intro k c hc
    rw [digitOf_of_decimal (decimal_digits n c hc)]
  rw [hfold, foldl_decimal]

theorem decimal_ne_nil (n : ℕ) : decimal n ≠ [] := by
  rw [decimal_eq_map]
  simp

/-- A printed number is read back up to the byte after it. -/
theorem atoi_decimal {n : ℕ} (hn : n < 2 ^ 31)
    {c : UInt8} (hc : ¬(48 ≤ c ∧ c ≤ 57)) (rest : List UInt8) :
    atoi (decimal n ++ c :: rest) = n := by
  rw [atoi_digits_append (decimal_ne_nil n) (decimal_digits n), value_decimal]
  · intro d hd
    cases hd
    exact hc
  · rwa [value_decimal]

theorem conveys_version {version : UInt8} (h : version = 0x10 ∨ version = 0x11) :
    Conveys 1 (versionText version ++ [32]) 16 (fun d => { d with version := version })
      false none := by
  have hscan : scan clientNext 0 1 (versionText version ++ [32]) =
      some (16, [(0, .mark), ((versionText version).length, .httpVersion)]) := by
    rcases h with rfl | rfl
    · decide +kernel
    · decide +kernel
  refine Conveys.of_element .httpVersion (by decide) (by decide)
    (fun p => (Reads.of_scan hscan).shift p) ?_
  intro mem rest p hdrop d
  have hsize : sizeSub (p + (versionText version).length) p = (versionText version).length := by
    rw [sizeSub_of_le (Nat.le_add_right _ _), Nat.add_sub_cancel_left]
  rw [onResponse, hsize, hdrop, onResponseVersion]
  rcases h with rfl | rfl
  · rfl
  · rfl

theorem clientNext_digit :
    ∀ c : UInt8, 48 ≤ c ∧ c ≤ 57 →
      clientNext 16 c = some (17, [.mark]) ∧ clientNext 17 c = some (17, []) := by
  decide +kernel

theorem conveys_status {status : ℕ} (h : status < 2 ^ 31) :
    Conveys 16 (decimal status ++ [32]) 18 (fun d => { d with status := status }) false none := by
  refine Conveys.of_element .statusCode (by decide) (by decide) ?_ ?_
  · intro p
    have hdigits := decimal_digits status
    cases hdec : decimal status with
    | nil => exact absurd hdec (decimal_ne_nil status)
    | cons c w =>
      rw [hdec] at hdigits
      have hfirst := (clientNext_digit c (hdigits c List.mem_cons_self)).1
      have hloop := Reads.loop (fun d hd => (clientNext_digit d hd).2)
        (fun d hd => hdigits d (List.mem_cons_of_mem c hd)) (p + 1)
      have hblank : clientNext 17 32 = some (18, [.statusCode]) := by decide +kernel
      exact (Reads.cons hfirst hloop).concat hblank
  · intro mem rest p hdrop d
    rw [onResponse, hdrop, atoi_decimal h (by decide)]
    have hmod : ((status : ℤ) % 2 ^ 32).toNat = status := by omega
    rw [hmod]

/-- A text on one line. -/
def LineText (w : List UInt8) : Prop :=
  ∀ c ∈ w, c ≠ 10 ∧ c ≠ 13

instance LineText.decidable (w : List UInt8) : Decidable (LineText w) :=
  decidable_of_iff (w.all (fun c => c ≠ 10 ∧ c ≠ 13) = true) (by simp [LineText])

theorem clientNext_reason :
    ∀ c : UInt8, c ≠ 10 ∧ c ≠ 13 →
      clientNext 18 c = some (19, [.mark]) ∧ clientNext 19 c = some (19, []) := by
  decide +kernel

theorem conveys_reason {reason : List UInt8} (hne : reason ≠ []) (h : LineText reason) :
    Conveys 18 (reason ++ crlf) 20 (fun d => { d with reason := reason }) false none := by
  have hcrlf : reason ++ crlf = (reason ++ [13]) ++ [10] := by
    rw [List.append_assoc]
    rfl
  have hend : Conveys 24 [10] 20 id false none :=
    Conveys.silent (by decide +kernel) (by decide) (by decide)
  have htext : Conveys 18 (reason ++ [13]) 24 (fun d => { d with reason := reason })
      false none := by
    refine Conveys.of_element .reasonPhrase (by decide) (by decide) ?_ ?_
    · intro p
      cases reason with
      | nil => exact absurd rfl hne
      | cons c w =>
        have hfirst := (clientNext_reason c (h c List.mem_cons_self)).1
        have hloop := Reads.loop (fun d hd => (clientNext_reason d hd).2)
          (fun d hd => h d (List.mem_cons_of_mem c hd)) (p + 1)
        have hcr : clientNext 19 13 = some (24, [.reasonPhrase]) := by decide +kernel
        exact (Reads.cons hfirst hloop).concat hcr
    · intro mem rest p hdrop d
      rw [onResponse, sizeSub_of_le (Nat.le_add_right _ _), Nat.add_sub_cancel_left,
        take_drop_of_append hdrop]
  rw [hcrlf]
  exact htext.append hend

end StatusLine

section Names

/-- The states within the name of a line. -/
def nameStates : List ℕ :=
  21 :: (List.range' 25 10 ++ List.range' 44 17 ++ List.range' 101 11)

/-- What has been read of a keyword in the states of its chain. -/
def keyword (q : ℕ) : List UInt8 :=
  if 25 ≤ q ∧ q ≤ 34 then (bytesOf "connection").take (q - 24)
  else if 44 ≤ q ∧ q ≤ 60 then (bytesOf "transfer-encoding").take (q - 43)
  else if 101 ≤ q ∧ q ≤ 111 then (bytesOf "content-length").take (q - 97)
  else []

/-- The actions on the first byte of a line: what was pending from the line before. -/
def pending (q : ℕ) : List ClientAction :=
  if q = 43 then [.writeConnectionClose] else []

/-- An edge of state `q` within a name: it leads to a state of a chain only from that
chain, and on the letter that goes on with the keyword. -/
def Edge.Names (acts : List ClientAction) (q : ℕ) (e : Edge) : Prop :=
  e.acts = acts ∧ e.t ∈ nameStates ∧
    (e.t ≠ 21 → q ≠ 21 ∧ e.lo = e.hi ∧ keyword e.t = keyword q ++ [toLower e.lo])

instance (acts : List ClientAction) (q : ℕ) (e : Edge) : Decidable (e.Names acts q) :=
  inferInstanceAs (Decidable (_ ∧ _ ∧ _))

/-- The byte moves on within a name. -/
def NamesNext (acts : List ClientAction) (q : ℕ) (c : UInt8) : Prop :=
  ∃ t ∈ nameStates, clientNext q c = some (t, acts) ∧
    (t ≠ 21 → q ≠ 21 ∧ keyword t = keyword q ++ [toLower c])

theorem Edge.Names.next {acts : List ClientAction} {q : ℕ} {e : Edge} (h : e.Names acts q)
    {c : UInt8} (hlo : e.lo ≤ c) (hhi : c ≤ e.hi)
    (hnext : edgeOn (clientRow q) c = some (e.t, e.acts)) :
    NamesNext acts q c := by
  obtain ⟨hacts, ht, hchain⟩ := h
  refine ⟨e.t, ht, by rw [clientNext, hnext, hacts], ?_⟩
  intro hne
  obtain ⟨hq, heq, hkey⟩ := hchain hne
  rw [hkey, UInt8.le_antisymm hlo (heq ▸ hhi)]
  exact ⟨hq, rfl⟩

/-- The rows of the start of a line and of names, edge by edge. -/
theorem edges_of_names :
    (∀ q ∈ [20, 43],
      (∀ e ∈ edgesOn 21 (pending q ++ [.startField]) tokenRanges, e ∈ clientRow q) ∧
      ∀ e ∈ clientRow q, e.hi ≤ 13 ∨ e.Names (pending q ++ [.startField]) q) ∧
    ∀ q ∈ nameStates,
      (∀ e ∈ edgesOn 21 [] tokenRanges, e ∈ clientRow q) ∧
      ∀ e ∈ clientRow q, (e.lo = 58 ∧ e.hi = 58) ∨ e.Names [] q := by
  decide +kernel

theorem tokenByte_spec :
    ∀ c, tokenByte c = true → inRanges tokenRanges c = true ∧ ¬ c ≤ 13 ∧ c ≠ 58 := by
  decide +kernel

theorem clientNext_line {q : ℕ} (hq : q ∈ [20, 43]) {c : UInt8} (hc : tokenByte c = true) :
    NamesNext (pending q ++ [.startField]) q c := by
  obtain ⟨hrange, hline, _⟩ := tokenByte_spec c hc
  obtain ⟨hcover, hedges⟩ := edges_of_names.1 q hq
  obtain ⟨e, he, hlo, hhi, hnext⟩ := exists_edgeOn_of_inRanges hcover hrange
  rcases hedges e he with hend | hname
  · exact absurd (UInt8.le_trans hhi hend) hline
  · exact hname.next hlo hhi hnext

theorem clientNext_name {q : ℕ} (hq : q ∈ nameStates) {c : UInt8} (hc : tokenByte c = true) :
    NamesNext [] q c := by
  obtain ⟨hrange, _, hcolon⟩ := tokenByte_spec c hc
  obtain ⟨hcover, hedges⟩ := edges_of_names.2 q hq
  obtain ⟨e, he, hlo, hhi, hnext⟩ := exists_edgeOn_of_inRanges hcover hrange
  rcases hedges e he with ⟨hlo', hhi'⟩ | hname
  · rw [hlo'] at hlo
    rw [hhi'] at hhi
    exact absurd (UInt8.le_antisymm hhi hlo) hcolon
  · exact hname.next hlo hhi hnext

theorem reads_name_rest {w : List UInt8} (hw : ∀ c ∈ w, tokenByte c = true)
    {q : ℕ} (hq : q ∈ nameStates) (p : ℕ) :
    ∃ t ∈ nameStates, Reads clientNext p q w t [] ∧
      (t ≠ 21 → q ≠ 21 ∧ keyword t = keyword q ++ w.map toLower) := by
  induction w generalizing q p with
  | nil =>
    refine ⟨q, hq, Reads.nil p q, ?_⟩
    intro hne
    exact ⟨hne, (List.append_nil _).symm⟩
  | cons c w ih =>
    obtain ⟨u, hu, hnext, hkey⟩ := clientNext_name hq (hw c List.mem_cons_self)
    obtain ⟨t, ht, hreads, hkey'⟩ :=
      ih (fun d hd => hw d (List.mem_cons_of_mem c hd)) hu (p + 1)
    refine ⟨t, ht, Reads.silent hnext hreads, ?_⟩
    intro hne
    obtain ⟨hu21, hrest⟩ := hkey' hne
    obtain ⟨hq21, hfirst⟩ := hkey hu21
    rw [hrest, hfirst, List.map_cons, List.append_assoc]
    exact ⟨hq21, rfl⟩

/-- The name of a line, and what the state after it says about it. -/
theorem reads_name {name : List UInt8} (hne : name ≠ []) (hname : ∀ c ∈ name, tokenByte c = true)
    {q : ℕ} (hq : q ∈ [20, 43]) (p : ℕ) :
    ∃ t ∈ nameStates,
      Reads clientNext p q name t ((pending q ++ [ClientAction.startField]).map (Prod.mk p)) ∧
        (t ≠ 21 → keyword t = name.map toLower) := by
  cases name with
  | nil => exact absurd rfl hne
  | cons c w =>
    have hstart : ∀ q ∈ [20, 43], keyword q = [] := by decide
    obtain ⟨u, hu, hnext, hkey⟩ := clientNext_line hq (hname c List.mem_cons_self)
    obtain ⟨t, ht, hreads, hkey'⟩ :=
      reads_name_rest (fun d hd => hname d (List.mem_cons_of_mem c hd)) hu (p + 1)
    have hrun := Reads.cons hnext hreads
    rw [List.append_nil] at hrun
    refine ⟨t, ht, hrun, ?_⟩
    intro hne
    obtain ⟨hu21, hrest⟩ := hkey' hne
    rw [hrest, (hkey hu21).2, hstart q hq]
    rfl

theorem foldCase_of_token {name : List UInt8} (hname : ∀ c ∈ name, tokenByte c = true) :
    foldCase name = name.map toLower := by
  have hzero : ∀ c ∈ name, decide (c ≠ 0) = true := by
    intro c hc
    rw [decide_eq_true_eq]
    rintro rfl
    exact absurd (hname 0 hc) (by decide)
  rw [foldCase, List.takeWhile_eq_self_iff.mpr hzero]

end Names

section Values

/-- The states within the value of a line that is not called `connection`. -/
def valueStates : List ℕ :=
  23 :: 119 :: List.range' 81 7

/-- A text that starts with a byte that is not a blank. -/
def FieldText (w : List UInt8) : Prop :=
  w ≠ [] ∧ LineText w ∧ ∀ c ∈ w.head?, inRanges blankRanges c = false

instance FieldText.decidable (w : List UInt8) : Decidable (FieldText w) :=
  inferInstanceAs (Decidable (w ≠ [] ∧ LineText w ∧ ∀ c ∈ w.head?, inRanges blankRanges c = false))

/-- The rows after the colon and of values, edge by edge. -/
theorem edges_of_values :
    (∀ q ∈ [22, 61, 112],
      clientNext q 32 = some (q, [.startValue]) ∧
      (∀ e ∈ otherwise 23 [.startValue], e ∈ clientRow q) ∧
      ∀ e ∈ clientRow q, (e.lo, e.hi) ∈ blankRanges ∨ (e.lo = e.hi ∧ e.hi ∈ crlf) ∨
        (e.acts = [.startValue] ∧ e.t ∈ valueStates)) ∧
    ∀ q ∈ valueStates,
      (∀ e ∈ otherwise 23 [], e ∈ clientRow q) ∧
      ∀ e ∈ clientRow q, (e.lo = e.hi ∧ e.hi ∈ crlf) ∨ (e.acts = [] ∧ e.t ∈ valueStates) := by
  decide +kernel

theorem not_mem_crlf
    {e : Edge} {c : UInt8} (hc : c ≠ 10 ∧ c ≠ 13) (hlo : e.lo ≤ c) (hhi : c ≤ e.hi) :
    ¬(e.lo = e.hi ∧ e.hi ∈ crlf) := by
  rintro ⟨heq, hmem⟩
  have hc' : c = e.hi := UInt8.le_antisymm hhi (heq ▸ hlo)
  rw [← hc'] at hmem
  simp only [crlf, List.mem_cons, List.not_mem_nil, or_false] at hmem
  rcases hmem with h | h
  · exact hc.2 h
  · exact hc.1 h

theorem clientNext_value_first {q : ℕ} (hq : q ∈ [22, 61, 112])
    {c : UInt8} (hc : c ≠ 10 ∧ c ≠ 13) (hblank : inRanges blankRanges c = false) :
    ∃ t ∈ valueStates, clientNext q c = some (t, [.startValue]) := by
  obtain ⟨_, hall, hedges⟩ := edges_of_values.1 q hq
  obtain ⟨e, he, hlo, hhi, hnext⟩ := exists_edgeOn_otherwise hall c
  rcases hedges e he with hmem | hend | ⟨hacts, ht⟩
  · have hin : inRanges blankRanges c = true :=
      List.any_eq_true.mpr ⟨_, hmem, by simp [hlo, hhi]⟩
    rw [hblank] at hin
    cases hin
  · exact absurd hend (not_mem_crlf hc hlo hhi)
  · exact ⟨e.t, ht, by rw [clientNext, hnext, hacts]⟩

theorem clientNext_value {q : ℕ} (hq : q ∈ valueStates) {c : UInt8} (hc : c ≠ 10 ∧ c ≠ 13) :
    ∃ t ∈ valueStates, clientNext q c = some (t, []) := by
  obtain ⟨hall, hedges⟩ := edges_of_values.2 q hq
  obtain ⟨e, he, hlo, hhi, hnext⟩ := exists_edgeOn_otherwise hall c
  rcases hedges e he with hend | ⟨hacts, ht⟩
  · exact absurd hend (not_mem_crlf hc hlo hhi)
  · exact ⟨e.t, ht, by rw [clientNext, hnext, hacts]⟩

theorem reads_value_rest
    {w : List UInt8} (hw : LineText w) {q : ℕ} (hq : q ∈ valueStates) (p : ℕ) :
    ∃ t ∈ valueStates, Reads clientNext p q w t [] := by
  induction w generalizing q p with
  | nil => exact ⟨q, hq, Reads.nil p q⟩
  | cons c w ih =>
    obtain ⟨u, hu, hnext⟩ := clientNext_value hq (hw c List.mem_cons_self)
    obtain ⟨t, ht, hreads⟩ := ih (fun d hd => hw d (List.mem_cons_of_mem c hd)) hu (p + 1)
    exact ⟨t, ht, Reads.silent hnext hreads⟩

/-- The end of a line, from a state of its value: the length of the body may be set, and
`chunked` may be. -/
theorem clientNext_value_end :
    ∀ q ∈ valueStates, ∃ cr ∈ [24, 71], ∃ ls ∈ [[], [ClientAction.writeContentLen]],
      ∃ chunk ∈ [[], [ClientAction.transChunked]],
        clientNext q 13 = some (cr, ls ++ [.writeValue]) ∧ clientNext cr 10 = some (20, chunk) := by
  decide +kernel

theorem reads_value_line {value : List UInt8} (h : FieldText value)
    {q : ℕ} (hq : q ∈ [22, 61, 112]) (p : ℕ) :
    ∃ ls ∈ [[], [ClientAction.writeContentLen]], ∃ chunk ∈ [[], [ClientAction.transChunked]],
      Reads clientNext p q (value ++ crlf) 20
        ((p, .startValue) :: (ls ++ [ClientAction.writeValue]).map (Prod.mk (p + value.length)) ++
          chunk.map (Prod.mk (p + value.length + 1))) := by
  obtain ⟨hne, hline, hblank⟩ := h
  cases value with
  | nil => exact absurd rfl hne
  | cons c w =>
    obtain ⟨u, hu, hfirst⟩ :=
      clientNext_value_first hq (hline c List.mem_cons_self) (hblank c rfl)
    obtain ⟨t, ht, hrest⟩ :=
      reads_value_rest (fun d hd => hline d (List.mem_cons_of_mem c hd)) hu (p + 1)
    obtain ⟨cr, _, ls, hls, chunk, hchunk, hcr, hlf⟩ := clientNext_value_end t ht
    refine ⟨ls, hls, chunk, hchunk, ?_⟩
    have hrun := ((Reads.cons hfirst hrest).concat hcr).concat hlf
    simpa [crlf, Nat.add_assoc] using hrun

end Values

section Lines

/-- The actions on a line with a name of `n` bytes and a value of `v` bytes. -/
def lineActions (p n v : ℕ) (before ls chunk : List ClientAction) : List (ℕ × ClientAction) :=
  (before ++ [ClientAction.startField]).map (Prod.mk p) ++
    [(p + n, .writeField), (p + n + 1, .startValue), (p + n + 2, .startValue)] ++
    (ls ++ [ClientAction.writeValue]).map (Prod.mk (p + n + 2 + v)) ++
    chunk.map (Prod.mk (p + n + 2 + v + 1))

/-- `HttpResponse::setHeader`. -/
def HttpResponse.setHeader (r : HttpResponse) (key val : List UInt8) : HttpResponse :=
  { r with headers := MapType.set key val r.headers }

/-- What the actions on a line do to the registers, and the field they report. -/
theorem replay_lineActions (mem : List UInt8) (s : HttpclientParser) (p n v q : ℕ)
    {ls chunk : List ClientAction} (hls : ls ∈ [[], [ClientAction.writeContentLen]])
    (hchunk : chunk ∈ [[], [ClientAction.transChunked]]) :
    (replay (clientAct mem) s (lineActions p n v (pending q) ls chunk)).2 =
        [.field p n (p + n + 2) (p + n + 2 + v)] ∧
      (replay (clientAct mem) s (lineActions p n v (pending q) ls chunk)).1.close = closing q s ∧
      (ls ≠ [] →
        (replay (clientAct mem) s (lineActions p n v (pending q) ls chunk)).1.contentLen =
          strtolInt 10 (mem.drop (p + n + 2))) := by
  have hsize : sizeSub (p + n) p = n := by
    rw [sizeSub_of_le (Nat.le_add_right _ _), Nat.add_sub_cancel_left]
  simp only [List.mem_cons, List.not_mem_nil, or_false] at hls hchunk
  by_cases hq : q = 43
  · rcases hls with rfl | rfl <;> rcases hchunk with rfl | rfl <;>
      simp [lineActions, pending, hq, replay, clientAct, HttpclientParser.act, hsize, closing]
  · rcases hls with rfl | rfl <;> rcases hchunk with rfl | rfl <;>
      simp [lineActions, pending, hq, replay, clientAct, HttpclientParser.act, hsize, closing]

theorem lineActions_ne_done (p n v q : ℕ) {ls chunk : List ClientAction}
    (hls : ls ∈ [[], [ClientAction.writeContentLen]])
    (hchunk : chunk ∈ [[], [ClientAction.transChunked]]) :
    ∀ e ∈ lineActions p n v (pending q) ls chunk, e.2 ≠ .done := by
  simp only [List.mem_cons, List.not_mem_nil, or_false] at hls hchunk
  by_cases hq : q = 43
  · rcases hls with rfl | rfl <;> rcases hchunk with rfl | rfl <;> simp [lineActions, pending, hq]
  · rcases hls with rfl | rfl <;> rcases hchunk with rfl | rfl <;> simp [lineActions, pending, hq]

/-- A line sets its field.  The line that the machine reads last says how long the body
is, if its name is that of the length. -/
theorem Conveys.of_line {i : List UInt8 × List UInt8} (hne : i.1 ≠ []) {q t : ℕ} {len : Option ℤ}
    (hreads : ∀ p, ∃ ls ∈ [[], [ClientAction.writeContentLen]],
      ∃ chunk ∈ [[], [ClientAction.transChunked]],
        (len.isSome → ls ≠ []) ∧
        Reads clientNext p q (fieldLine i ++ crlf) t
          (lineActions p i.1.length i.2.length (pending q) ls chunk))
    (hlen : ∀ n ∈ len, ∀ rest, strtolInt 10 (i.2 ++ 13 :: rest) = n) :
    Conveys q (fieldLine i ++ crlf) t (fun d => d.setHeader i.1 i.2) (decide (t = 43)) len := by
  intro mem rest p s hdrop
  obtain ⟨ls, hls, chunk, hchunk, hsome, hrun⟩ := hreads p
  obtain ⟨hreports, hclose, hcontent⟩ :=
    replay_lineActions mem s p i.1.length i.2.length q hls hchunk
  -- where the name and the value stand in the memory
  have hat : mem.drop p = i.1 ++ (bytesOf ": " ++ (i.2 ++ (crlf ++ rest))) := by
    rw [hdrop, fieldLine]
    simp only [List.append_assoc]
  have hvat : mem.drop (p + i.1.length + 2) = i.2 ++ (crlf ++ rest) := by
    rw [Nat.add_assoc, ← List.drop_drop, hat, List.drop_append]
    simp [bytesOf]
  refine ⟨_, hrun, lineActions_ne_done _ _ _ _ hls hchunk, ?_, ?_, ?_⟩
  · intro h
    rw [hreports, List.foldl_cons, List.foldl_nil, onResponse, onResponseHttpField,
      if_neg (fun h => hne (List.length_eq_zero_iff.mp h)), take_drop_of_append hat,
      sizeSub_of_le (Nat.le_add_right _ _), Nat.add_sub_cancel_left, take_drop_of_append hvat]
    rfl
  · rw [closing, hclose]
  · intro n hn
    rw [hcontent (hsome (by rw [hn]; rfl)), hvat]
    exact hlen n hn _

theorem clientNext_colon :
    ∀ t ∈ nameStates, t ≠ 34 →
      ∃ g ∈ [22, 61, 112], clientNext t 58 = some (g, [.writeField]) := by
  decide +kernel

theorem conveys_field {i : List UInt8 × List UInt8} (hne : i.1 ≠ [])
    (hname : ∀ c ∈ i.1, tokenByte c = true) (hvalue : FieldText i.2)
    (hconnection : foldCase i.1 ≠ foldCase (bytesOf "connection")) {q : ℕ} (hq : q ∈ [20, 43]) :
    Conveys q (fieldLine i ++ crlf) 20 (fun d => d.setHeader i.1 i.2) false none := by
  refine Conveys.of_line (t := 20) hne ?_ (by simp)
  intro p
  obtain ⟨t, ht, hreads, hkey⟩ := reads_name hne hname hq p
  have h34 : t ≠ 34 := by
    rintro rfl
    refine hconnection ?_
    rw [foldCase_of_token hname, ← hkey (by decide)]
    decide
  obtain ⟨g, hg, hcolon⟩ := clientNext_colon t ht h34
  have hblank := (edges_of_values.1 g hg).1
  obtain ⟨ls, hls, chunk, hchunk, hrest⟩ :=
    reads_value_line hvalue hg (p + i.1.length + 2)
  refine ⟨ls, hls, chunk, hchunk, by simp, ?_⟩
  have htext : fieldLine i ++ crlf = i.1 ++ [58] ++ [32] ++ (i.2 ++ crlf) := by
    simp [fieldLine, bytesOf]
  have hrun := ((hreads.concat hcolon).concat hblank).append
    (by simpa [Nat.add_assoc] using hrest)
  rw [htext]
  simpa [lineActions, Nat.add_assoc] using hrun

theorem conveys_length {n : ℕ} (hn : n < 2 ^ 31) {q : ℕ} (hq : q ∈ [20, 43]) :
    Conveys q (fieldLine (bytesOf "content-length", decimal n) ++ crlf) 20
      (fun d => d.setHeader (bytesOf "content-length") (decimal n)) false (some n) := by
  have hdigit : ∀ c : UInt8, 48 ≤ c ∧ c ≤ 57 →
      clientNext 112 c = some (119, [.startValue]) ∧ clientNext 119 c = some (119, []) := by
    decide +kernel
  have hname : ∀ q ∈ [20, 43], scan clientNext 0 q (bytesOf "content-length: ") =
      some (112, (pending q ++ [ClientAction.startField]).map (Prod.mk 0) ++
        [(14, .writeField), (15, .startValue)]) := by
    decide +kernel
  have hne : bytesOf "content-length" ≠ [] := by decide
  refine Conveys.of_line (i := (bytesOf "content-length", decimal n)) (t := 20) hne ?_ ?_
  · intro p
    refine ⟨[.writeContentLen], by simp, [], by simp, by simp, ?_⟩
    have hdigits := decimal_digits n
    have hcr : clientNext 119 13 = some (24, [.writeContentLen, .writeValue]) := by decide +kernel
    have hlf : clientNext 24 10 = some (20, []) := by decide +kernel
    have hhead := (Reads.of_scan (hname q hq)).shift p
    cases hdec : decimal n with
    | nil => exact absurd hdec (decimal_ne_nil n)
    | cons c w =>
      rw [hdec] at hdigits
      have hfirst := (hdigit c (hdigits c List.mem_cons_self)).1
      have hloop := Reads.loop (fun d hd => (hdigit d hd).2)
        (fun d hd => hdigits d (List.mem_cons_of_mem c hd)) (p + 16 + 1)
      have hvalue := ((Reads.cons hfirst hloop).concat hcr).concat hlf
      have hrun := hhead.append hvalue
      have htext : fieldLine (bytesOf "content-length", c :: w) ++ crlf =
          bytesOf "content-length: " ++ (c :: w ++ [13] ++ [10]) := by
        simp [fieldLine, bytesOf, crlf]
      have hlen : (bytesOf "content-length").length = 14 := by decide
      rw [htext]
      simpa [lineActions, hlen, Nat.add_assoc, Function.comp_def] using hrun
  · intro k hk rest
    rw [Option.mem_def, Option.some.injEq] at hk
    rw [← hk]
    exact atoi_decimal hn (by decide) rest

theorem conveys_connection (close : Bool) :
    Conveys 20 (fieldLine (connectionField close) ++ crlf) (if close then 43 else 20)
      (fun d => d.setHeader (bytesOf "connection") (connectionValue close)) close none := by
  have hscan : ∀ close, scan clientNext 0 20 (fieldLine (connectionField close) ++ crlf) =
      some (if close then 43 else 20,
        lineActions 0 10 (connectionValue close).length [] [] []) := by
    decide +kernel
  have hne : ∀ close, (connectionField close).1 ≠ [] := by decide
  have hclose : close = decide ((if close then 43 else 20) = 43) := by
    cases close with
    | false => rfl
    | true => rfl
  have hline : Conveys 20 (fieldLine (connectionField close) ++ crlf)
      (if close then 43 else 20)
      (fun d => d.setHeader (bytesOf "connection") (connectionValue close))
      (decide ((if close then 43 else 20) = 43)) none := by
    refine Conveys.of_line (i := connectionField close) (hne close) ?_ (by simp)
    intro p
    refine ⟨[], by simp, [], by simp, by simp, ?_⟩
    have hlen : ∀ close, (connectionField close).1.length = 10 := by decide
    have hvalue : (connectionField close).2 = connectionValue close := rfl
    have hrun := (Reads.of_scan (hscan close)).shift p
    simpa [lineActions, pending, hlen, hvalue, Nat.add_assoc] using hrun
  rwa [← hclose] at hline

end Lines

end Http
end Civan
