import Civan.Http.Dump
import Civan.Http.KeepAlive
import Civan.Http.RequestTable
import Civan.Lib.Mealy
import Mathlib.Data.FinEnum

/-!
# The pieces of a printed head

The machine reads a head that `HttpRequest::dump` has printed piece by piece: the method,
the path, the query, the fragment, the version and the header lines each have a run of
their own, at the end of which a callback has stored the piece in the request.

`Delivers` says this of a piece wherever it stands in the buffer, so that the pieces of a
head can be put together.
-/

namespace Civan
namespace Http

open MachineInt Mealy

section Runs

variable {M : Machine} {p q t : ℕ} {w : List UInt8} {es : List (ℕ × Action)}

theorem acts_eq_replay (s : HttpParser) (p : ℕ) (as : List Action) :
    s.acts p as = replay HttpParser.act s (as.map (Prod.mk p)) := by
  induction as generalizing s with
  | nil => rfl
  | cons a as ih => simp only [HttpParser.acts, List.map_cons, replay, ih]

/-- A run that does not finish is the first part of a longer one. -/
theorem exec_of_reads (h : Reads M.next p q w t es) (hdone : ∀ e ∈ es, e.2 ≠ .done)
    (rest : List UInt8) (s : HttpParser) :
    exec M (w ++ rest) p q s =
      { exec M rest (p + w.length) t (replay HttpParser.act s es).1 with
        reports := (replay HttpParser.act s es).2 ++
          (exec M rest (p + w.length) t (replay HttpParser.act s es).1).reports } := by
  induction h generalizing s with
  | nil p q => rfl
  | @cons p q t r c as w es hstep _ ih =>
    have hacts : Action.done ∉ as := fun hmem =>
      hdone _ (List.mem_append_left _ (List.mem_map_of_mem hmem)) rfl
    have hrest := ih (fun e he => hdone e (List.mem_append_right _ he)) (s.acts p as).1
    rw [List.cons_append, exec_step hstep hacts, hrest, replay_append, ← acts_eq_replay,
      List.length_cons, Nat.add_right_comm, ← Nat.add_assoc, List.append_assoc]

end Runs

/-- Wherever `w` stands in a buffer: a run over it leads from `q` to `t`, and the
callbacks on the way turn the request `d` into `f d`. -/
def Delivers (next : ℕ → UInt8 → Option (ℕ × List Action))
    (q : ℕ) (w : List UInt8) (t : ℕ) (f : HttpRequest → HttpRequest) : Prop :=
  ∀ (buffer rest : List UInt8) (p : ℕ) (s : HttpParser),
    buffer.length < 2 ^ 31 → buffer.drop p = w ++ rest →
    ∃ es, Reads next p q w t es ∧ (∀ e ∈ es, e.2 ≠ .done) ∧
      ∀ d : ParserData,
        ((replay HttpParser.act s es).2.map (Report.token buffer)).foldlM onToken d =
          .ok { d with data := f d.data }

section Delivers

variable {next : ℕ → UInt8 → Option (ℕ × List Action)}
variable {q t r : ℕ} {u v w : List UInt8} {f g : HttpRequest → HttpRequest}

theorem Delivers.nil (q : ℕ) : Delivers next q [] q id := by
  intro buffer rest p s _ _
  refine ⟨[], Reads.nil p q, by simp, ?_⟩
  intro d
  rfl

theorem Delivers.append (hu : Delivers next q u t f) (hv : Delivers next t v r g) :
    Delivers next q (u ++ v) r (g ∘ f) := by
  intro buffer rest p s hlen hdrop
  rw [List.append_assoc] at hdrop
  obtain ⟨es, hes, hdone, hcalls⟩ := hu buffer (v ++ rest) p s hlen hdrop
  have hdrop' : buffer.drop (p + u.length) = v ++ rest := by
    rw [← List.drop_drop, hdrop, List.drop_left]
  obtain ⟨fs, hfs, hdone', hcalls'⟩ :=
    hv buffer rest (p + u.length) (replay HttpParser.act s es).1 hlen hdrop'
  refine ⟨es ++ fs, hes.append hfs, ?_, ?_⟩
  · intro e he
    rcases List.mem_append.mp he with he | he
    · exact hdone e he
    · exact hdone' e he
  · intro d
    rw [replay_append, List.map_append, List.foldlM_append, hcalls]
    exact hcalls' _

theorem Delivers.silent {c : UInt8} (hstep : next q c = some (t, [])) :
    Delivers next q [c] t id := by
  intro buffer rest p s _ _
  refine ⟨[], Reads.single hstep p, by simp, ?_⟩
  intro d
  rfl

theorem take_drop_of_append {buffer rest : List UInt8} {p : ℕ}
    (hdrop : buffer.drop p = w ++ rest) :
    (buffer.drop p).take w.length = w := by
  rw [hdrop, List.take_left]

/-- The actions that open and report an element. -/
inductive Brackets : Action → Action → Element → Prop
  | requestMethod : Brackets .mark .requestMethod .requestMethod
  | requestPath : Brackets .mark .requestPath .requestPath
  | queryString : Brackets .startQuery .queryString .queryString
  | fragment : Brackets .mark .fragment .fragment
  | httpVersion : Brackets .mark .httpVersion .httpVersion

theorem Brackets.ne_done {a b : Action} {kind : Element} (h : Brackets a b kind) :
    a ≠ .done ∧ b ≠ .done := by
  cases h <;> simp

theorem Brackets.replay_eq {a b : Action} {kind : Element}
    (h : Brackets a b kind) (s : HttpParser) (p p' : ℕ) (es : List (ℕ × Action)) :
    (replay HttpParser.act s ((p, a) :: (p', b) :: es)).2 =
      .element kind p p' ::
        (replay HttpParser.act (replay HttpParser.act s [(p, a), (p', b)]).1 es).2 := by
  cases h <;> rfl

theorem Brackets.token_eq {a b : Action} {kind : Element} (h : Brackets a b kind)
    {buffer rest : List UInt8} {p : ℕ} (hdrop : buffer.drop p = w ++ rest) :
    Report.token buffer (.element kind p (p + w.length)) = .element kind w w.length := by
  have hsize : sizeSub (p + w.length) p = w.length := by
    rw [sizeSub_of_le (Nat.le_add_right _ _), Nat.add_sub_cancel_left]
  cases h <;> simp only [Report.token, hsize, take_drop_of_append hdrop]

/-- The report of the whole URI, which no callback looks at. -/
theorem replay_requestUri {tail : List Action} (htail : tail = [] ∨ tail = [.requestUri])
    (buffer : List UInt8) (s : HttpParser) (p : ℕ) (d : ParserData) :
    ((replay HttpParser.act s (tail.map (Prod.mk p))).2.map
      (Report.token buffer)).foldlM onToken d = .ok d := by
  rcases htail with rfl | rfl
  · rfl
  · rfl

/-- An element that starts with the piece and is reported at its last byte. -/
theorem Delivers.of_element {a b : Action} {kind : Element} (hb : Brackets a b kind)
    {c : UInt8} {tail : List Action} (htail : tail = [] ∨ tail = [.requestUri])
    (hreads : ∀ p, Reads next p q (w ++ [c]) t
      ((p, a) :: (p + w.length, b) :: tail.map (Prod.mk (p + w.length))))
    (hcall : w.length ≤ stringMaxSize → ∀ d : ParserData,
      onToken d (.element kind w w.length) = .ok { d with data := f d.data }) :
    Delivers next q (w ++ [c]) t f := by
  intro buffer rest p s hlen hdrop
  rw [List.append_assoc] at hdrop
  have hmax : 2 ^ 31 ≤ stringMaxSize := by decide
  have hle : w.length ≤ buffer.length := by
    have := congrArg List.length hdrop
    rw [List.length_drop, List.length_append] at this
    omega
  refine ⟨_, hreads p, ?_, ?_⟩
  · intro e he
    simp only [List.mem_cons, List.mem_map] at he
    rcases he with rfl | rfl | ⟨x, hx, rfl⟩
    · exact hb.ne_done.1
    · exact hb.ne_done.2
    · rcases htail with rfl | rfl
      · cases hx
      · rw [List.mem_singleton.mp hx]
        simp
  · intro d
    rw [hb.replay_eq, List.map_cons, hb.token_eq hdrop, List.foldlM_cons, hcall (by omega)]
    exact replay_requestUri htail _ _ _ _

end Delivers

section RequestLine

/-- The state after `k` characters of a method. -/
def methodState : ℕ → ℕ
  | 0 => 1
  | 1 => 2
  | k + 2 => 175 + k

theorem methodJumps_subset : methodJumps ⊆ originJumps := by
  intro j hj
  simp [originJumps, hj]

theorem originNext_method
    {k : ℕ} (hk : k < 19) {c : UInt8} (hc : inRanges upperOrDigit c = true) :
    originNext (methodState (k + 1)) c = some (methodState (k + 2), []) := by
  refine originNext_of_inRanges (List.Subset.trans ?_ methodJumps_subset) ?_ hc
  · intro j hj
    cases k with
    | zero => simp [methodJumps, show j ∈ jumpsOn 2 175 [] upperOrDigit from hj]
    | succ k =>
      refine List.mem_append_left _ (List.mem_append_right _ ?_)
      refine List.mem_flatMap.mpr ⟨k, List.mem_range.mpr (by omega), List.mem_cons_of_mem _ ?_⟩
      rw [Nat.add_right_comm 175 1 k]
      exact hj
  · left
    cases k with
    | zero => decide
    | succ k =>
      rw [methodState]
      omega

theorem originNext_method_end :
    ∀ k < 20, originNext (methodState (k + 1)) 32 = some (3, [.requestMethod]) := by
  decide +kernel

theorem reads_method_from {w : List UInt8} (hw : ∀ c ∈ w, inRanges upperOrDigit c = true)
    {k : ℕ} (hk : k + w.length < 20) (p : ℕ) :
    Reads originNext p (methodState (k + 1)) w (methodState (k + 1 + w.length)) [] := by
  induction w generalizing k p with
  | nil => exact Reads.nil p _
  | cons c w ih =>
    rw [List.length_cons] at hk
    have hstep := originNext_method (k := k) (by omega) (hw c List.mem_cons_self)
    have hrest := ih (fun d hd => hw d (List.mem_cons_of_mem c hd))
      (k := k + 1) (by omega) (p + 1)
    rw [List.length_cons, Nat.add_comm w.length, ← Nat.add_assoc]
    exact Reads.silent hstep hrest

/-- One to twenty method characters, and the blank. -/
theorem reads_method {w : List UInt8} (hw : ∀ c ∈ w, inRanges upperOrDigit c = true)
    (hne : w ≠ []) (hlen : w.length ≤ 20) (p : ℕ) :
    Reads originNext p 1 (w ++ [32]) 3
      ((p, .mark) :: (p + w.length, .requestMethod) :: [].map (Prod.mk (p + w.length))) := by
  cases w with
  | nil => exact absurd rfl hne
  | cons c w =>
    rw [List.length_cons] at hlen
    have hfirst : originNext 1 c = some (2, [.mark]) :=
      originNext_of_inRanges
        (fun j hj => methodJumps_subset (by simp [methodJumps, hj])) (Or.inl (by decide))
        (hw c List.mem_cons_self)
    have hrest := reads_method_from (k := 0) (fun d hd => hw d (List.mem_cons_of_mem c hd))
      (by omega) (p + 1)
    have hend := originNext_method_end w.length (by omega)
    rw [Nat.zero_add, Nat.add_comm 1 w.length] at hrest
    exact (Reads.cons hfirst hrest).concat hend

/-- The methods whose names the machine takes are read as they are printed. -/
theorem httpMethodToString_spec :
    ∀ e ∈ httpMethodMap, e.1 ≠ .msearch →
      (httpMethodToString e.1).all (inRanges upperOrDigit) = true ∧
        httpMethodToString e.1 ≠ [] ∧ (httpMethodToString e.1).length ≤ 20 ∧
        charsToHttpMethod (httpMethodToString e.1 ++ [32]) = e.1 := by
  decide +kernel

theorem exists_mem_httpMethodMap (m : HttpMethod) (hm : m ≠ .invalidMethod) :
    ∃ e ∈ httpMethodMap, e.1 = m := by
  revert hm
  cases m <;> decide

theorem delivers_method {m : HttpMethod} (hm : m ≠ .invalidMethod) (hsearch : m ≠ .msearch) :
    Delivers originNext 1 (httpMethodToString m ++ [32]) 3 (fun d => { d with method := m }) := by
  obtain ⟨e, he, rfl⟩ := exists_mem_httpMethodMap m hm
  obtain ⟨hchars, hne, hlen, hread⟩ := httpMethodToString_spec e he hsearch
  rw [List.all_eq_true] at hchars
  refine Delivers.of_element .requestMethod (Or.inl rfl) (reads_method hchars hne hlen) ?_
  intro _ d
  simp only [onToken, onRequestMethod, hread, if_neg hm]

/-- The states in which a text is read: `q₀` before its first byte, which puts out the
actions `as`, `q` after it, and `a` and `b` within an escape. -/
structure TextStates (first others : List (UInt8 × UInt8)) (as : List Action)
    (q₀ q a b : ℕ) : Prop where
  enter : jumpsOn q₀ q as first ++ [⟨q₀, 37, 37, a, as⟩] ⊆ originJumps
  stay : jumpsOn q q [] others ++ [⟨q, 37, 37, a, []⟩] ⊆ originJumps
  digits : escapeJumps a b q ⊆ originJumps
  inTarget : ∀ p ∈ [q₀, q, a, b], p ≠ 13

theorem textStates_path :
    TextStates pathChars ((47, 47) :: pathChars) [] 33 26 27 28 where
  enter := by simp +contextual [List.subset_def, originJumps, pathJumps, or_imp]
  stay := by simp +contextual [List.subset_def, originJumps, pathJumps, or_imp]
  digits := by simp +contextual [List.subset_def, originJumps, pathJumps]
  inTarget := by decide

theorem textStates_query :
    TextStates queryChars queryChars [.startQuery] 29 30 31 32 where
  enter := by simp +contextual [List.subset_def, originJumps, queryJumps, or_imp]
  stay := by simp +contextual [List.subset_def, originJumps, queryJumps, or_imp]
  digits := by simp +contextual [List.subset_def, originJumps, queryJumps]
  inTarget := by decide

theorem textStates_fragment :
    TextStates queryChars queryChars [.mark] 20 21 22 23 where
  enter := by simp +contextual [List.subset_def, originJumps, fragmentJumps, or_imp]
  stay := by simp +contextual [List.subset_def, originJumps, fragmentJumps, or_imp]
  digits := by simp +contextual [List.subset_def, originJumps, fragmentJumps]
  inTarget := by decide

variable {first others : List (UInt8 × UInt8)} {as : List Action} {q₀ q a b : ℕ}

theorem TextStates.next_escape (h : TextStates first others as q₀ q a b) :
    originNext q₀ 37 = some (a, as) ∧ originNext q 37 = some (a, []) :=
  ⟨originNext_of_mem (h.enter (by simp)) (h.inTarget q₀ (by simp)),
    originNext_of_mem (h.stay (by simp)) (h.inTarget q (by simp))⟩

theorem TextStates.next_byte (h : TextStates first others as q₀ q a b) {c : UInt8} :
    (inRanges first c = true → originNext q₀ c = some (q, as)) ∧
      (inRanges others c = true → originNext q c = some (q, [])) :=
  ⟨originNext_of_inRanges (List.append_subset.mp h.enter).1 (Or.inl (h.inTarget q₀ (by simp))),
    originNext_of_inRanges (List.append_subset.mp h.stay).1 (Or.inl (h.inTarget q (by simp)))⟩

/-- The two digits of an escape, and a text after it. -/
theorem TextStates.reads_digits (h : TextStates first others as q₀ q a b)
    {x y : UInt8} (hx : inRanges hexDigits x = true) (hy : inRanges hexDigits y = true)
    {w : List UInt8} {p : ℕ} (hrest : Reads originNext (p + 1 + 1) q w q []) :
    Reads originNext p a (x :: y :: w) q [] := by
  obtain ⟨hfirst, hlast⟩ := List.append_subset.mp h.digits
  have hdigit := originNext_of_inRanges hfirst (Or.inl (h.inTarget a (by simp))) hx
  have hlastDigit := originNext_of_inRanges hlast (Or.inl (h.inTarget b (by simp))) hy
  exact Reads.silent hdigit (Reads.silent hlastDigit hrest)

theorem TextStates.reads (h : TextStates first others as q₀ q a b)
    {w : List UInt8} (hw : escapedText others w = true) (p : ℕ) :
    Reads originNext p q w q [] := by
  fun_induction escapedText others w generalizing p with
  | case1 => exact Reads.nil p q
  | case2 x y w ih =>
    simp only [Bool.and_eq_true] at hw
    obtain ⟨⟨hx, hy⟩, hw⟩ := hw
    exact Reads.silent h.next_escape.2 (h.reads_digits hx hy (ih hw _))
  | case3 w => cases hw
  | case4 c w hc ih =>
    rw [Bool.and_eq_true] at hw
    exact Reads.silent (h.next_byte.2 hw.1) (ih hw.2 _)

/-- A text that is not empty, from its first byte on. -/
theorem TextStates.reads_first (h : TextStates first others as q₀ q a b)
    {w : List UInt8} (hne : w ≠ []) (hw : escapedText others w = true)
    (hfirst : ∀ c ∈ w.head?, inRanges others c = true → inRanges first c = true) (p : ℕ) :
    Reads originNext p q₀ w q (as.map (Prod.mk p)) := by
  cases w with
  | nil => exact absurd rfl hne
  | cons c w =>
    rw [← List.append_nil (as.map (Prod.mk p))]
    rcases escapedText_cons hw with ⟨hc, hrest⟩ | ⟨rfl, x, y, v, rfl, hx, hy, hrest⟩
    · exact Reads.cons (h.next_byte.1 (hfirst c rfl hc)) (h.reads hrest _)
    · exact Reads.cons h.next_escape.1 (h.reads_digits hx hy (h.reads hrest _))

/-- A path: a slash, and a text that does not start with another one. -/
def PathText (path : List UInt8) : Prop :=
  ∃ w, path = 47 :: w ∧ w.head? ≠ some 47 ∧ escapedText ((47, 47) :: pathChars) w = true

/-- A path ends in one of two states, which go on alike. -/
theorem reads_path {path : List UInt8} (h : PathText path) (p : ℕ) :
    ∃ q, (q = 33 ∨ q = 26) ∧ Reads originNext p 3 path q [(p, .mark)] := by
  obtain ⟨w, rfl, hslash, hw⟩ := h
  have hmark : originNext 3 47 = some (33, [.mark]) :=
    originNext_of_mem (by simp [originJumps, requestLineJumps]) (by decide)
  by_cases hne : w = []
  · subst hne
    exact ⟨33, Or.inl rfl, Reads.single hmark p⟩
  · have hfirst : ∀ c ∈ w.head?, inRanges ((47, 47) :: pathChars) c = true →
        inRanges pathChars c = true := by
      intro c hc hrange
      rw [inRanges, List.any_cons, Bool.or_eq_true] at hrange
      refine hrange.resolve_left ?_
      intro h47
      rw [Bool.and_eq_true, decide_eq_true_eq, decide_eq_true_eq] at h47
      exact hslash (hc.trans (congrArg some (UInt8.le_antisymm h47.2 h47.1)))
    exact ⟨26, Or.inr rfl, Reads.cons hmark (textStates_path.reads_first hne hw hfirst _)⟩

theorem onToken_store
    {kind : Element} (set : HttpRequest → List UInt8 → HttpRequest) {w : List UInt8}
    (hkind : ∀ d, onToken d (.element kind w w.length) = storeToken set d w w.length)
    (hlen : w.length ≤ stringMaxSize) (d : ParserData) :
    onToken d (.element kind w w.length) = .ok { d with data := set d.data w } := by
  rw [hkind, storeToken, newString, if_neg (Nat.not_lt.mpr hlen), List.take_length]

theorem delivers_path {path : List UInt8} (h : PathText path)
    {c : UInt8} {t : ℕ} {tail : List Action} (htail : tail = [] ∨ tail = [.requestUri])
    (hmem : ∀ q ∈ [33, 26], ⟨q, c, c, t, .requestPath :: tail⟩ ∈ originJumps) :
    Delivers originNext 3 (path ++ [c]) t (fun d => { d with path := path }) := by
  refine Delivers.of_element .requestPath htail ?_
    (onToken_store (fun r v => { r with path := v }) fun _ => rfl)
  intro p
  obtain ⟨q, hq, hreads⟩ := reads_path h p
  have hstep : originNext q c = some (t, .requestPath :: tail) :=
    originNext_of_mem (hmem q (by simpa using hq)) (by omega)
  exact hreads.concat hstep

theorem delivers_query
    {query : List UInt8} (hne : query ≠ []) (h : escapedText queryChars query = true)
    {c : UInt8} {t : ℕ} (hmem : ⟨30, c, c, t, [.queryString, .requestUri]⟩ ∈ originJumps) :
    Delivers originNext 29 (query ++ [c]) t (fun d => { d with query := query }) :=
  Delivers.of_element .queryString (Or.inr rfl)
    (fun p => (textStates_query.reads_first hne h (fun _ _ hc => hc) p).concat
      (originNext_of_mem hmem (by decide)))
    (onToken_store (fun r v => { r with query := v }) fun _ => rfl)

theorem delivers_fragment {fragment : List UInt8} (hne : fragment ≠ [])
    (h : escapedText queryChars fragment = true) :
    Delivers originNext 20 (fragment ++ [32]) 4 (fun d => { d with fragment := fragment }) := by
  have hstep : originNext 21 32 = some (4, [.fragment]) :=
    originNext_of_mem (by simp [originJumps, fragmentJumps]) (by decide)
  exact Delivers.of_element .fragment (Or.inl rfl)
    (fun p => (textStates_fragment.reads_first hne h (fun _ _ hc => hc) p).concat hstep)
    (onToken_store (fun r v => { r with fragment := v }) fun _ => rfl)

theorem delivers_version {version : UInt8} (h : version = 0x10 ∨ version = 0x11) :
    Delivers originNext 4 (versionText version ++ crlf) 13
      (fun d => { d with version := version }) := by
  have hcrlf : versionText version ++ crlf = (versionText version ++ [13]) ++ [10] := by
    rw [List.append_assoc]
    rfl
  have hend : Delivers originNext 17 [10] 13 id :=
    Delivers.silent (originNext_of_mem (by simp [originJumps, headerJumps]) (by decide))
  have hscan : scan originNext 0 4 (versionText version ++ [13]) =
      some (17, [(0, .mark), ((versionText version).length, .httpVersion)]) := by
    rcases h with rfl | rfl
    · decide +kernel
    · decide +kernel
  have hcall : ∀ d : ParserData,
      onRequestVersion d (versionText version) (versionText version).length =
        .ok { d with data := { d.data with version := version } } := by
    intro d
    rcases h with rfl | rfl
    · rw [onRequestVersion, if_neg (by decide), if_pos (by decide)]
    · rw [onRequestVersion, if_pos (by decide)]
  have htext : Delivers originNext 4 (versionText version ++ [13]) 17
      (fun d => { d with version := version }) :=
    Delivers.of_element .httpVersion (Or.inl rfl)
      (fun p => (Reads.of_scan hscan).shift p) (fun _ => hcall)
  rw [hcrlf]
  exact htext.append hend

end RequestLine

section Fields

/-- A byte of a value. -/
def valueByte (c : UInt8) : Bool :=
  inRanges [(1, 9), (11, 12), (14, 126), (128, 255)] c

/-- A value: the first byte is not a blank or a tab. -/
def ValueText (value : List UInt8) : Prop :=
  (∀ c ∈ value, valueByte c = true) ∧ value.head? ≠ some 32 ∧ value.head? ≠ some 9

theorem originNext_name {c : UInt8} (hc : tokenByte c = true) :
    originNext 13 c = some (14, [.startField]) ∧ originNext 14 c = some (14, []) := by
  have hname : ∀ c, tokenByte c = true → inRanges nameChars c = true := by decide +kernel
  have hmem : jumpsOn 13 14 [.startField] nameChars ⊆ originJumps ∧
      jumpsOn 14 14 [] nameChars ⊆ originJumps := by
    simp +contextual [List.subset_def, originJumps, headerJumps, jumpsOn_cons]
  exact ⟨originNext_of_inRanges hmem.1 (Or.inr (by simp [nameChars])) (hname c hc),
    originNext_of_inRanges hmem.2 (Or.inl (by decide)) (hname c hc)⟩

theorem originNext_value {c : UInt8} (hc : valueByte c = true) :
    originNext 16 c = some (16, []) ∧
      (c ≠ 32 → c ≠ 9 → originNext 15 c = some (16, [.startValue])) := by
  have hmem : jumpsOn 15 16 [.startValue] [(1, 8), (11, 12), (14, 31), (33, 126), (128, 255)] ⊆
        originJumps ∧
      jumpsOn 16 16 [] [(1, 9), (11, 12), (14, 126), (128, 255)] ⊆ originJumps := by
    simp +contextual [List.subset_def, originJumps, headerJumps]
  refine ⟨originNext_of_inRanges hmem.2 (Or.inl (by decide)) hc, ?_⟩
  intro hblank htab
  have hfirst : ∀ c, valueByte c = true → c ≠ 32 → c ≠ 9 →
      inRanges [(1, 8), (11, 12), (14, 31), (33, 126), (128, 255)] c = true := by
    decide +kernel
  exact originNext_of_inRanges hmem.1 (Or.inl (by decide)) (hfirst c hc hblank htab)

/-- The value from the byte after the blank on, with the end of its line. -/
theorem reads_value {value : List UInt8} (h : ValueText value) (p : ℕ) :
    Reads originNext p 15 (value ++ [13]) 17
      [(p, .startValue), (p + value.length, .writeValue)] := by
  obtain ⟨hbytes, hblank, htab⟩ := h
  cases value with
  | nil =>
    have hstep : originNext 15 13 = some (17, [.startValue, .writeValue]) :=
      originNext_of_mem (by simp [originJumps, headerJumps]) (by decide)
    exact Reads.single hstep p
  | cons c value =>
    have hend : originNext 16 13 = some (17, [.writeValue]) :=
      originNext_of_mem (by simp [originJumps, headerJumps]) (by decide)
    have hfirst := (originNext_value (hbytes c List.mem_cons_self)).2
      (fun heq => hblank (congrArg some heq)) (fun heq => htab (congrArg some heq))
    have hloop := Reads.loop (fun d hd => (originNext_value hd).1)
      (fun d hd => hbytes d (List.mem_cons_of_mem c hd)) (p + 1)
    exact (Reads.cons hfirst hloop).concat hend

theorem reads_fieldLine {i : List UInt8 × List UInt8} (hne : i.1 ≠ [])
    (hname : ∀ c ∈ i.1, tokenByte c = true) (hvalue : ValueText i.2) (p : ℕ) :
    Reads originNext p 13 (fieldLine i ++ [13]) 17
      [(p, .startField), (p + i.1.length, .writeField), (p + i.1.length + 1, .startValue),
        (p + i.1.length + 2, .startValue), (p + i.1.length + 2 + i.2.length, .writeValue)] := by
  obtain ⟨name, value⟩ := i
  cases name with
  | nil => exact absurd rfl hne
  | cons c name =>
    have hcolon : originNext 14 58 = some (15, [.writeField]) :=
      originNext_of_mem (by simp [originJumps, headerJumps]) (by decide)
    have hblank : originNext 15 32 = some (15, [.startValue]) :=
      originNext_of_mem (by simp [originJumps, headerJumps, jumpsOn]) (by decide)
    have hfirst := (originNext_name (hname c List.mem_cons_self)).1
    have hloop := Reads.loop (fun d hd => (originNext_name hd).2)
      (fun d hd => hname d (List.mem_cons_of_mem c hd)) (p + 1)
    have hhead := ((Reads.cons hfirst hloop).concat hcolon).concat hblank
    have hline := hhead.append (reads_value hvalue _)
    have htext : fieldLine (c :: name, value) ++ [13] =
        c :: name ++ [58] ++ [32] ++ (value ++ [13]) := by
      simp [fieldLine, bytesOf]
    rw [htext]
    simpa [Nat.add_assoc] using hline

theorem onToken_field {i : List UInt8 × List UInt8} (hne : i.1 ≠ [])
    (hname : i.1.length ≤ stringMaxSize) (hvalue : i.2.length ≤ stringMaxSize) (d : ParserData) :
    onToken d (.field i.1 i.1.length i.2 i.2.length) =
      .ok { d with data := d.data.setHeader i.1 i.2 } := by
  rw [onToken, onRequestHttpField, if_neg (fun h => hne (List.length_eq_zero_iff.mp h)),
    newString, if_neg (Nat.not_lt.mpr hname), newString, if_neg (Nat.not_lt.mpr hvalue),
    List.take_length, List.take_length]

theorem delivers_fieldLine {i : List UInt8 × List UInt8} (hne : i.1 ≠ [])
    (hname : ∀ c ∈ i.1, tokenByte c = true) (hvalue : ValueText i.2) :
    Delivers originNext 13 (fieldLine i ++ crlf) 13 (fun d => d.setHeader i.1 i.2) := by
  have hend : Delivers originNext 17 [10] 13 id :=
    Delivers.silent (originNext_of_mem (by simp [originJumps, headerJumps]) (by decide))
  have hcrlf : fieldLine i ++ crlf = (fieldLine i ++ [13]) ++ [10] := by
    rw [List.append_assoc]
    rfl
  rw [hcrlf]
  refine Delivers.append (f := fun d => d.setHeader i.1 i.2) ?_ hend
  intro buffer rest p s hlen hdrop
  refine ⟨_, reads_fieldLine hne hname hvalue p, by simp, ?_⟩
  intro d
  -- where the name and the value stand in the buffer
  have hat : buffer.drop p = i.1 ++ (bytesOf ": " ++ (i.2 ++ ([13] ++ rest))) := by
    rw [hdrop, fieldLine]
    simp only [List.append_assoc]
  have hvat : buffer.drop (p + i.1.length + 2) = i.2 ++ ([13] ++ rest) := by
    rw [Nat.add_assoc, ← List.drop_drop, hat, List.drop_append]
    simp [bytesOf]
  have hbound := congrArg List.length hat
  simp only [List.length_drop, List.length_append] at hbound
  have hmax : 2 ^ 31 ≤ stringMaxSize := by decide
  have hsize : sizeSub (p + i.1.length) p = i.1.length := by
    rw [sizeSub_of_le (Nat.le_add_right _ _), Nat.add_sub_cancel_left]
  have hvsize : sizeSub (p + i.1.length + 2 + i.2.length) (p + i.1.length + 2) =
      i.2.length := by
    rw [sizeSub_of_le (Nat.le_add_right _ _), Nat.add_sub_cancel_left]
  simp only [replay, HttpParser.act, List.nil_append, List.append_nil, List.map_cons,
    List.map_nil, Report.token, hsize, hvsize, take_drop_of_append hat,
    take_drop_of_append hvat, List.foldlM_cons, List.foldlM_nil,
    onToken_field hne (by omega) (by omega)]
  rfl

theorem delivers_fields {fields : List (List UInt8 × List UInt8)}
    (h : ∀ i ∈ fields, i.1 ≠ [] ∧ (∀ c ∈ i.1, tokenByte c = true) ∧ ValueText i.2) :
    Delivers originNext 13 (fields.flatMap fun i => fieldLine i ++ crlf) 13
      (fun d => fields.foldl (fun d i => d.setHeader i.1 i.2) d) := by
  induction fields with
  | nil => exact Delivers.nil 13
  | cons i fields ih =>
    obtain ⟨hne, hname, hvalue⟩ := h i List.mem_cons_self
    rw [List.flatMap_cons]
    exact (delivers_fieldLine hne hname hvalue).append
      (ih fun j hj => h j (List.mem_cons_of_mem i hj))

end Fields

end Http
end Civan
