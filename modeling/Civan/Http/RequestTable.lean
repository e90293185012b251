import Civan.Http.HeadTable

/-!
# Jumps of the generated machine on the request target

The states of `http11_parser.rl.cc` for a target that starts with one slash: a path, a
query and a fragment.  A byte may be written as `%` and two hexadecimal digits in each of
them; a path that starts with two slashes and the bytes that depend on `uri_relaxed` are
left out.  With the tables for the method, the version and the header fields this is what
the machine does on the heads that `HttpRequest::dump` prints.
-/

namespace Civan
namespace Http

/-- The bytes of a path, but for the slash and the escapes. -/
def pathChars : List (UInt8 × UInt8) :=
  [(33, 33), (36, 36), (38, 46), (48, 59), (61, 61), (64, 90), (95, 95), (97, 122),
    (126, 126), (128, 255)]

/-- The bytes of a query or a fragment, but for the escapes. -/
def queryChars : List (UInt8 × UInt8) :=
  [(33, 33), (36, 36), (38, 59), (61, 61), (63, 90), (95, 95), (97, 122), (126, 126), (128, 255)]

/-- Hexadecimal digits. -/
def hexDigits : List (UInt8 × UInt8) :=
  [(48, 57), (65, 70), (97, 102)]

/-- An escape: a state `a` after the `%`, and `b` after one digit. -/
def escapeJumps (a b t : ℕ) : List Jump :=
  jumpsOn a b [] hexDigits ++ jumpsOn b t [] hexDigits

/-- States 33 and 26 to 28. -/
def pathJumps : List Jump :=
  jumpsOn 33 26 [] pathChars ++
    [⟨33, 37, 37, 27, []⟩,
      ⟨33, 35, 35, 20, [.requestPath, .requestUri]⟩,
      ⟨33, 63, 63, 29, [.requestPath]⟩] ++
    jumpsOn 26 26 [] ((47, 47) :: pathChars) ++
    [⟨26, 37, 37, 27, []⟩,
      ⟨26, 32, 32, 4, [.requestPath, .requestUri]⟩,
      ⟨26, 35, 35, 20, [.requestPath, .requestUri]⟩,
      ⟨26, 63, 63, 29, [.requestPath]⟩] ++
    escapeJumps 27 28 26

/-- States 29 to 32. -/
def queryJumps : List Jump :=
  jumpsOn 29 30 [.startQuery] queryChars ++
    [⟨29, 37, 37, 31, [.startQuery]⟩,
      ⟨29, 32, 32, 4, [.startQuery, .queryString, .requestUri]⟩,
      ⟨29, 35, 35, 20, [.startQuery, .queryString, .requestUri]⟩] ++
    jumpsOn 30 30 [] queryChars ++
    [⟨30, 37, 37, 31, []⟩,
      ⟨30, 32, 32, 4, [.queryString, .requestUri]⟩,
      ⟨30, 35, 35, 20, [.queryString, .requestUri]⟩] ++
    escapeJumps 31 32 30

/-- States 20 to 23. -/
def fragmentJumps : List Jump :=
  jumpsOn 20 21 [.mark] queryChars ++
    [⟨20, 37, 37, 22, [.mark]⟩, ⟨20, 32, 32, 4, [.mark, .fragment]⟩] ++
    jumpsOn 21 21 [] queryChars ++
    [⟨21, 37, 37, 22, []⟩, ⟨21, 32, 32, 4, [.fragment]⟩] ++
    escapeJumps 22 23 21

/-- The heads of requests for a target that starts with one slash. -/
def originJumps : List Jump :=
  methodJumps ++ requestLineJumps ++ pathJumps ++ queryJumps ++ fragmentJumps ++ headerJumps

/-- The phases of these states: a query is open in states 30 to 32. -/
def originPhase (cs : ℕ) : Phase where
  name := (plainPhase cs).name
  query := if 30 ≤ cs ∧ cs ≤ 32 then .inside else .closed

theorem originJumps_sound : ∀ j ∈ originJumps, j.Sound originPhase := by
  decide +kernel

/-- The generated machine on these heads. -/
def originMachine : Machine :=
  Machine.ofJumps originJumps originPhase (by decide) originJumps_sound

/-- A machine that has the jumps of a table, and maybe others. -/
def Machine.Extends (M : Machine) (jumps : List Jump) : Prop :=
  ∀ cs c j, jumpOn jumps cs c = some j → M.next cs c = some j

theorem originMachine_extends : originMachine.Extends originJumps :=
  fun _ _ _ h => h

/-- Two jumps of one state with a byte in common. -/
def Jump.meets (j i : Jump) : Bool :=
  i.cs = j.cs && (j.lo ≤ i.hi && i.lo ≤ j.hi)

/-- The first jump of the table on each of its bytes. -/
def Jump.First (jumps : List Jump) (j : Jump) : Prop :=
  jumps.find? j.meets = some j

instance (jumps : List Jump) (j : Jump) : Decidable (j.First jumps) :=
  inferInstanceAs (Decidable (_ = _))

theorem Jump.First.jumpOn_eq {jumps : List Jump} {j : Jump} (h : j.First jumps)
    {c : UInt8} (hlo : j.lo ≤ c) (hhi : c ≤ j.hi) :
    jumpOn jumps j.cs c = some (j.t, j.acts) := by
  obtain ⟨-, before, behind, heq, hbefore⟩ := List.find?_eq_some_iff_append.mp h
  have hfind : jumps.find? (fun i => i.cs = j.cs ∧ i.lo ≤ c ∧ c ≤ i.hi) = some j := by
    refine List.find?_eq_some_iff_append.mpr ⟨by simp [hlo, hhi], before, behind, heq, ?_⟩
    intro i hi
    -- an earlier jump on the byte would meet `j` there
    have hmeets := hbefore i hi
    by_contra hne
    simp only [Bool.not_eq_true', Bool.not_eq_false, decide_eq_true_eq] at hne
    obtain ⟨hcs, hlo', hhi'⟩ := hne
    simp [Jump.meets, hcs, UInt8.le_trans hlo hhi', UInt8.le_trans hlo' hhi] at hmeets
  rw [jumpOn, hfind]

/-- A byte in one of the ranges. -/
def inRanges (ranges : List (UInt8 × UInt8)) (c : UInt8) : Bool :=
  ranges.any fun r => r.1 ≤ c && c ≤ r.2

/-- The jumps of the table. -/
def originNext : ℕ → UInt8 → Option (ℕ × List Action) :=
  jumpOn originJumps

theorem jumpsOn_cons
    (q t : ℕ) (acts : List Action) (r : UInt8 × UInt8) (ranges : List (UInt8 × UInt8)) :
    jumpsOn q t acts (r :: ranges) = ⟨q, r.1, r.2, t, acts⟩ :: jumpsOn q t acts ranges :=
  rfl

/-- State 13 jumps on a carriage return before it looks for the control bytes around it. -/
theorem originJumps_first :
    ∀ j ∈ originJumps, (j.cs, j.lo) ≠ (13, 11) → j.First originJumps := by
  decide +kernel

theorem originNext_of_mem {q t : ℕ} {c : UInt8} {acts : List Action}
    (hmem : ⟨q, c, c, t, acts⟩ ∈ originJumps) (h13 : q ≠ 13) :
    originNext q c = some (t, acts) :=
  (originJumps_first _ hmem fun heq => h13 (Prod.ext_iff.mp heq).1).jumpOn_eq
    (UInt8.le_refl c) (UInt8.le_refl c)

theorem originNext_of_inRanges {q t : ℕ} {acts : List Action} {ranges : List (UInt8 × UInt8)}
    (hmem : jumpsOn q t acts ranges ⊆ originJumps) (h13 : q ≠ 13 ∨ ∀ r ∈ ranges, r.1 ≠ 11)
    {c : UInt8} (hc : inRanges ranges c = true) :
    originNext q c = some (t, acts) := by
  obtain ⟨r, hr, hle⟩ := List.any_eq_true.mp hc
  rw [Bool.and_eq_true, decide_eq_true_eq, decide_eq_true_eq] at hle
  have hne : (q, r.1) ≠ (13, 11) := by
    intro heq
    obtain ⟨hq, hlo⟩ := Prod.ext_iff.mp heq
    exact h13.elim (fun h => h hq) (fun h => h r hr hlo)
  exact (originJumps_first _ (hmem (List.mem_map_of_mem hr)) hne).jumpOn_eq hle.1 hle.2

/-- A text of bytes from the ranges and of escapes. -/
def escapedText (ranges : List (UInt8 × UInt8)) : List UInt8 → Bool
  | [] => true
  | c :: w =>
    if c = 37 then
      match w with
      | a :: b :: w => inRanges hexDigits a && inRanges hexDigits b && escapedText ranges w
      | _ => false
    else
      inRanges ranges c && escapedText ranges w

theorem escapedText_cons {ranges : List (UInt8 × UInt8)} {c : UInt8} {w : List UInt8}
    (h : escapedText ranges (c :: w) = true) :
    (inRanges ranges c = true ∧ escapedText ranges w = true) ∨
      (c = 37 ∧ ∃ a b v, w = a :: b :: v ∧ inRanges hexDigits a = true ∧
        inRanges hexDigits b = true ∧ escapedText ranges v = true) := by
  by_cases hc : c = 37
  · subst hc
    cases w with
    | nil => simp [escapedText] at h
    | cons a w =>
      cases w with
      | nil => simp [escapedText] at h
      | cons b v =>
        simp only [escapedText, if_pos, Bool.and_eq_true] at h
        exact Or.inr ⟨rfl, a, b, v, rfl, h.1.1, h.1.2, h.2⟩
  · rw [escapedText.eq_def] at h
    dsimp only at h
    rw [if_neg hc, Bool.and_eq_true] at h
    exact Or.inl h

end Http
end Civan
