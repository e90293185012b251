import Civan.Http.Http11Parser

/-!
# Jumps of the generated machine on plain heads

The generated code has 348 states, most of them for the forms a URI may take.
This file transcribes the states a head with the path `/` goes through: the
method, the version, the header fields and the end of the head.  State numbers
and actions are those of `http11_parser.rl.cc`.
-/

namespace Civan
namespace Http

/-- In state `cs`, a byte from `lo` to `hi` leads to `t`. -/
structure Jump where
  cs : ℕ
  lo : UInt8
  hi : UInt8
  t : ℕ
  acts : List Action
deriving DecidableEq, Repr

/-- A jump that keeps to the order of the actions. -/
def Jump.Sound (phase : ℕ → Phase) (j : Jump) : Prop :=
  ((phase j.cs).acts j.acts).map Phase.settle = some (phase j.t) ∧
    j.t ≠ httpParserError ∧
    (Action.done ∈ j.acts ↔ httpParserFirstFinal ≤ j.t) ∧
    (Action.requestMethod ∈ j.acts → j.lo = 32 ∧ j.hi = 32)

instance (phase : ℕ → Phase) (j : Jump) : Decidable (j.Sound phase) :=
  inferInstanceAs (Decidable (_ ∧ _ ∧ _ ∧ _))

def jumpOn (jumps : List Jump) (cs : ℕ) (c : UInt8) : Option (ℕ × List Action) :=
  match jumps.find? fun j => j.cs = cs ∧ j.lo ≤ c ∧ c ≤ j.hi with
  | some j => some (j.t, j.acts)
  | none => none

theorem jumpOn_eq_some {jumps : List Jump} {cs : ℕ} {c : UInt8} {t : ℕ} {acts : List Action}
    (h : jumpOn jumps cs c = some (t, acts)) :
    ∃ j ∈ jumps, j.cs = cs ∧ j.lo ≤ c ∧ c ≤ j.hi ∧ j.t = t ∧ j.acts = acts := by
  rw [jumpOn] at h
  split at h
  next j hfind =>
    simp only [Option.some.injEq, Prod.mk.injEq] at h
    have hmatch := List.find?_some hfind
    simp only [decide_eq_true_eq] at hmatch
    obtain ⟨hcs, hlo, hhi⟩ := hmatch
    exact ⟨j, List.mem_of_find?_eq_some hfind, hcs, hlo, hhi, h.1, h.2⟩
  next => cases h

/-- The machine of a table of sound jumps. -/
def Machine.ofJumps (jumps : List Jump) (phase : ℕ → Phase)
    (hstart : phase httpParserStart = ⟨.idle, .closed⟩)
    (hsound : ∀ j ∈ jumps, j.Sound phase) : Machine where
  next := jumpOn jumps
  phase := phase
  phase_start := hstart
  phase_next := by
    intro cs c t acts hnext
    obtain ⟨j, hj, rfl, _, _, rfl, rfl⟩ := jumpOn_eq_some hnext
    obtain ⟨φ, hφ, hsettle⟩ := Option.map_eq_some_iff.mp (hsound j hj).1
    exact ⟨φ, hφ, hsettle⟩
  next_ne_error := by
    intro cs c t acts hnext
    obtain ⟨j, hj, _, _, _, rfl, _⟩ := jumpOn_eq_some hnext
    exact (hsound j hj).2.1
  done_iff_final := by
    intro cs c t acts hnext
    obtain ⟨j, hj, _, _, _, rfl, rfl⟩ := jumpOn_eq_some hnext
    exact (hsound j hj).2.2.1
  method_space := by
    intro cs c t acts hnext hmethod
    obtain ⟨j, hj, _, hlo, hhi, _, rfl⟩ := jumpOn_eq_some hnext
    obtain ⟨h₁, h₂⟩ := (hsound j hj).2.2.2 hmethod
    rw [h₁] at hlo
    rw [h₂] at hhi
    exact UInt8.le_antisymm hhi hlo

/-- The same jump on several ranges of bytes. -/
def jumpsOn (cs t : ℕ) (acts : List Action) (ranges : List (UInt8 × UInt8)) : List Jump :=
  ranges.map fun r => ⟨cs, r.1, r.2, t, acts⟩

/-- Method characters. -/
def upperOrDigit : List (UInt8 × UInt8) :=
  [(48, 57), (65, 90)]

/-- The characters of a header name that states 13, 14 and 18 share. -/
def nameChars : List (UInt8 × UInt8) :=
  [(33, 33), (124, 124), (126, 126), (1, 8), (35, 39), (42, 43), (45, 46), (48, 57),
    (65, 90), (94, 122)]

/-- States 2 and 175 to 193: up to twenty method characters. -/
def methodJumps : List Jump :=
  jumpsOn 1 2 [.mark] upperOrDigit ++
    [⟨2, 32, 32, 3, [.requestMethod]⟩] ++ jumpsOn 2 175 [] upperOrDigit ++
    (List.range 18).flatMap (fun i =>
      ⟨175 + i, 32, 32, 3, [.requestMethod]⟩ :: jumpsOn (175 + i) (176 + i) [] upperOrDigit) ++
    [⟨193, 32, 32, 3, [.requestMethod]⟩]

/-- The path `/`, and the version. -/
def requestLineJumps : List Jump :=
  [⟨3, 47, 47, 33, [.mark]⟩,
    ⟨33, 32, 32, 4, [.requestPath, .requestUri]⟩,
    ⟨4, 72, 72, 5, [.mark]⟩,
    ⟨5, 84, 84, 6, []⟩,
    ⟨6, 84, 84, 7, []⟩,
    ⟨7, 80, 80, 8, []⟩,
    ⟨8, 47, 47, 9, []⟩,
    ⟨9, 49, 49, 10, []⟩,
    ⟨10, 46, 46, 11, []⟩,
    ⟨11, 48, 49, 12, []⟩,
    ⟨12, 10, 10, 13, [.httpVersion]⟩,
    ⟨12, 13, 13, 17, [.httpVersion]⟩]

/-- Header fields, and the empty line that ends the head. -/
def headerJumps : List Jump :=
  [⟨13, 10, 10, 348, [.startField, .done]⟩, ⟨13, 13, 13, 18, [.startField]⟩] ++
    jumpsOn 13 14 [.startField] ((11, 31) :: nameChars) ++
    [⟨14, 58, 58, 15, [.writeField]⟩] ++
    jumpsOn 14 14 [] ((10, 31) :: nameChars) ++
    jumpsOn 15 15 [.startValue] [(9, 9), (32, 32)] ++
    [⟨15, 10, 10, 13, [.startValue, .writeValue]⟩,
      ⟨15, 13, 13, 17, [.startValue, .writeValue]⟩] ++
    jumpsOn 15 16 [.startValue] [(1, 8), (11, 12), (14, 31), (33, 126), (128, 255)] ++
    [⟨16, 10, 10, 13, [.writeValue]⟩, ⟨16, 13, 13, 17, [.writeValue]⟩] ++
    jumpsOn 16 16 [] [(1, 9), (11, 12), (14, 126), (128, 255)] ++
    [⟨17, 10, 10, 13, []⟩] ++
    [⟨18, 10, 10, 348, [.done]⟩, ⟨18, 58, 58, 15, [.writeField]⟩] ++
    jumpsOn 18 14 [] ((11, 31) :: nameChars)

/-- The phase of a header field in each of these states. -/
def plainPhase (cs : ℕ) : Phase where
  name :=
    if cs = 14 ∨ cs = 18 ∨ cs = 348 then .inside
    else if cs = 15 ∨ cs = 16 then .ended
    else .idle
  query := .closed

theorem plainJumps_sound :
    ∀ j ∈ methodJumps ++ requestLineJumps ++ headerJumps, j.Sound plainPhase := by
  decide +kernel

/-- The generated machine on heads with the path `/`. -/
def plainMachine : Machine :=
  Machine.ofJumps (methodJumps ++ requestLineJumps ++ headerJumps) plainPhase
    (by decide) plainJumps_sound

end Http
end Civan
