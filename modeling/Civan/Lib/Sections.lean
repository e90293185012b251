import Mathlib.Logic.Function.Basic
import Civan.Lib.Transition

/-!
# Calls of two critical sections

An object is shared by threads.  A call locks it once, or twice with a gap between:
what it learned under the first lock is what it brings to the second one, and other
threads may have their turn in the gap.

`Outline` is the proof rule.  What a thread knows in the gap is an assertion about the
shared object; it has to be established by the first section of the thread and kept by
the sections of all others.
-/

namespace Civan
namespace Sections

open Transition

/-- The critical sections of the calls `α` of an object `σ`.  A first section ends the
call or leaves `π` for the second one; `none` is a call that is not made.  A section
shows an output or fails. -/
structure Calls (σ α π ο ε : Type) where
  first : σ → α → Option (Except ε (ο × σ × Option π))
  second : σ → π → Except ε (ο × σ)

/-- A call that has the object to itself from its first section to its last. -/
def Calls.whole {σ α π ο ε : Type} (C : Calls σ α π ο ε) (s : σ) (a : α) :
    Option (Except ε (ο × σ)) :=
  (C.first s a).map fun r =>
    match r with
    | .error e => .error e
    | .ok (o, x, none) => .ok (o, x)
    | .ok (_, x, some p) => C.second x p

/-- The object, and what each thread in a gap brings to its second section. -/
structure Threads (τ σ π : Type) where
  shared : σ
  between : τ → Option π

/-- The sections as steps of their threads. -/
inductive Label (τ α : Type) where
  | first (thread : τ) (call : α)
  | second (thread : τ)
deriving DecidableEq, Repr

/-- The thread that moves. -/
def Label.thread {τ α : Type} : Label τ α → τ
  | .first t _ => t
  | .second t => t

section Steps

variable {τ σ α π ο ε : Type} [DecidableEq τ] (C : Calls σ α π ο ε)

/-- One section; `none` where the step does not apply. -/
def step (s : Threads τ σ π) : Label τ α → Option (Except ε (ο × Threads τ σ π))
  | .first t a =>
    match s.between t with
    | some _ => none
    | none =>
      (C.first s.shared a).map fun r => r.map fun x =>
        (x.1, { shared := x.2.1, between := Function.update s.between t x.2.2 })
  | .second t =>
    (s.between t).map fun p => (C.second s.shared p).map fun x =>
      (x.1, { shared := x.2, between := Function.update s.between t none })

/-- How a section fails, if it does. -/
def fault (s : Threads τ σ π) (l : Label τ α) : Option ε :=
  match step C s l with
  | some (.error e) => some e
  | _ => none

/-- The threads as a transition system; a run stops at a failure. -/
def system : System (Threads τ σ π) (Label τ α) ο where
  step s l := (step C s l).bind Except.toOption

/-- Nobody is in a call. -/
def Threads.start (x : σ) : Threads τ σ π :=
  { shared := x, between := fun _ => none }

variable {C} {s s' : Threads τ σ π} {t : τ} {a : α} {o : ο}

/-- A first section is tried outside a call, and its result is the section's. -/
theorem step_first_result {r : Except ε (ο × Threads τ σ π)}
    (h : step C s (.first t a) = some r) :
    s.between t = none ∧ ∃ r', C.first s.shared a = some r' ∧
      r = r'.map fun x =>
        (x.1, { shared := x.2.1, between := Function.update s.between t x.2.2 }) := by
  simp only [step] at h
  cases hb : s.between t with
  | some p =>
    rw [hb] at h
    cases h
  | none =>
    rw [hb] at h
    obtain ⟨r', hr', rfl⟩ := Option.map_eq_some_iff.mp h
    exact ⟨rfl, r', hr', rfl⟩

/-- A second section is tried in a gap, and its result is the section's. -/
theorem step_second_result {r : Except ε (ο × Threads τ σ π)}
    (h : step C s (.second t : Label τ α) = some r) :
    ∃ p, s.between t = some p ∧
      r = (C.second s.shared p).map fun x =>
        (x.1, { shared := x.2, between := Function.update s.between t none }) := by
  obtain ⟨p, hp, rfl⟩ := Option.map_eq_some_iff.mp h
  exact ⟨p, hp, rfl⟩

/-- A step of the system is a section that succeeds. -/
theorem step_of_system {l : Label τ α} (h : (system C).step s l = some (o, s')) :
    step C s l = some (.ok (o, s')) := by
  obtain ⟨r, hr, hok⟩ := Option.bind_eq_some_iff.mp h
  cases r with
  | error e => cases hok
  | ok x =>
    cases hok
    exact hr

theorem step_of_fault {l : Label τ α} {e : ε} (h : fault C s l = some e) :
    step C s l = some (.error e) := by
  unfold fault at h
  split at h
  · rename_i e' hstep
    cases h
    exact hstep
  · cases h

theorem step_first (h : (system C).step s (.first t a) = some (o, s')) :
    s.between t = none ∧ ∃ x p, C.first s.shared a = some (.ok (o, x, p)) ∧
      s' = { shared := x, between := Function.update s.between t p } := by
  obtain ⟨hb, r, hfirst, hr⟩ := step_first_result (step_of_system h)
  cases r with
  | error e => cases hr
  | ok x =>
    cases hr
    exact ⟨hb, x.2.1, x.2.2, hfirst, rfl⟩

theorem step_second (h : (system C).step s (.second t) = some (o, s')) :
    ∃ p x, s.between t = some p ∧ C.second s.shared p = .ok (o, x) ∧
      s' = { shared := x, between := Function.update s.between t none } := by
  obtain ⟨p, hb, hr⟩ := step_second_result (step_of_system h)
  cases hsecond : C.second s.shared p with
  | error e =>
    rw [hsecond] at hr
    cases hr
  | ok x =>
    rw [hsecond] at hr
    cases hr
    exact ⟨p, x.2, hb, hsecond, rfl⟩

theorem fault_first {e : ε} (h : fault C s (.first t a) = some e) :
    C.first s.shared a = some (.error e) := by
  obtain ⟨_, r, hfirst, hr⟩ := step_first_result (step_of_fault h)
  cases r with
  | ok x => cases hr
  | error e' =>
    cases hr
    exact hfirst

theorem fault_second {e : ε} (h : fault C s (.second t) = some e) :
    ∃ p, s.between t = some p ∧ C.second s.shared p = .error e := by
  obtain ⟨p, hb, hr⟩ := step_second_result (step_of_fault h)
  cases hsecond : C.second s.shared p with
  | ok x =>
    rw [hsecond] at hr
    cases hr
  | error e' =>
    rw [hsecond] at hr
    cases hr
    exact ⟨p, hb, hsecond⟩

theorem fault_eq_none {l : Label τ α}
    (hfirst : ∀ t a e, l = .first t a → C.first s.shared a ≠ some (.error e))
    (hsecond : ∀ t p e, l = .second t → s.between t = some p → C.second s.shared p ≠ .error e) :
    fault C s l = none := by
  rw [Option.eq_none_iff_forall_ne_some]
  intro e he
  cases l with
  | first t a => exact hfirst t a e rfl (fault_first he)
  | second t =>
    obtain ⟨p, hp, herror⟩ := fault_second he
    exact hsecond t p e rfl hp herror

end Steps

section Rule

variable {τ σ α π ο ε : Type}

/-- The invariant holds, and every thread in a gap is right about what it knows. -/
def Holds (I : σ → Prop) (Q : σ → π → Prop) (s : Threads τ σ π) : Prop :=
  I s.shared ∧ ∀ t q, s.between t = some q → Q s.shared q

theorem holds_start {I : σ → Prop} {Q : σ → π → Prop} {x : σ} (hI : I x) :
    Holds I Q (Threads.start x : Threads τ σ π) := by
  refine ⟨hI, ?_⟩
  intro t q hq
  cases hq

variable [DecidableEq τ]

/-- The obligations for an invariant `I` of the object and an assertion `Q` of the threads
in a gap, in runs whose steps meet `P`. -/
structure Outline (C : Calls σ α π ο ε) (P : Threads τ σ π → Label τ α → Prop)
    (I : σ → Prop) (Q : σ → π → Prop) : Prop where
  /-- A first section keeps the invariant and establishes the assertion. -/
  first : ∀ s t a o x p, P s (.first t a) → I s.shared →
    C.first s.shared a = some (.ok (o, x, p)) → I x ∧ ∀ q ∈ p, Q x q
  /-- A second section keeps the invariant, given the assertion. -/
  second : ∀ s t p o x, P s (.second t) → I s.shared → s.between t = some p →
    Q s.shared p → C.second s.shared p = .ok (o, x) → I x
  /-- The assertions of the others are kept. -/
  stable : ∀ s l o s' t q, P s l → (system C).step s l = some (o, s') → t ≠ l.thread →
    s.between t = some q → Q s.shared q → Q s'.shared q

variable {C : Calls σ α π ο ε} {P : Threads τ σ π → Label τ α → Prop} {I : σ → Prop}
variable {Q : σ → π → Prop}

/-- What holds of the thread that moves and of all others in a gap. -/
theorem between_update {between : τ → Option π} {t : τ} {p : Option π} {K : π → Prop}
    (hself : ∀ q ∈ p, K q) (hothers : ∀ t' q, t' ≠ t → between t' = some q → K q) :
    ∀ t' q, Function.update between t p t' = some q → K q := by
  intro t' q hq
  by_cases ht : t' = t
  · subst ht
    rw [Function.update_self] at hq
    exact hself q hq
  · rw [Function.update_of_ne ht] at hq
    exact hothers t' q ht hq

theorem Outline.step (h : Outline C P I Q) {s s' : Threads τ σ π} {l : Label τ α} {o : ο}
    (hs : Holds I Q s) (hP : P s l) (hstep : (system C).step s l = some (o, s')) :
    Holds I Q s' := by
  obtain ⟨hI, hQ⟩ := hs
  have hothers : ∀ t q, t ≠ l.thread → s.between t = some q → Q s'.shared q :=
    fun t q hne hq => h.stable s l o s' t q hP hstep hne hq (hQ t q hq)
  cases l with
  | first t a =>
    obtain ⟨_, x, p, hfirst, rfl⟩ := step_first hstep
    obtain ⟨hIx, hQx⟩ := h.first s t a o x p hP hI hfirst
    exact ⟨hIx, between_update hQx hothers⟩
  | second t =>
    obtain ⟨p, x, hp, hsecond, rfl⟩ := step_second hstep
    refine ⟨h.second s t p o x hP hI hp (hQ t p hp) hsecond, between_update ?_ hothers⟩
    intro q hq
    cases hq

/-- The rule. -/
theorem Outline.reachable (h : Outline C P I Q) {s s' : Threads τ σ π} (hs : Holds I Q s)
    (hreach : (system C).ReachableWhen P s s') :
    Holds I Q s' :=
  System.ReachableWhen.invariant (fun _ _ _ _ hs hP hstep => h.step hs hP hstep) hs hreach

end Rule

end Sections
end Civan
