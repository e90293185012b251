import Mathlib.Logic.Basic

/-!
# Transition systems with outputs

A system takes one labelled step at a time and may refuse a step.  A label
carries everything the environment decides (arguments, the outcome of a system
call, which thread moves), so a step is a partial function and a run is driven
by a list of labels.

The three rules used by every component are

* `run_invariant`: what one step preserves, a whole run preserves;
* `run_simulation`: a step-by-step simulation lifts to runs with equal outputs;
* `Along`: a condition on the state before each step, so that a result can be
  stated for exactly the runs whose steps all meet it.
-/

namespace Civan
namespace Transition

universe u v w

/-- A partial, output-producing, labelled transition system. -/
structure System (σ : Type u) (ι : Type v) (ο : Type w) where
  step : σ → ι → Option (ο × σ)

namespace System

section Runs

variable {σ : Type u} {ι : Type v} {ο : Type w} (M : System σ ι ο)

/-- Outputs and final state of a run; `none` when some step is refused. -/
def run : σ → List ι → Option (List ο × σ)
  | s, [] => some ([], s)
  | s, i :: is =>
    match M.step s i with
    | none => none
    | some (o, s') =>
      match run s' is with
      | none => none
      | some (os, t) => some (o :: os, t)

/-- Every step the run takes meets `P` in the state before it. -/
def Along (P : σ → ι → Prop) : σ → List ι → Prop
  | _, [] => True
  | s, i :: is => P s i ∧ ∀ o s', M.step s i = some (o, s') → Along P s' is

/-- States reached from `s` by some run whose steps all meet `P`. -/
def ReachableWhen (P : σ → ι → Prop)
    (s t : σ) : Prop :=
  ∃ is os, M.Along P s is ∧ M.run s is = some (os, t)

/-- States reached from `s` by some run. -/
def Reachable
    (s t : σ) : Prop :=
  ∃ is os, M.run s is = some (os, t)

@[simp] theorem run_nil (s : σ) : M.run s [] = some ([], s) := by
  rfl

/-- A completed run splits into its first step and the rest. -/
theorem run_cons_eq_some {s t : σ} {i : ι} {is : List ι} {os : List ο} :
    M.run s (i :: is) = some (os, t) ↔
    ∃ o s' os',
      M.step s i = some (o, s') ∧
      M.run s' is = some (os', t) ∧
      os = o :: os' := by
  rw [run]
  cases hstep : M.step s i with
  | none => simp
  | some p =>
    obtain ⟨o, s'⟩ := p
    cases hrun : M.run s' is with
    | none => simp [hrun]
    | some q =>
      obtain ⟨os', t'⟩ := q
      simp only [hrun]
      constructor
      · intro h
        simp only [Option.some.injEq, Prod.mk.injEq] at h
        obtain ⟨rfl, rfl⟩ := h
        exact ⟨o, s', os', rfl, hrun, rfl⟩
      · rintro ⟨o₁, s₁, os₁, h₁, h₂, rfl⟩
        simp only [Option.some.injEq, Prod.mk.injEq] at h₁
        obtain ⟨rfl, rfl⟩ := h₁
        rw [hrun] at h₂
        simp only [Option.some.injEq, Prod.mk.injEq] at h₂
        obtain ⟨rfl, rfl⟩ := h₂
        rfl

/-- What each admitted step preserves, every admitted run preserves. -/
theorem run_invariant {I : σ → Prop} {P : σ → ι → Prop}
    (hstep : ∀ s i o s', I s → P s i → M.step s i = some (o, s') → I s')
    {is : List ι} {s t : σ} {os : List ο} (hs : I s) (halong : M.Along P s is)
    (hrun : M.run s is = some (os, t)) :
    I t := by
  induction is generalizing s os with
  | nil =>
    simp only [run_nil, Option.some.injEq, Prod.mk.injEq] at hrun
    rw [← hrun.2]
    exact hs
  | cons i is ih =>
    obtain ⟨o, s', os', h₁, h₂, _⟩ := M.run_cons_eq_some.mp hrun
    exact ih (hstep s i o s' hs halong.1 h₁) (halong.2 o s' h₁) h₂

/-- What each admitted step shows, every output of an admitted run shows. -/
theorem run_outputs {I : σ → Prop} {P : σ → ι → Prop} {Q : ο → Prop}
    (hstep : ∀ s i o s', I s → P s i → M.step s i = some (o, s') → I s' ∧ Q o)
    {is : List ι} {s t : σ} {os : List ο} (hs : I s) (halong : M.Along P s is)
    (hrun : M.run s is = some (os, t)) :
    ∀ o ∈ os, Q o := by
  induction is generalizing s os with
  | nil =>
    simp only [run_nil, Option.some.injEq, Prod.mk.injEq] at hrun
    simp [← hrun.1]
  | cons i is ih =>
    obtain ⟨o, s', os', h₁, h₂, rfl⟩ := M.run_cons_eq_some.mp hrun
    obtain ⟨hs', ho⟩ := hstep s i o s' hs halong.1 h₁
    intro o' ho'
    rcases List.mem_cons.mp ho' with rfl | ho'
    · exact ho
    · exact ih hs' (halong.2 o s' h₁) h₂ o' ho'

/-- The invariant rule for states reached under a step condition. -/
theorem ReachableWhen.invariant {M : System σ ι ο} {I : σ → Prop} {P : σ → ι → Prop}
    (hstep : ∀ s i o s', I s → P s i → M.step s i = some (o, s') → I s') {s t : σ} (hs : I s)
    (ht : M.ReachableWhen P s t) :
    I t := by
  obtain ⟨is, os, halong, hrun⟩ := ht
  exact M.run_invariant hstep hs halong hrun

/-- A condition that implies another one in the states of an invariant. -/
theorem ReachableWhen.mono {M : System σ ι ο} {I : σ → Prop} {P Q : σ → ι → Prop}
    (hstep : ∀ s i o s', I s → P s i → M.step s i = some (o, s') → I s')
    (hQ : ∀ s i, I s → P s i → Q s i) {s t : σ} (hs : I s) (ht : M.ReachableWhen P s t) :
    M.ReachableWhen Q s t := by
  obtain ⟨is, os, halong, hrun⟩ := ht
  refine ⟨is, os, ?_, hrun⟩
  clear hrun
  induction is generalizing s with
  | nil => trivial
  | cons i is ih =>
    refine ⟨hQ s i hs halong.1, fun o s' h => ?_⟩
    exact ih (hstep s i o s' hs halong.1 h) (halong.2 o s' h)

/-- Let `J` relate the outputs so far to the state.  If a property `K` of the outputs
survives exactly the steps that meet `P`, a run has it exactly when all its steps do. -/
theorem run_outputs_iff_along {J : List ο → σ → Prop} {K : List ο → Prop} {P Q : σ → ι → Prop}
    (hJ : ∀ os s i o s', J os s → Q s i → M.step s i = some (o, s') → J (os ++ [o]) s')
    (hK : ∀ os s i o s', J os s → Q s i → M.step s i = some (o, s') →
      (K (os ++ [o]) ↔ K os ∧ P s i))
    {is : List ι} {s t : σ} {os₀ os : List ο}
    (hs : J os₀ s)
    (halong : M.Along Q s is)
    (hrun : M.run s is = some (os, t)) :
    K (os₀ ++ os) ↔ K os₀ ∧ M.Along P s is := by
  induction is generalizing s os₀ os with
  | nil =>
    simp only [run_nil, Option.some.injEq, Prod.mk.injEq] at hrun
    rw [← hrun.1, List.append_nil]
    exact (and_iff_left trivial).symm
  | cons i is ih =>
    obtain ⟨o, s', os', hstep, hrest, rfl⟩ := M.run_cons_eq_some.mp hrun
    have hnext := ih (hJ os₀ s i o s' hs halong.1 hstep) (halong.2 o s' hstep) hrest
    rw [List.append_assoc, List.singleton_append, hK os₀ s i o s' hs halong.1 hstep] at hnext
    rw [hnext, and_assoc]
    refine and_congr_right fun _ => and_congr_right fun _ => ?_
    constructor
    · intro h o₁ s₁ h₁
      rw [hstep, Option.some.injEq, Prod.mk.injEq] at h₁
      rw [← h₁.2]
      exact h
    · intro h
      exact h o s' hstep

theorem Along.cons {M : System σ ι ο} {P : σ → ι → Prop} {s s' : σ} {i : ι} {is : List ι} {o : ο}
    (hP : P s i) (hstep : M.step s i = some (o, s')) (h : M.Along P s' is) :
    M.Along P s (i :: is) := by
  refine ⟨hP, ?_⟩
  intro o₁ s₁ h₁
  rw [hstep, Option.some.injEq, Prod.mk.injEq] at h₁
  rw [← h₁.2]
  exact h

theorem Along.of_forall {M : System σ ι ο} {P : σ → ι → Prop} (hP : ∀ s i, P s i)
    (s : σ) (is : List ι) :
    M.Along P s is := by
  induction is generalizing s with
  | nil => trivial
  | cons i is ih => exact ⟨hP s i, fun _ s' _ => ih s'⟩

/-- If a step is possible exactly under `P`, a run is possible exactly when all
its steps meet `P`. -/
theorem run_isSome_iff_along {I : σ → Prop} {P : σ → ι → Prop}
    (hinv : ∀ s i o s', I s → M.step s i = some (o, s') → I s')
    (hiff : ∀ s i, I s → ((M.step s i).isSome ↔ P s i)) {s : σ} (hs : I s) (is : List ι) :
    (M.run s is).isSome ↔ M.Along P s is := by
  induction is generalizing s with
  | nil => simp [Along]
  | cons i is ih =>
    cases hstep : M.step s i with
    | none =>
      have hP : ¬ P s i := by
        rw [← hiff s i hs, hstep]
        simp
      simp [run, Along, hstep, hP]
    | some p =>
      obtain ⟨o, s'⟩ := p
      have hP : P s i := by
        rw [← hiff s i hs, hstep]
        rfl
      have hrest := ih (hinv s i o s' hs hstep)
      constructor
      · intro hrun
        refine Along.cons hP hstep (hrest.mp ?_)
        cases hrun' : M.run s' is with
        | none => simp [run, hstep, hrun'] at hrun
        | some q => rfl
      · intro halong
        obtain ⟨q, hq⟩ :=
          Option.isSome_iff_exists.mp (hrest.mpr (halong.2 o s' hstep))
        simp [run, hstep, hq]

/-- The invariant rule for all reachable states. -/
theorem Reachable.invariant {M : System σ ι ο} {I : σ → Prop}
    (hstep : ∀ s i o s', I s → M.step s i = some (o, s') → I s') {s t : σ} (hs : I s)
    (ht : M.Reachable s t) :
    I t := by
  obtain ⟨is, os, hrun⟩ := ht
  have halong : M.Along (fun _ _ => True) s is :=
    Along.of_forall (fun _ _ => trivial) s is
  exact M.run_invariant (fun s i o s' h _ => hstep s i o s' h) hs halong hrun

theorem ReachableWhen.reachable {M : System σ ι ο} {P : σ → ι → Prop} {s t : σ}
    (h : M.ReachableWhen P s t) :
    M.Reachable s t := by
  obtain ⟨is, os, _, hrun⟩ := h
  exact ⟨is, os, hrun⟩

theorem Reachable.trans {M : System σ ι ο} {s t u : σ} (hst : M.Reachable s t)
    (htu : M.Reachable t u) :
    M.Reachable s u := by
  obtain ⟨is, os, hrun⟩ := hst
  induction is generalizing s os with
  | nil =>
    simp only [run_nil, Option.some.injEq, Prod.mk.injEq] at hrun
    rw [hrun.2]
    exact htu
  | cons i is ih =>
    obtain ⟨o, s', os', hstep, hrest, _⟩ := M.run_cons_eq_some.mp hrun
    obtain ⟨is', os'', hrun'⟩ := ih os' hrest
    exact ⟨i :: is', o :: os'', M.run_cons_eq_some.mpr ⟨o, s', os'', hstep, hrun', rfl⟩⟩

end Runs

section Checked

variable {σ : Type u} {ι : Type v} {ο : Type w} (M : System σ ι ο)
variable (P : σ → ι → Prop) [∀ s i, Decidable (P s i)]

/-- The final state of a run, if each step is possible and meets `P`. -/
def checkedRun : σ → List ι → Option σ
  | s, [] => some s
  | s, i :: is =>
    if P s i then
      match M.step s i with
      | none => none
      | some (_, s') => checkedRun s' is
    else
      none

variable {M P}

theorem along_of_checkedRun {is : List ι} {s t : σ} (h : M.checkedRun P s is = some t) :
    M.Along P s is ∧ ∃ os, M.run s is = some (os, t) := by
  induction is generalizing s with
  | nil =>
    simp only [checkedRun, Option.some.injEq] at h
    subst h
    exact ⟨trivial, [], rfl⟩
  | cons i is ih =>
    have hP : P s i := by
      refine Decidable.byContradiction ?_
      intro hP
      simp [checkedRun, hP] at h
    cases hstep : M.step s i with
    | none => simp [checkedRun, hstep] at h
    | some p =>
      obtain ⟨o, s'⟩ := p
      simp only [checkedRun, if_pos hP, hstep] at h
      obtain ⟨halong, os, hrun⟩ := ih h
      refine ⟨Along.cons hP hstep halong, o :: os, ?_⟩
      exact M.run_cons_eq_some.mpr ⟨o, s', os, hstep, hrun, rfl⟩

/-- A property found at the end of a checked run holds at the end of the run. -/
theorem exists_run (s : σ) (is : List ι) (p : σ → Prop) [DecidablePred p]
    (h : (M.checkedRun P s is).any (fun t => decide (p t)) = true) :
    M.Along P s is ∧ ∃ os t, M.run s is = some (os, t) ∧ p t := by
  cases hrun : M.checkedRun P s is with
  | none => simp [hrun] at h
  | some t =>
    simp only [hrun, Option.any_some, decide_eq_true_eq] at h
    obtain ⟨halong, os, hos⟩ := along_of_checkedRun hrun
    exact ⟨halong, os, t, hos, h⟩

/-- A property found at the end of a checked run holds in a reachable state. -/
theorem exists_reachableWhen (s : σ) (is : List ι) (p : σ → Prop) [DecidablePred p]
    (h : (M.checkedRun P s is).any (fun t => decide (p t)) = true) :
    ∃ t, M.ReachableWhen P s t ∧ p t := by
  obtain ⟨halong, os, t, hrun, hp⟩ := exists_run s is p h
  exact ⟨t, ⟨is, os, halong, hrun⟩, hp⟩

/-- The same for two states, the second one reached from the first. -/
theorem exists_reachableWhen_twice
    (s : σ) (is js : List ι) (p : σ → σ → Prop) [∀ t u, Decidable (p t u)]
    (h : (M.checkedRun P s is).any
      (fun t => (M.checkedRun P t js).any fun u => decide (p t u)) = true) :
    ∃ t u, M.ReachableWhen P s t ∧ M.ReachableWhen P t u ∧ p t u := by
  obtain ⟨t, ht, hany⟩ := exists_reachableWhen s is
    (fun t => (M.checkedRun P t js).any (fun u => decide (p t u)) = true) (by simpa using h)
  obtain ⟨u, hu, hp⟩ := exists_reachableWhen t js (p t) hany
  exact ⟨t, u, ht, hu, hp⟩

end Checked

section Simulation

variable {σ τ : Type u} {ι : Type v} {ο : Type w}

/--
Forward simulation.  If every admitted step of `M` is matched by a step of `N`
with the same label and output, every admitted run of `M` is a run of `N` with
the same outputs.
-/
theorem run_simulation {M : System σ ι ο} {N : System τ ι ο} {R : σ → τ → Prop} {P : σ → ι → Prop}
    (hstep : ∀ s t i o s', R s t → P s i → M.step s i = some (o, s') →
      ∃ t', N.step t i = some (o, t') ∧ R s' t')
    {is : List ι} {s s' : σ} {t : τ} {os : List ο}
    (hR : R s t)
    (halong : M.Along P s is)
    (hrun : M.run s is = some (os, s')) :
    ∃ t', N.run t is = some (os, t') ∧ R s' t' := by
  induction is generalizing s t os with
  | nil =>
    simp only [run_nil, Option.some.injEq, Prod.mk.injEq] at hrun
    obtain ⟨rfl, rfl⟩ := hrun
    exact ⟨t, rfl, hR⟩
  | cons i is ih =>
    obtain ⟨o, s₁, os₁, h₁, h₂, rfl⟩ := M.run_cons_eq_some.mp hrun
    obtain ⟨t₁, hN, hR₁⟩ := hstep s t i o s₁ hR halong.1 h₁
    obtain ⟨t', hrunN, hR'⟩ := ih hR₁ (halong.2 o s₁ h₁) h₂
    exact ⟨t', N.run_cons_eq_some.mpr ⟨o, t₁, os₁, hN, hrunN, rfl⟩, hR'⟩

end Simulation

end System

end Transition
end Civan
