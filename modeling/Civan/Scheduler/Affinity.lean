import Civan.Scheduler.Conservation

/-!
# The thread a fiber was scheduled for

The thread given to `schedule(fiber, thread)` is stored in the queue entry, and `run`
drops the entry when it takes it.  A fiber that yields as `READY` goes back with the
default `-1`, so from its second slice on any worker may take it.
-/

namespace Civan
namespace Scheduler

open Transition

section Statement

/-- The fiber that a worker has taken or is in a slice of. -/
def Worker.on (t : ThreadId) (w : Worker) : Option FiberRef :=
  match w.pc with
  | .dispatch => w.ft.fiber.map FiberRef.task
  | .slice site _ => some (site.fiber t)
  | _ => none

/-- The entry that the next step of thread `t` takes. -/
def State.takes (s : State) (t : ThreadId) : Option FiberAndThread :=
  if (s.worker t).pc = .scan then
    s.fibers.find? (FiberAndThread.eligible t (fun f => (s.fiber (.task f)).state))
  else
    none

/-- Neither the queue nor a worker has the fiber. -/
structure State.Unscheduled (s : State) (f : TaskId) : Prop where
  queue : ∀ e ∈ s.fibers, e.fiber ≠ some f
  worker : ∀ t, (s.worker t).on t ≠ some (.task f)

/-- Nobody schedules `f` for a thread other than `t`, and no worker other than `t` takes
an entry of `f` that is for any thread. -/
def TakenAtHome (f : TaskId) (t : ThreadId) (s : State) : Label → Prop
  | .schedule fb u => fb = .fiber (some f) → u = t ∨ u = -1
  | .advance u => ∀ e ∈ s.takes u, e.fiber = some f → e.thread = -1 → u = t
  | _ => True

instance (f : TaskId) (t : ThreadId) (s : State) (l : Label) :
    Decidable (TakenAtHome f t s l) :=
  match l with
  | .schedule _ _ => inferInstanceAs (Decidable (_ → _))
  | .advance _ => inferInstanceAs (Decidable (∀ e ∈ _, _ → _ → _))
  | .newFiber | .scheduleAll _ | .setAutoStops | .setStopping | .testStopping _ _
  | .endSlice _ _ => .isTrue trivial

end Statement

section Steps

variable {s s' : State} {l : Label} {o : Event} {t : ThreadId} {f : TaskId}

theorem takes_scan (hpc : (s.worker t).pc = .scan) :
    s.takes t = s.fibers.find? (FiberAndThread.eligible t (fun f => (s.fiber (.task f)).state)) :=
  if_pos hpc

theorem mem_takes {e : FiberAndThread} (he : e ∈ s.takes t) :
    (s.worker t).pc = .scan ∧ e ∈ s.fibers ∧
      e.eligible t (fun f => (s.fiber (.task f)).state) = true := by
  by_cases hpc : (s.worker t).pc = .scan
  · rw [takes_scan hpc] at he
    exact ⟨hpc, List.mem_of_find?_eq_some he, List.find?_some he⟩
  · simp [State.takes, hpc] at he

/-- The critical section of `run`, with the state after it. -/
theorem advance_takes {e : FiberAndThread} (hwf : WellFormed s) (he : e ∈ s.takes t) :
    ∃ o rest, advance s t = some (o,
      { s.acquire with fibers := rest }.setWorker t
        { s.worker t with pc := .dispatch, ft := e, isActive := true }) := by
  have hpc := (mem_takes he).1
  obtain ⟨tickleMe, hscan⟩ := takeEntry_eq t (fun f => (s.fiber (.task f)).state) hwf.queue
  rw [← takes_scan hpc, Option.mem_def.mp he] at hscan
  simp only [advance, hpc, hscan]
  exact ⟨_, _, rfl⟩

/-- A slice stays with its fiber until it is over. -/
theorem SliceStep.on {site : Site} {stage : Stage} (hpc : (s.worker t).pc = .slice site stage)
    (hslice : SliceStep s t site stage o s') :
    s'.taskCount = s.taskCount ∧ ∃ w, s'.worker = Function.update s.worker t w ∧
      (w.on t = (s.worker t).on t ∨ w.on t = none) := by
  obtain ⟨hcount, w, hworker, hw⟩ := hslice.moves
  refine ⟨hcount, w, hworker, ?_⟩
  rcases hw with rfl | ⟨stage', _, rfl⟩ | rfl
  · exact Or.inl rfl
  · exact Or.inl (by simp [Worker.on, hpc])
  · cases site <;> exact Or.inr rfl

/-- A worker comes to a fiber by taking its entry, or makes it for a callback. -/
theorem WorkerStep.on (hwf : WellFormed s) (hworker : WorkerStep s t o s') :
    s.taskCount ≤ s'.taskCount ∧ ∃ w, s'.worker = Function.update s.worker t w ∧
      ∀ f, w.on t = some (.task f) →
        (s.worker t).on t = some (.task f) ∨
        (∃ e ∈ s.takes t, e.fiber = some f) ∨ f = s.taskCount := by
  have hoff : ∀ {w : Worker}, w.on t = none → ∀ f, w.on t = some (.task f) →
      (s.worker t).on t = some (.task f) ∨
      (∃ e ∈ s.takes t, e.fiber = some f) ∨ f = s.taskCount := by
    intro w hnone f hf
    rw [hnone] at hf
    cases hf
  cases hworker with
  | failsEntryNonNull _ hscan => exact absurd hscan hwf.takeEntry_ne_none
  | findsNone hpc =>
    refine ⟨le_rfl, _, rfl, fun f hf => ?_⟩
    have hempty := (hwf.worker t).scan_empty hpc
    simp [Worker.on, hempty, FiberAndThread.empty] at hf
  | finds hpc hscan htaken =>
    refine ⟨le_rfl, _, rfl, fun f hf => Or.inr (Or.inl ⟨_, ?_, by simpa [Worker.on] using hf⟩)⟩
    rw [takes_scan hpc, ← (hwf.scan_eq hscan).1]
    exact htaken
  | dispatch hpc =>
    refine ⟨le_rfl, _, rfl, fun f hf => Or.inl ?_⟩
    rcases dispatch_cases s (s.worker t) with ⟨g, hg, _, hd⟩ | ⟨_, hd⟩ | hd | hd
    · simp only [Worker.on, hd, Site.fiber] at hf
      simp only [Worker.on, hpc, hg]
      exact hf
    all_goals simp [Worker.on, hd] at hf
  | spawn hpc =>
    rw [hwf.spawn_eq hpc]
    refine ⟨Nat.le_succ _, _, rfl, fun f hf => Or.inr (Or.inr ?_)⟩
    simpa [Worker.on, Site.fiber, eq_comm] using hf
  | drop | exit | idleTest => exact ⟨le_rfl, _, rfl, hoff rfl⟩
  | idleEnter =>
    refine ⟨le_rfl, _, rfl, fun f hf => ?_⟩
    simp [Worker.on, Site.fiber] at hf
  | slice hpc hslice =>
    obtain ⟨hcount, w, hworker, hon⟩ := hslice.on hpc
    refine ⟨hcount.ge, w, hworker, ?_⟩
    rcases hon with hon | hon
    · exact fun f hf => Or.inl (hon ▸ hf)
    · exact hoff hon

theorem step_on (hwf : WellFormed s) (hstep : step s l = some (o, s')) :
    s.taskCount ≤ s'.taskCount ∧ ∀ u f, (s'.worker u).on u = some (.task f) →
      (s.worker u).on u = some (.task f) ∨
      (l = .advance u ∧ ((∃ e ∈ s.takes u, e.fiber = some f) ∨ f = s.taskCount)) := by
  cases processStep_of_step hstep with
  | newFiber => exact ⟨Nat.le_succ _, fun u f hf => Or.inl hf⟩
  | schedule | scheduleAll | setAutoStops | setStopping => exact ⟨le_rfl, fun u f hf => Or.inl hf⟩
  | @leaves t | @loops t =>
    refine ⟨le_rfl, fun u f hf => Or.inl ?_⟩
    by_cases hu : u = t
    · simp [State.setWorker, hu, Worker.on] at hf
    · simpa [State.setWorker, hu] using hf
  | @advance t _ _ _ hworker =>
    obtain ⟨hcount, w, hupdate, hon⟩ := hworker.on hwf
    refine ⟨hcount, fun u f hf => ?_⟩
    rw [hupdate] at hf
    by_cases hu : u = t
    · subst hu
      rw [Function.update_self] at hf
      exact (hon f hf).imp_right (fun hcomes => ⟨rfl, hcomes⟩)
    · rw [Function.update_of_ne hu] at hf
      exact Or.inl hf
  | @endSlice t _ _ _ hpc =>
    refine ⟨le_rfl, fun u f hf => Or.inl ?_⟩
    by_cases hu : u = t
    · subst hu
      simpa [State.setWorker, Worker.on, hpc] using hf
    · simpa [State.setWorker, State.setFiber, hu] using hf

theorem mem_accepted {fb : FiberOrCb} {thread : ThreadId} {e : FiberAndThread}
    (he : e ∈ accepted fb thread) :
    e = FiberAndThread.of fb thread :=
  List.mem_singleton.mp (List.mem_of_mem_filter he)

/-- Who puts the entry `e` into the queue. -/
inductive Pushes (s : State) (e : FiberAndThread) : Label → Prop
  | schedule {fb : FiberOrCb} {thread : ThreadId} (he : e = FiberAndThread.of fb thread) :
      Pushes s e (.schedule fb thread)
  | scheduleAll {fbs : List FiberOrCb} {fb : FiberOrCb} (hfb : fb ∈ fbs)
      (he : e = FiberAndThread.of fb (-1)) :
      Pushes s e (.scheduleAll fbs)
  | requeue {u : ThreadId} {site : Site} {f : TaskId}
      (hpc : (s.worker u).pc = .slice site .requeue) (hsite : site.fiber u = .task f)
      (he : e = FiberAndThread.of (.fiber (some f)) (-1)) :
      Pushes s e (.advance u)

theorem FiberAndThread.thread_of (fb : FiberOrCb) (thread : ThreadId) :
    (FiberAndThread.of fb thread).thread = thread := by
  cases fb <;> rfl

/-- Except for `schedule(fb, thread)`, an entry is queued for any thread. -/
theorem Pushes.thread {e : FiberAndThread} (h : Pushes s e l) :
    e.thread = -1 ∨ ∃ fb, l = .schedule fb e.thread ∧ e = FiberAndThread.of fb e.thread := by
  cases h with
  | schedule he =>
    rw [he, FiberAndThread.thread_of]
    exact Or.inr ⟨_, rfl, rfl⟩
  | scheduleAll _ he | requeue _ _ he =>
    rw [he, FiberAndThread.thread_of]
    exact Or.inl rfl

theorem pushes_of_effect {es : List FiberAndThread} {e : FiberAndThread}
    (heffect : s.effect l = .push es) (he : e ∈ es) :
    Pushes s e l := by
  cases l with
  | schedule fb thread =>
    cases heffect
    exact .schedule (mem_accepted he)
  | scheduleAll fbs =>
    cases heffect
    obtain ⟨fb, hmem, hfb⟩ := List.mem_flatMap.mp he
    exact .scheduleAll hmem (mem_accepted hfb)
  | advance t =>
    obtain ⟨_, f, hpc, hsite, rfl⟩ := workerEffect_push heffect
    exact .requeue hpc hsite (mem_accepted he)
  | newFiber | setAutoStops | setStopping | testStopping | endSlice => cases heffect

theorem mem_fibers_of_step {e : FiberAndThread} (hwf : WellFormed s)
    (hok : ∀ u, (s.worker u).ActiveOk) (hstep : step s l = some (o, s')) (he : e ∈ s'.fibers) :
    e ∈ s.fibers ∨ Pushes s e l := by
  have hdoes := (performs_step hwf hok hstep).does
  cases heffect : s.effect l with
  | none | release =>
    rw [heffect] at hdoes
    exact Or.inl (hdoes.1 ▸ he)
  | push es =>
    rw [heffect] at hdoes
    rw [hdoes.1] at he
    exact (List.mem_append.mp he).imp_right (pushes_of_effect heffect)
  | take t i =>
    rw [heffect] at hdoes
    rw [hdoes.2.1] at he
    exact Or.inl (List.mem_of_mem_eraseIdx he)

end Steps

section Pinned

variable {s s' : State} {l : Label} {o : Event} {t u : ThreadId} {f : TaskId}

/-- Every entry of `f` is for `t` or for any thread, and only `t` is on `f`. -/
structure Pinned (f : TaskId) (t : ThreadId) (s : State) : Prop where
  wellFormed : WellFormed s
  activeOk : ∀ u, (s.worker u).ActiveOk
  known : f < s.taskCount
  queue : ∀ e ∈ s.fibers, e.fiber = some f → e.thread = t ∨ e.thread = -1
  worker : ∀ u, (s.worker u).on u = some (.task f) → u = t

/-- Only `t` takes an entry of `f`: one for `t` is for no other worker, and one for any
thread is not taken by others. -/
theorem Pinned.taken {e : FiberAndThread} (h : Pinned f t s)
    (hhome : TakenAtHome f t s (.advance u)) (he : e ∈ s.takes u) (hf : e.fiber = some f) :
    u = t := by
  obtain ⟨_, hmem, heligible⟩ := mem_takes he
  by_cases hany : e.thread = -1
  · exact hhome e he hf hany
  · have hu : e.thread = u :=
      (FiberAndThread.isFor_of_eligible heligible).resolve_left hany
    have ht : e.thread = t := (h.queue e hmem hf).resolve_right hany
    exact hu.symm.trans ht

theorem Pinned.step (h : Pinned f t s) (hhome : TakenAtHome f t s l)
    (hstep : step s l = some (o, s')) :
    Pinned f t s' := by
  obtain ⟨hcount, hon⟩ := step_on h.wellFormed hstep
  refine ⟨h.wellFormed.step hstep, (performs_step h.wellFormed h.activeOk hstep).activeOk,
    h.known.trans_le hcount, ?_, ?_⟩
  · intro e he hf
    rcases mem_fibers_of_step h.wellFormed h.activeOk hstep he with he | hpush
    · exact h.queue e he hf
    · rcases hpush.thread with hany | ⟨fb, rfl, heq⟩
      · exact Or.inr hany
      · refine hhome ?_
        rw [heq] at hf
        cases fb with
        | fiber g => exact congrArg FiberOrCb.fiber hf
        | cb c => cases hf
  · intro u hu
    rcases hon u f hu with hu | ⟨rfl, ⟨e, he, hf⟩ | hnew⟩
    · exact h.worker u hu
    · exact h.taken hhome he hf
    · exact absurd hnew h.known.ne

theorem Pinned.resumed (h : Pinned f t s) (hstep : Scheduler.step s l = some (o, s')) :
    ∀ u, o = .resumed u (.task f) → u = t := by
  rintro u rfl
  obtain ⟨_, site, hpc, hf⟩ := resumed_advance hstep
  exact h.worker u (by simp [Worker.on, hpc, hf])

/-- A worker that is about to call `swapIn` continues the fiber two steps later. -/
theorem run_swapIn {site : Site} (halive : s.aborted = none) (hu : u ∈ s.threadIds)
    (hpc : (s.worker u).pc = .slice site .assertNotExec)
    (hexec : (s.fiber (site.fiber u)).state ≠ .exec) :
    ∃ os s', system.run s (List.replicate 3 (.advance u)) = some (os, s') ∧
      .resumed u (site.fiber u) ∈ os := by
  let s₁ := s.setWorker u { s.worker u with pc := .slice site .setExec }
  let s₂ := (s₁.setState (site.fiber u) .exec).setWorker u
    { s₁.worker u with pc := .slice site .restore }
  have h₁ : step s (.advance u) = some (.internal, s₁) := by
    rw [step_advance halive hu]
    simp only [advance, hpc, advanceSlice, if_neg hexec, s₁]
  have h₂ : step s₁ (.advance u) = some (.internal, s₂) := by
    rw [step_advance (s := s₁) halive hu]
    simp [advance, advanceSlice, s₁, s₂, State.setWorker]
  have h₃ : ∃ s', step s₂ (.advance u) = some (.resumed u (site.fiber u), s') := by
    have hpc₂ : (s₂.worker u).pc = .slice site .restore := by simp [s₂, State.setWorker]
    rw [step_advance (s := s₂) halive hu]
    simp only [advance, hpc₂, advanceSlice]
    split_ifs <;> exact ⟨_, rfl⟩
  obtain ⟨s', h₃⟩ := h₃
  refine ⟨[.internal, .internal, .resumed u (site.fiber u)], s', ?_, by simp⟩
  exact system.run_cons_eq_some.mpr ⟨_, _, _, h₁, system.run_cons_eq_some.mpr ⟨_, _, _, h₂,
    system.run_cons_eq_some.mpr ⟨_, _, _, h₃, system.run_nil s', rfl⟩, rfl⟩, rfl⟩

theorem run_takes {e : FiberAndThread} (hwf : WellFormed s) (halive : s.aborted = none)
    (hu : u ∈ s.threadIds) (he : e ∈ s.takes u) (hf : e.fiber = some f)
    (hdone : (s.fiber (.task f)).isDone = false) :
    ∃ os s', system.run s (List.replicate 5 (.advance u)) = some (os, s') ∧
      .resumed u (.task f) ∈ os := by
  obtain ⟨o, rest, hscan⟩ := advance_takes hwf he
  have hexec : (s.fiber (.task f)).state ≠ .exec := by
    have heligible := (mem_takes he).2.2
    simp only [FiberAndThread.eligible, hf, Option.any_some, Bool.and_eq_true,
      Bool.not_eq_true', beq_eq_false_iff_ne] at heligible
    exact heligible.2
  let s₁ := { s.acquire with fibers := rest }.setWorker u
    { s.worker u with pc := .dispatch, ft := e, isActive := true }
  let s₂ := s₁.setWorker u { s₁.worker u with pc := .slice (.entry f) .assertNotExec }
  have h₁ : step s (.advance u) = some (o, s₁) := by rw [step_advance halive hu, hscan]
  have h₂ : step s₁ (.advance u) = some (.internal, s₂) := by
    have hft : (s₁.worker u).ft.fiber = some f := by simp [s₁, State.setWorker, hf]
    have hdone₁ : (s₁.fiber (.task f)).isDone = false := hdone
    have hdispatch : dispatch s₁ (s₁.worker u) = .slice (.entry f) .assertNotExec := by
      simp [dispatch, hft, hdone₁]
    have hpc₁ : (s₁.worker u).pc = .dispatch := by simp [s₁, State.setWorker]
    rw [step_advance (s := s₁) halive hu]
    simp only [advance, hpc₁, hdispatch, s₂]
  have hpc₂ : (s₂.worker u).pc = .slice (.entry f) .assertNotExec := by simp [s₂, State.setWorker]
  obtain ⟨os, s', hrun, hmem⟩ := run_swapIn (s := s₂) halive hu hpc₂ hexec
  refine ⟨o :: .internal :: os, s', ?_, List.mem_cons_of_mem _ (List.mem_cons_of_mem _ hmem)⟩
  exact system.run_cons_eq_some.mpr ⟨_, _, _, h₁,
    system.run_cons_eq_some.mpr ⟨_, _, _, h₂, hrun, rfl⟩, rfl⟩

/-- A fiber that is scheduled for `t` is at first nowhere but in that entry. -/
theorem State.Unscheduled.pinned (h : s.Unscheduled f) (hwf : WellFormed s)
    (hok : ∀ u, (s.worker u).ActiveOk) (hknown : f < s.taskCount) (t : ThreadId) :
    Pinned f t s :=
  ⟨hwf, hok, hknown, fun e he hf => absurd hf (h.queue e he), fun u hu => absurd hu (h.worker u)⟩

theorem reachable_activeOk {threadIds : List ThreadId}
    (hreach : system.Reachable (State.started threadIds) s) :
    WellFormed s ∧ ∀ u, (s.worker u).ActiveOk := by
  refine hreach.invariant (I := fun s => WellFormed s ∧ ∀ u, (s.worker u).ActiveOk) ?_
    ⟨started_wellFormed threadIds, fun _ => Worker.activeOk_start⟩
  rintro s l o s' ⟨hwf, hok⟩ hstep
  exact ⟨hwf.step hstep, (performs_step hwf hok hstep).activeOk⟩

/--
**Thread affinity.**  A fiber is scheduled with `schedule(f, t)`, then any workers and
callers do what they like.  Every slice of `f` is executed by `t` if nobody schedules `f`
for another thread and no other worker takes the entry, for any thread, with which `f`
comes back after a yield.  The last condition cannot be left out: the worker that takes
such an entry executes the slice.
-/
theorem pinned_slices (threadIds : List ThreadId) (s₀ : State)
    (hreach : system.Reachable (State.started threadIds) s₀) (f : TaskId) (t : ThreadId)
    (hnew : s₀.Unscheduled f) (ls : List Label) (os : List Event) (s : State)
    (hrun : system.run s₀ (.schedule (.fiber (some f)) t :: ls) = some (os, s))
    (hhome : system.Along (TakenAtHome f t) s₀ (.schedule (.fiber (some f)) t :: ls)) :
    (∀ u, .resumed u (.task f) ∈ os → u = t) ∧
    (∀ u ∈ s.threadIds, ∀ e ∈ s.takes u, e.fiber = some f →
      (s.fiber (.task f)).isDone = false → s.aborted = none →
      ∃ os' s', system.run s (List.replicate 5 (.advance u)) = some (os', s') ∧
        .resumed u (.task f) ∈ os') := by
  obtain ⟨hwf, hok⟩ := reachable_activeOk hreach
  have hknown : f < s₀.taskCount := by
    obtain ⟨o, s', os', hstep, _⟩ := system.run_cons_eq_some.mp hrun
    change step s₀ (.schedule (.fiber (some f)) t) = some (o, s') at hstep
    cases processStep_of_step hstep with
    | schedule hf => simpa [FiberOrCb.known] using hf
  have hpinned := hnew.pinned hwf hok hknown t
  constructor
  · intro u hu
    refine system.run_outputs (I := Pinned f t)
      (Q := fun o => ∀ u, o = .resumed u (.task f) → u = t) ?_ hpinned hhome hrun
      _ hu u rfl
    intro s l o s' h hl hstep
    exact ⟨h.step hl hstep, h.resumed hstep⟩
  · intro u hu e he hf hdone halive
    have hend : Pinned f t s :=
      system.run_invariant (fun _ _ _ _ h hl hstep => h.step hl hstep) hpinned hhome hrun
    exact run_takes hend.wellFormed halive hu he hf hdone

end Pinned

section Runs

/-- One worker takes the next entry, runs the fiber until it ends its slice, and loops. -/
def runSlice (t : ThreadId) (how : SliceEnd) : List Label :=
  .testStopping t true :: List.replicate 5 (.advance t) ++
    .endSlice t how :: List.replicate 5 (.advance t)

/-- The fiber yields once and returns; thread 2 finds nothing in between. -/
theorem pinned_slices_two_at_home :
    ∃ os s, system.run (State.started [1, 2]).newFiber
        (.schedule (.fiber (some 0)) 1 :: runSlice 1 .yieldToReady ++ runSlice 1 .returned) =
          some (os, s) ∧
      (s.fiber (.task 0)).state = .term ∧
      ∀ u, .resumed u (.task 0) ∈ os → u = 1 := by
  obtain ⟨halong, os, s, hrun, hterm⟩ :=
    System.exists_run (M := system) (P := TakenAtHome 0 1) (State.started [1, 2]).newFiber
      (.schedule (.fiber (some 0)) 1 :: runSlice 1 .yieldToReady ++ runSlice 1 .returned)
      (fun s => (s.fiber (.task 0)).state = .term)
      (by decide +kernel)
  refine ⟨os, s, hrun, hterm, ?_⟩
  refine (pinned_slices [1, 2] (State.started [1, 2]).newFiber ⟨[.newFiber], [.internal], rfl⟩
    0 1 ⟨?_, ?_⟩ _ os s hrun halong).1
  · simp [State.started, State.newFiber, State.setFiber]
  · simp [State.started, State.newFiber, State.setFiber, Worker.start, Worker.on]

/-- The fiber is scheduled for thread 1 and yields, and thread 2 executes its second
slice. -/
theorem pinned_fiber_moves :
    (system.run (State.started [1, 2]).newFiber
      (.schedule (.fiber (some 0)) 1 :: runSlice 1 .yieldToReady ++
        runSlice 2 .returned)).map
        (fun r => r.1.filter (fun o => o = .resumed 1 (.task 0) ∨ o = .resumed 2 (.task 0))) =
      some [.resumed 1 (.task 0), .resumed 2 (.task 0)] := by
  decide +kernel

end Runs

end Scheduler
end Civan
