import Civan.Scheduler.Conservation

/-!
# What `stopping()` says about the work that is left

`Scheduler::stopping` looks at the queue and at `m_activeThreadCount` under the mutex.
A worker that comes back from a fiber lowers the counter before it tests for `READY`
and puts the fiber back, and it holds no lock in between.  In that window the fiber is
neither in the queue nor counted.
-/

namespace Civan
namespace Scheduler

open Transition

section Statement

/-- The fiber `f` has left its code as `READY` on thread `t`, which has not yet put it
back into the queue. -/
def State.WillRequeue (s : State) (t : ThreadId) (f : TaskId) : Prop :=
  (s.fiber (.task f)).state = .ready ∧
    ∃ site stage, (s.worker t).pc = .slice site stage ∧ site.fiber t = .task f ∧
      stage ∈ [Stage.save, .switch, .release, .testReady, .requeue]

/-- The part of it after `--m_activeThreadCount`. -/
def State.InWindow (s : State) (t : ThreadId) (f : TaskId) : Prop :=
  (s.fiber (.task f)).state = .ready ∧
    ∃ site, site.fiber t = .task f ∧
      ((s.worker t).pc = .slice site .testReady ∨ (s.worker t).pc = .slice site .requeue)

/-- There is no runnable work: nothing is queued, no worker holds an entry that it took,
and no worker is going to put a fiber back. -/
structure Quiescent (s : State) : Prop where
  queue : s.fibers = []
  running : ∀ t ∈ s.threadIds, (s.worker t).holding = false
  requeues : ∀ t ∈ s.threadIds, ∀ f, ¬ s.WillRequeue t f

end Statement

section Window

variable {s : State} {t : ThreadId} {f : TaskId}

theorem State.InWindow.willRequeue (h : s.InWindow t f) : s.WillRequeue t f := by
  obtain ⟨hready, site, hsite, hpc | hpc⟩ := h
  · exact ⟨hready, site, .testReady, hpc, hsite, by simp⟩
  · exact ⟨hready, site, .requeue, hpc, hsite, by simp⟩

/-- A fiber that is going back into the queue is counted, or in the window. -/
theorem State.WillRequeue.holding_or_inWindow (h : s.WillRequeue t f) :
    (s.worker t).holding = true ∨ s.InWindow t f := by
  obtain ⟨hready, site, stage, hpc, hsite, hstage⟩ := h
  have hidle : site ≠ .idle := by
    rintro rfl
    cases hsite
  have hholding := Worker.holding_slice hpc
  simp only [List.mem_cons, List.not_mem_nil, or_false] at hstage
  rcases hstage with rfl | rfl | rfl | rfl | rfl
  · exact Or.inl (by simp [hholding, hidle, Stage.inside])
  · exact Or.inl (by simp [hholding, hidle, Stage.inside])
  · exact Or.inl (by simp [hholding, hidle])
  · exact Or.inr ⟨hready, site, hsite, Or.inl hpc⟩
  · exact Or.inr ⟨hready, site, hsite, Or.inr hpc⟩

/-- The last step of the window puts the fiber back for any thread. -/
theorem step_requeue {site : Site} (halive : s.aborted = none) (ht : t ∈ s.threadIds)
    (hsite : site.fiber t = .task f) (hpc : (s.worker t).pc = .slice site .requeue) :
    ∃ o s', step s (.advance t) = some (o, s') ∧
      s'.fibers = s.fibers ++ accepted (.fiber (some f)) (-1) := by
  rw [step_advance halive ht]
  cases site with
  | entry g | callback g =>
    cases hsite
    simp only [advance, hpc, advanceSlice]
    exact ⟨_, _, rfl, scheduleNoLock_eq s.fibers (.fiber (some f)) (-1)⟩
  | idle => cases hsite

/-- Left alone, the worker is through the window in at most two steps of its own, and
the fiber is in the queue. -/
theorem State.InWindow.requeued (h : s.InWindow t f) (halive : s.aborted = none)
    (ht : t ∈ s.threadIds) :
    ∃ n os s', n ≤ 2 ∧ system.run s (List.replicate n (.advance t)) = some (os, s') ∧
      s'.fibers = s.fibers ++ accepted (.fiber (some f)) (-1) := by
  obtain ⟨hready, site, hsite, hpc | hpc⟩ := h
  · let s₁ := s.setWorker t { s.worker t with pc := .slice site .requeue }
    have htest : step s (.advance t) = some (.internal, s₁) := by
      simp [step_advance halive ht, advance, hpc, advanceSlice, hsite, hready, s₁]
    have hpc₁ : (s₁.worker t).pc = .slice site .requeue := by simp [s₁, State.setWorker]
    obtain ⟨o, s', hstep, hfibers⟩ := step_requeue (s := s₁) halive ht hsite hpc₁
    refine ⟨2, [.internal, o], s', le_rfl, ?_, hfibers⟩
    exact system.run_cons_eq_some.mpr ⟨_, _, _, htest,
      system.run_cons_eq_some.mpr ⟨_, _, _, hstep, system.run_nil s', rfl⟩, rfl⟩
  · obtain ⟨o, s', hstep, hfibers⟩ := step_requeue halive ht hsite hpc
    refine ⟨1, [o], s', Nat.le_succ 1, ?_, hfibers⟩
    exact system.run_cons_eq_some.mpr ⟨_, _, _, hstep, system.run_nil s', rfl⟩

end Window

section Stopping

variable {threadIds : List ThreadId} {s : State}

/-- `m_activeThreadCount` is the number of workers that hold an entry. -/
theorem reachable_active (hint : ∀ t ∈ threadIds, -2 ^ 31 ≤ t ∧ t < 2 ^ 31)
    (hreach : system.Reachable (State.started threadIds) s) :
    s.activeThreadCount = s.holders.card := by
  have hinv : ∃ h, Conserving s h := by
    refine hreach.invariant (I := fun s => ∃ h, Conserving s h) ?_
      ⟨_, started_conserving (card_threadIds_lt hint)⟩
    rintro s₁ l o s₂ ⟨h, hc⟩ hstep
    exact ⟨_, hc.step hstep⟩
  obtain ⟨h, hc⟩ := hinv
  exact hc.active

theorem holding_of_stopping (hint : ∀ t ∈ threadIds, -2 ^ 31 ≤ t ∧ t < 2 ^ 31)
    (hreach : system.Reachable (State.started threadIds) s) (hstop : s.stopping = true) :
    ∀ t ∈ s.threadIds, (s.worker t).holding = false := by
  have hcard := reachable_active hint hreach
  rw [(stopping_eq_true hstop).2] at hcard
  have hempty := Finset.card_eq_zero.mp hcard.symm
  intro t ht
  have hnot := Finset.filter_eq_empty_iff.mp hempty (List.mem_toFinset.mpr ht)
  simpa using hnot

/-- When `stopping()` is true there is no work left, unless a worker is in the window. -/
theorem quiescent_of_stopping (hint : ∀ t ∈ threadIds, -2 ^ 31 ≤ t ∧ t < 2 ^ 31)
    (hreach : system.Reachable (State.started threadIds) s) (hstop : s.stopping = true)
    (hclear : ∀ t ∈ s.threadIds, ∀ f, ¬ s.InWindow t f) :
    Quiescent s := by
  have hnone := holding_of_stopping hint hreach hstop
  refine ⟨(stopping_eq_true hstop).1, hnone, ?_⟩
  intro t ht f hwill
  rcases hwill.holding_or_inWindow with hholding | hwindow
  · rw [hnone t ht] at hholding
    cases hholding
  · exact hclear t ht f hwindow

/--
**What `stopping()` means.**  For any number of workers and every interleaving: when
`stopping()` is true, the queue is empty and no worker holds an entry.  That no worker is
going to put back a `READY` fiber holds exactly when none is between lowering
`m_activeThreadCount` and the `schedule` that follows.  If one is, its next one or two
steps make `stopping()` false again.
-/
theorem stopping_quiescent_iff (threadIds : List ThreadId)
    (hint : ∀ t ∈ threadIds, -2 ^ 31 ≤ t ∧ t < 2 ^ 31) (s : State)
    (hreach : system.Reachable (State.started threadIds) s) (hstop : s.stopping = true) :
    s.fibers = [] ∧ (∀ t ∈ s.threadIds, (s.worker t).holding = false) ∧
    (Quiescent s ↔ ∀ t ∈ s.threadIds, ∀ f, ¬ s.InWindow t f) ∧
    (∀ t ∈ s.threadIds, ∀ f, s.InWindow t f → s.aborted = none →
      ∃ n os s', n ≤ 2 ∧ system.run s (List.replicate n (.advance t)) = some (os, s') ∧
        s'.stopping = false) := by
  refine ⟨(stopping_eq_true hstop).1, holding_of_stopping hint hreach hstop,
    ⟨?_, quiescent_of_stopping hint hreach hstop⟩, ?_⟩
  · intro hquiet t ht f hwindow
    exact hquiet.requeues t ht f hwindow.willRequeue
  · intro t ht f hwindow halive
    obtain ⟨n, os, s', hn, hrun, hfibers⟩ := hwindow.requeued halive ht
    refine ⟨n, os, s', hn, hrun, ?_⟩
    simp [State.stopping, hfibers, accepted, FiberAndThread.of, FiberAndThread.nonNull]

/-- Thread 1 runs a fiber, and `stop()` is called meanwhile. -/
def stopDuringSlice : List Label :=
  [.newFiber, .schedule (.fiber (some 0)) (-1), .testStopping 1 true] ++
  List.replicate 5 (.advance 1) ++ [.setAutoStops, .setStopping]

/-- The fiber returns, and there is nothing left to do. -/
theorem stopping_quiescent_after_return :
    ∃ s, system.Reachable (State.started [1, 2]) s ∧ s.stopping = true ∧
      (s.fiber (.task 0)).state = .term ∧ Quiescent s := by
  obtain ⟨s, hreach, hstop, hterm, hids, hpc₁, hpc₂⟩ :=
    System.exists_reachableWhen (M := system) (P := fun _ _ => True) (State.started [1, 2])
      (stopDuringSlice ++ .endSlice 1 .returned :: List.replicate 5 (.advance 1))
      (fun s => s.stopping = true ∧ (s.fiber (.task 0)).state = .term ∧
        s.threadIds = [1, 2] ∧ (s.worker 1).pc = .loop ∧ (s.worker 2).pc = .loop)
      (by decide +kernel)
  refine ⟨s, hreach.reachable, hstop, hterm, ?_⟩
  refine (stopping_quiescent_iff [1, 2] (by decide) s hreach.reachable hstop).2.2.1.mpr ?_
  rw [hids]
  rintro t ht f ⟨_, site, _, hpc⟩
  simp only [List.mem_cons, List.not_mem_nil, or_false] at ht
  rcases ht with rfl | rfl
  · simp [hpc₁] at hpc
  · simp [hpc₂] at hpc

/-- The fiber yields as `READY`.  Before thread 1 puts it back, `stopping()` is true and
thread 2 leaves `run`; the next step of thread 1 puts the fiber into the queue. -/
theorem stopping_before_requeue :
    ∃ s s', system.Reachable (State.started [1, 2]) s ∧ system.Reachable s s' ∧
      s.stopping = true ∧ s.WillRequeue 1 0 ∧ ¬ Quiescent s ∧
      (s'.worker 2).pc = .exited ∧ s'.stopping = false ∧
      s'.fibers = [{ fiber := some 0, cb := none, thread := -1 }] := by
  obtain ⟨s, s', hreach, hreach', ⟨hstop, hids, hready, hpc⟩, hlater⟩ :=
    System.exists_reachableWhen_twice (M := system) (P := fun _ _ => True)
      (State.started [1, 2])
      (stopDuringSlice ++ .endSlice 1 .yieldToReady :: List.replicate 4 (.advance 1))
      [.testStopping 2 true, .advance 1]
      (fun s s' => (s.stopping = true ∧ s.threadIds = [1, 2] ∧
          (s.fiber (.task 0)).state = .ready ∧
          (s.worker 1).pc = .slice (.entry 0) .requeue) ∧
        (s'.worker 2).pc = .exited ∧ s'.stopping = false ∧
        s'.fibers = [{ fiber := some 0, cb := none, thread := -1 }])
      (by decide +kernel)
  have hwill : s.WillRequeue 1 0 := ⟨hready, .entry 0, .requeue, hpc, rfl, by simp⟩
  refine ⟨s, s', hreach.reachable, hreach'.reachable, hstop, hwill, ?_, hlater⟩
  intro hquiet
  exact hquiet.requeues 1 (by simp [hids]) 0 hwill

end Stopping

end Scheduler
end Civan
