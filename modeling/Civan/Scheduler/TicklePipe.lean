import Mathlib.Tactic
import Civan.Scheduler.Conservation

/-!
# The tickle pipe

The workers of `Scheduler::run` together with the wake-up path of the `IOManager`.
A worker that finds nothing to run counts itself idle and switches to its idle
fiber, which blocks in `epoll_wait` once per slice.  A critical section that asks
for a tickle is followed by a call of `tickle()` outside the lock, and that call
writes a byte only if `m_idleThreadCount` is not 0.  A byte wakes one blocked
worker, which drains the pipe.

A wake-up is lost when an entry any worker could run is queued, a worker is
blocked, no byte and no call of `tickle()` is on its way, and every other worker
is inside user code.
-/

namespace Civan
namespace Scheduler

open Transition

section Model

/-- Where the idle fiber of a worker stands with the `epoll_wait` of its slice. -/
inductive WaitPhase where
  | before
  | blocked
  | after
deriving DecidableEq, Repr

/-- The scheduler and its tickle pipe. -/
structure Pool where
  sched : State
  wait : ThreadId → WaitPhase
  /-- Calls of `tickle()` that are due: the critical section before them is left. -/
  pendingTickles : ℕ
  /-- The bytes in the pipe. -/
  pipe : ℕ

/-- After `start()`. -/
def Pool.started (threadIds : List ThreadId) : Pool :=
  { sched := State.started threadIds
    wait := fun _ => .before
    pendingTickles := 0
    pipe := 0 }

/-- The steps of the scheduler, of `tickle()` and of `epoll_wait`. -/
inductive PoolLabel where
  | sched (l : Label)
  /-- `stop()` or `onTimerInsertAtFront()` is about to call `tickle()`. -/
  | callTickle
  /-- The body of one call of `tickle()`. -/
  | tickle
  /-- The idle fiber of a worker calls `epoll_wait`. -/
  | epollWait (thread : ThreadId)
  /-- A byte wakes a worker, which drains the pipe. -/
  | wake (thread : ThreadId)
  /-- `epoll_wait` returns for another reason: a timeout or an event on a socket. -/
  | timeout (thread : ThreadId)
deriving DecidableEq, Repr

/-- `need_tickle` and `tickle_me`: the calls of `tickle()` after a critical section. -/
def Event.tickles : Event → ℕ
  | .scheduled true => 1
  | .scanned _ _ true => 1
  | _ => 0

/-- `IOManager::idle` returns before its `epoll_wait`, when it is stopping, or
leaves by `swapOut` after it. -/
def Pool.idleMayEnd (p : Pool) : Label → Bool
  | .endSlice t how =>
    match (p.sched.worker t).pc, how with
    | .slice .idle .running, .swapOut => decide (p.wait t = .after)
    | .slice .idle .running, .returned => decide (p.wait t = .before) && p.sched.stopping
    | .slice .idle .running, _ => false
    | _, _ => true
  | _ => true

/-- The next slice of an idle fiber starts before its `epoll_wait`. -/
def Pool.waitAfter (p : Pool) : Label → ThreadId → WaitPhase
  | .endSlice t _ => Function.update p.wait t .before
  | _ => p.wait

/-- Worker `t` runs its idle fiber and stands at `phase`. -/
def Pool.Idles (p : Pool) (t : ThreadId) (phase : WaitPhase) : Prop :=
  t ∈ p.sched.threadIds ∧ (p.sched.worker t).pc = .slice .idle .running ∧ p.wait t = phase

instance (p : Pool) (t : ThreadId) (phase : WaitPhase) : Decidable (p.Idles t phase) :=
  inferInstanceAs (Decidable (_ ∧ _ ∧ _))

/-- One step of the scheduler or of its wake-up path. -/
def Pool.step (p : Pool) : PoolLabel → Option (Event × Pool)
  | .sched l =>
    if p.idleMayEnd l then
      match Scheduler.step p.sched l with
      | none => none
      | some (o, s) =>
        some (o,
          { p with
            sched := s
            wait := p.waitAfter l
            pendingTickles := p.pendingTickles + o.tickles })
    else
      none
  | .callTickle => some (.internal, { p with pendingTickles := p.pendingTickles + 1 })
  | .tickle =>
    if 0 < p.pendingTickles then
      some (.internal,
        { p with
          pendingTickles := p.pendingTickles - 1
          pipe := if 0 < p.sched.idleThreadCount then p.pipe + 1 else p.pipe })
    else
      none
  | .epollWait t =>
    if p.Idles t .before then
      some (.internal, { p with wait := Function.update p.wait t .blocked })
    else
      none
  | .wake t =>
    if p.Idles t .blocked ∧ 0 < p.pipe then
      some (.internal, { p with wait := Function.update p.wait t .after, pipe := 0 })
    else
      none
  | .timeout t =>
    if p.Idles t .blocked then
      some (.internal, { p with wait := Function.update p.wait t .after })
    else
      none

/-- The scheduler and its wake-up path as a transition system. -/
def Pool.system : System Pool PoolLabel Event where
  step := Pool.step

end Model

section Statement

/-- The fiber of the entry is not in `EXEC`. -/
def State.Runnable (s : State) (e : FiberAndThread) : Prop :=
  ∀ f ∈ e.fiber, (s.fiber (.task f)).state ≠ .exec

instance (s : State) (e : FiberAndThread) : Decidable (s.Runnable e) :=
  inferInstanceAs (Decidable (∀ f ∈ e.fiber, _))

/-- The worker runs the fiber of a task. -/
def Pc.inUserCode : Pc → Bool
  | .slice (.entry _) .running => true
  | .slice (.callback _) .running => true
  | _ => false

/-- An entry for any worker stays queued although a worker is blocked, and nothing
is under way that would wake it or let another worker scan. -/
def Pool.LostWakeUp (p : Pool) : Prop :=
  (∃ e ∈ p.sched.fibers, e.thread = -1 ∧ p.sched.Runnable e) ∧
  (∃ t ∈ p.sched.threadIds, p.wait t = .blocked) ∧
  p.pipe = 0 ∧ p.pendingTickles = 0 ∧
  ∀ t ∈ p.sched.threadIds, p.wait t = .blocked ∨ (p.sched.worker t).pc.inUserCode = true

instance (p : Pool) : Decidable p.LostWakeUp :=
  inferInstanceAs (Decidable (_ ∧ _ ∧ _ ∧ _ ∧ _))

/-- The worker found nothing to run and has not returned from `epoll_wait` since. -/
def Worker.fallingAsleep (w : Worker) (phase : WaitPhase) : Bool :=
  match w.pc with
  | .dispatch => !w.isActive
  | .idleTest | .idleEnter => true
  | .slice .idle .assertNotExec | .slice .idle .setExec | .slice .idle .restore => true
  | .slice .idle .running => decide (phase ≠ .after)
  | _ => false

/-- Some worker is asleep or falling asleep. -/
def Pool.SomeAsleep (p : Pool) : Prop :=
  ∃ t ∈ p.sched.threadIds, (p.sched.worker t).fallingAsleep (p.wait t) = true

instance (p : Pool) : Decidable p.SomeAsleep :=
  inferInstanceAs (Decidable (∃ t ∈ p.sched.threadIds, _))

/-- The code of the fiber is left, and `run` will loop. -/
def Stage.ended (stage : Stage) : Bool :=
  !stage.inside || decide (stage = .save) || decide (stage = .switch)

/-- The worker will scan the queue before it runs a task or sleeps. -/
def Worker.comesToScan (w : Worker) (phase : WaitPhase) : Bool :=
  match w.pc with
  | .loop | .scan | .drop => true
  | .slice .idle .running => decide (phase = .after)
  | .slice _ stage => stage.ended
  | _ => false

/-- The workers on their way to a scan. -/
def Pool.coming (p : Pool) : Finset ThreadId :=
  p.sched.threadIds.toFinset.filter (fun t => (p.sched.worker t).comesToScan (p.wait t) = true)

/-- One if a byte or a call of `tickle()` is on its way to a worker. -/
def Pool.tickled (p : Pool) : ℕ :=
  if 0 < p.pendingTickles ∨ 0 < p.pipe then 1 else 0

/-- With the new entries there is a worker on its way for all but one that can be run,
and for that one a tickle, if the queue was empty or one is on its way already. -/
def Pool.RoomToQueue (p : Pool) (new : List FiberAndThread) : Prop :=
  p.SomeAsleep →
  (∃ e ∈ p.sched.fibers ++ new, e.thread = -1 ∧ p.sched.Runnable e) →
    (p.sched.fibers ++ new).countP (fun e => decide (p.sched.Runnable e)) ≤
      p.coming.card + if p.sched.fibers = [] then 1 else p.tickled

/-- The same when the fiber `f` leaves `EXEC` on thread `t`, with the entries of `f`. -/
def Pool.RoomToFree (p : Pool) (t : ThreadId) (f : TaskId) : Prop :=
  p.SomeAsleep →
  (∃ e ∈ p.sched.fibers, e.thread = -1 ∧ (p.sched.Runnable e ∨ e.fiber = some f)) →
    p.sched.fibers.countP (fun e => decide (p.sched.Runnable e ∨ e.fiber = some f)) ≤
      (insert t p.coming).card + p.tickled

/-- The fiber that leaves `EXEC` in a step, and the thread it was on. -/
def State.frees (s : State) : Label → Option (ThreadId × TaskId)
  | .endSlice t how =>
    match (s.worker t).pc with
    | .slice (.entry f) .running | .slice (.callback f) .running =>
      if how = .swapOut then none else some (t, f)
    | _ => none
  | .advance t =>
    match (s.worker t).pc with
    | .slice (.entry f) .setHold | .slice (.callback f) .setHold =>
      if (s.fiber (.task f)).state = .exec then some (t, f) else none
    | _ => none
  | _ => none

/-- The entries that a critical section of `schedule()` queues. -/
def State.queues (s : State) (l : Label) : Option (List FiberAndThread) :=
  match s.effect l with
  | .push es => some es
  | _ => none

/-- While a worker is asleep or falling asleep, a push or a fiber that leaves `EXEC`
finds room, and a call of `tickle()` that finds no idle thread was not needed. -/
def Pool.TickleSuffices (p : Pool) : PoolLabel → Prop
  | .sched l =>
    (∀ new ∈ p.sched.queues l, p.RoomToQueue new) ∧
      ∀ tf ∈ p.sched.frees l, p.RoomToFree tf.1 tf.2
  | .tickle =>
    p.sched.idleThreadCount = 0 → p.SomeAsleep →
    (∃ e ∈ p.sched.fibers, e.thread = -1 ∧ p.sched.Runnable e) →
      p.sched.fibers.countP (fun e => decide (p.sched.Runnable e)) ≤
        p.coming.card + if 1 < p.pendingTickles ∨ 0 < p.pipe then 1 else 0
  | _ => True

instance (p : Pool) (new : List FiberAndThread) : Decidable (p.RoomToQueue new) :=
  inferInstanceAs (Decidable (_ → _ → _))

instance (p : Pool) (t : ThreadId) (f : TaskId) : Decidable (p.RoomToFree t f) :=
  inferInstanceAs (Decidable (_ → _ → _))

instance (p : Pool) (l : PoolLabel) : Decidable (p.TickleSuffices l) :=
  match l with
  | .sched _ => inferInstanceAs (Decidable (_ ∧ _))
  | .tickle => inferInstanceAs (Decidable (_ → _ → _ → _))
  | .callTickle | .epollWait _ | .wake _ | .timeout _ => .isTrue trivial

end Statement

section Moves

variable {s s' : State} {t : ThreadId} {o : Event} {w w' : Worker}

/-- The worker is no more asleep and no further from its next scan. -/
structure Worker.Progress (w : Worker) (phase : WaitPhase) (w' : Worker) (phase' : WaitPhase) :
    Prop where
  asleep : w'.fallingAsleep phase' = true → w.fallingAsleep phase = true
  coming : w.comesToScan phase = true → w'.comesToScan phase' = true

theorem Worker.Progress.refl (w : Worker) (phase : WaitPhase) : w.Progress phase w phase :=
  ⟨id, id⟩

/-- A worker whose slice is over is on its way to a scan. -/
theorem Worker.progress_of_comesToScan {phase phase' : WaitPhase}
    (hscan : w'.comesToScan phase' = true) (hawake : w'.fallingAsleep phase' = false) :
    w.Progress phase w' phase' :=
  ⟨fun h => absurd h (by simp [hawake]), fun _ => hscan⟩

theorem Worker.comesToScan_ended {site : Site} {stage : Stage}
    (hpc : w.pc = .slice site stage) (hended : stage.ended = true) (phase : WaitPhase) :
    w.comesToScan phase = true ∧ w.fallingAsleep phase = false := by
  cases stage <;> cases site <;> simp_all [comesToScan, fallingAsleep, Stage.ended, Stage.inside]

theorem Worker.comesToScan_loop (hpc : w.pc = .loop) (phase : WaitPhase) :
    w.comesToScan phase = true ∧ w.fallingAsleep phase = false := by
  simp [comesToScan, fallingAsleep, hpc]

/-- A slice that is not over after a step was not over before it. -/
theorem Stage.nexts_not_ended {stage stage' : Stage}
    (hnext : stage' ∈ stage.nexts) (hbefore : stage'.ended = false) :
    stage.ended = false ∧ stage ≠ .running := by
  revert hnext hbefore
  cases stage <;> cases stage' <;> decide

/-- Except in its critical section, a worker makes progress with every step. -/
theorem SliceStep.progress {site : Site} {stage : Stage}
    (hpc : (s.worker t).pc = .slice site stage) (hslice : SliceStep s t site stage o s') :
    ∃ w', s'.worker = Function.update s.worker t w' ∧
      ∀ phase, (s.worker t).Progress phase w' phase := by
  obtain ⟨_, w', hworker, hw'⟩ := hslice.moves
  refine ⟨w', hworker, fun phase => ?_⟩
  rcases hw' with rfl | ⟨stage', hnext, rfl⟩ | rfl
  · exact Worker.Progress.refl _ _
  · by_cases hended : stage'.ended = true
    · have h := Worker.comesToScan_ended (w := { s.worker t with pc := .slice site stage' })
        rfl hended phase
      exact Worker.progress_of_comesToScan h.1 h.2
    · -- before the code of the fiber runs, an idle worker stays asleep and no other is
      have hafter : stage'.ended = false := by simpa using hended
      obtain ⟨hbefore, hnot⟩ := Stage.nexts_not_ended hnext hafter
      cases stage <;> simp [Stage.ended, Stage.inside] at hbefore hnot <;>
        cases stage' <;> simp [Stage.ended, Stage.inside] at hafter <;>
        cases site <;> constructor <;>
        simp [Worker.fallingAsleep, Worker.comesToScan, hpc, Stage.ended, Stage.inside]
  · have h := Worker.comesToScan_loop (Worker.endSite_pc (s.worker t) site) phase
    exact Worker.progress_of_comesToScan h.1 h.2

/-- A worker that took an entry does not go to sleep. -/
theorem dispatch_progress (hpc : w.pc = .dispatch) (phase : WaitPhase) :
    w.Progress phase { w with pc := dispatch s w } phase := by
  refine ⟨?_, by simp [Worker.comesToScan, hpc]⟩
  intro hasleep
  rw [Worker.fallingAsleep, hpc]
  cases hactive : w.isActive with
  | false => rfl
  | true =>
    unfold dispatch at hasleep
    dsimp only at hasleep
    simp only [hactive, if_true] at hasleep
    split at hasleep <;> split_ifs at hasleep <;> simp [Worker.fallingAsleep] at hasleep

theorem WorkerStep.progress (hwf : WellFormed s) (hscan : (s.worker t).pc ≠ .scan)
    (hworker : WorkerStep s t o s') :
    ∃ w', s'.worker = Function.update s.worker t w' ∧
      ∀ phase, (s.worker t).Progress phase w' phase := by
  cases hworker with
  | failsEntryNonNull hpc | finds hpc | findsNone hpc => exact absurd hpc hscan
  | dispatch hpc => exact ⟨_, rfl, dispatch_progress hpc⟩
  | spawn hpc =>
    rw [hwf.spawn_eq hpc]
    refine ⟨_, rfl, fun phase => ⟨?_, ?_⟩⟩
    · simp [Worker.fallingAsleep]
    · simp [Worker.comesToScan, hpc]
  | drop =>
    refine ⟨_, rfl, fun phase => ?_⟩
    have h := Worker.comesToScan_loop (w := { s.worker t with pc := .loop }) rfl phase
    exact Worker.progress_of_comesToScan h.1 h.2
  | exit hpc | idleTest hpc | idleEnter hpc =>
    refine ⟨_, rfl, fun phase => ⟨?_, ?_⟩⟩
    · simp [Worker.fallingAsleep, hpc]
    · simp [Worker.comesToScan, hpc]
  | slice hpc hslice => exact hslice.progress hpc

end Moves

section Exec

variable {s s' : State} {t : ThreadId} {o : Event} {f : TaskId}

theorem exec_setFiber {g : FiberRef} {x : Fiber} (hexec : (s.fiber (.task f)).state = .exec)
    (hx : g = .task f → x.state = .exec) :
    ((s.setFiber g x).fiber (.task f)).state = .exec := by
  by_cases hg : g = .task f
  · subst hg
    simpa [State.setFiber] using hx rfl
  · simpa [State.setFiber, Function.update_of_ne (Ne.symm hg)] using hexec

theorem frees_setHold {site : Site} (hpc : (s.worker t).pc = .slice site .setHold)
    (hsite : site.fiber t = .task f) (hexec : (s.fiber (.task f)).state = .exec) :
    s.frees (.advance t) = some (t, f) := by
  cases site <;> simp [Site.fiber] at hsite <;> simp [State.frees, hpc, hsite, hexec]

/-- A fiber is freed by the worker that is on it, when it writes `HOLD` or when the code of
the fiber ends the slice. -/
theorem frees_cases {l : Label} (hfrees : s.frees l = some (t, f)) :
    (l = .advance t ∧ ∃ site, (s.worker t).pc = .slice site .setHold) ∨
      ∃ how, l = .endSlice t how := by
  cases l with
  | advance u =>
    simp only [State.frees] at hfrees
    split at hfrees
    case h_3 => cases hfrees
    all_goals
      rename_i hpc
      split_ifs at hfrees
      cases hfrees
      exact Or.inl ⟨rfl, _, hpc⟩
  | endSlice u how =>
    simp only [State.frees] at hfrees
    split at hfrees
    case h_3 => cases hfrees
    all_goals
      split_ifs at hfrees
      cases hfrees
      exact Or.inr ⟨how, rfl⟩
  | newFiber | schedule _ _ | scheduleAll _ | setAutoStops | setStopping
  | testStopping _ _ => cases hfrees

theorem SliceStep.exec {site : Site} {stage : Stage} (hpc : (s.worker t).pc = .slice site stage)
    (hslice : SliceStep s t site stage o s') (hexec : (s.fiber (.task f)).state = .exec) :
    (s'.fiber (.task f)).state = .exec ∨ s.frees (.advance t) = some (t, f) := by
  cases hslice with
  | failsNotExec | failsNeverGetHere | assertNotExec | switch | wakes | release | testReady
  | testNotReady | testDone | testNotDone | requeue => exact Or.inl hexec
  | setExec => exact Or.inl (exec_setFiber hexec (fun _ => rfl))
  | restore | save =>
    refine Or.inl (exec_setFiber hexec ?_)
    intro hsite
    rw [hsite]
    exact hexec
  | setHold =>
    by_cases hsite : site.fiber t = .task f
    · exact Or.inr (frees_setHold hpc hsite hexec)
    · exact Or.inl (exec_setFiber hexec (fun h => absurd h hsite))

theorem exec_newFiber (hf : f < s.taskCount) (hexec : (s.fiber (.task f)).state = .exec) :
    (s.newFiber.fiber (.task f)).state = .exec := by
  refine exec_setFiber hexec ?_
  intro hnew
  cases hnew
  exact absurd hf (Nat.lt_irrefl _)

theorem WorkerStep.exec (hwf : WellFormed s) (hworker : WorkerStep s t o s')
    (hf : f < s.taskCount) (hexec : (s.fiber (.task f)).state = .exec) :
    (s'.fiber (.task f)).state = .exec ∨ s.frees (.advance t) = some (t, f) := by
  cases hworker with
  | failsEntryNonNull | finds | findsNone | dispatch | drop | exit | idleTest | idleEnter =>
    exact Or.inl hexec
  | spawn hpc =>
    rw [hwf.spawn_eq hpc]
    exact Or.inl (exec_newFiber hf hexec)
  | slice hpc hslice => exact hslice.exec hpc hexec

/-- A fiber leaves `EXEC` only in the steps that are said to free it. -/
theorem step_exec {l : Label} (hwf : WellFormed s) (hstep : step s l = some (o, s'))
    (hf : f < s.taskCount) (hexec : (s.fiber (.task f)).state = .exec) :
    (s'.fiber (.task f)).state = .exec ∨ ∃ t, s.frees l = some (t, f) := by
  cases processStep_of_step hstep with
  | newFiber => exact Or.inl (exec_newFiber hf hexec)
  | schedule | scheduleAll | setAutoStops | setStopping | leaves | loops => exact Or.inl hexec
  | @advance t _ _ _ hworker => exact (hworker.exec hwf hf hexec).imp_right (fun h => ⟨t, h⟩)
  | @endSlice t site how _ hpc =>
    by_cases hsite : site.fiber t = .task f
    · by_cases hhow : how = .swapOut
      · subst hhow
        refine Or.inl (exec_setFiber hexec ?_)
        intro _
        rw [hsite]
        exact hexec
      · refine Or.inr ⟨t, ?_⟩
        cases site <;> simp [Site.fiber] at hsite <;> simp [State.frees, hpc, hsite, hhow]
    · exact Or.inl (exec_setFiber hexec (fun h => absurd h hsite))

end Exec

end Scheduler
end Civan
