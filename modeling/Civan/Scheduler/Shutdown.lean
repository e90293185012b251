import Civan.Scheduler.Affinity
import Civan.Scheduler.Stopping

/-!
# `stop()` leaves no work behind

`Scheduler::stop` sets `m_autoStops` and `m_stopping`, runs the scheduler on the calling
thread if that thread is one of the workers, and joins the others.  It looks at the queue
only through `stopping()`, and `stopping()` can be true while a worker is about to put a
`READY` fiber back.  A worker that sees it then leaves `run` too early.

It is not missed.  The worker that puts the fiber back is still in its loop, and a worker
leaves only when it has found the queue empty, or when it has found nothing to take after
its idle fiber has ended.  In the second case the entries that it passed over belong to
fibers in `EXEC`, which other workers are in the middle of.  So as long as an entry is
queued there is a worker that will scan the queue again.

Entries are for any thread here: an entry for a thread that has left is never taken.  Once
`stop()` has been called only code that runs on a worker schedules.
-/

namespace Civan
namespace Scheduler

open Transition
open TicketQueue (History)

section Model

/-- Where `stop()` is. -/
inductive StopPc where
  | notCalled
  /-- After `m_autoStops = true`. -/
  | autoStopped
  /-- In the branch for a scheduler without threads of its own, after `m_stopping = true`. -/
  | rootOnly
  /-- Before `m_stopping = true` on line 95. -/
  | marking
  /-- Before `if (!stopping())` on line 113. -/
  | rootTest
  /-- In `m_rootFiber->call()`. -/
  | rootRuns
  /-- In the loop of `join()`, with the threads that are left. -/
  | joining (left : List ThreadId)
  | returned
deriving DecidableEq, Repr

/-- The scheduler with the record of its queue, and one call of `stop()`. -/
structure Shutdown where
  sched : State
  history : Tickets
  /-- `m_rootThread`, if there is an `m_rootFiber`. -/
  root : Option ThreadId
  /-- `m_threads`. -/
  threads : List ThreadId
  pc : StopPc

/-- After `start()`. -/
def Shutdown.started (root : Option ThreadId) (threads : List ThreadId) : Shutdown where
  sched := State.started (root.toList ++ threads)
  history := History.empty
  root := root
  threads := threads
  pc := .notCalled

/-- The steps of the scheduler, and those of `stop()`.  An override of `stopping()` may
ask for more. -/
inductive ShutdownLabel where
  | sched (l : Label)
  | stop (override : Bool)
deriving DecidableEq, Repr

/-- A step of the scheduler. -/
def Shutdown.advance (p : Shutdown) (l : Label) : Option (Event × Shutdown) :=
  (recorded.step (p.sched, p.history) l).map fun r =>
    (r.1, { p with sched := r.2.1, history := r.2.2 })

/-- The two flags are written by `stop()`, and the root fiber runs only when `stop()`
calls it. -/
def Shutdown.mayTake (p : Shutdown) (l : Label) : Prop :=
  l ≠ .setAutoStops ∧ l ≠ .setStopping ∧ ∀ t ∈ l.mover, p.root = some t → p.pc = .rootRuns

instance (p : Shutdown) (l : Label) : Decidable (p.mayTake l) :=
  inferInstanceAs (Decidable (_ ∧ _ ∧ _))

def Shutdown.goto (p : Shutdown) (pc : StopPc) : Event × Shutdown :=
  (.internal, { p with pc := pc })

/-- The next step of `stop()`. -/
def Shutdown.stop (p : Shutdown) (override : Bool) : Option (Event × Shutdown) :=
  match p.pc with
  | .notCalled => { p with pc := .autoStopped }.advance .setAutoStops
  | .autoStopped =>
    -- the root fiber has not been called before, so its state is INIT
    if p.root.isSome ∧ p.threads = [] then
      { p with pc := .rootOnly }.advance .setStopping
    else
      some (p.goto .marking)
  | .rootOnly => some (p.goto (if p.sched.stopping && override then .returned else .marking))
  | .marking => { p with pc := .rootTest }.advance .setStopping
  | .rootTest =>
    if p.root.isSome ∧ (p.sched.stopping && override) = false then
      some (p.goto .rootRuns)
    else
      some (p.goto (.joining p.threads))
  | .rootRuns =>
    if ∀ r ∈ p.root, (p.sched.worker r).pc = .exited then
      some (p.goto (.joining p.threads))
    else
      none
  | .joining [] => some (p.goto .returned)
  | .joining (t :: left) =>
    if (p.sched.worker t).pc = .exited then some (p.goto (.joining left)) else none
  | .returned => none

/-- One step of the process; a failed assertion has ended it. -/
def Shutdown.step (p : Shutdown) (l : ShutdownLabel) : Option (Event × Shutdown) :=
  if p.sched.aborted.isSome then
    none
  else
    match l with
    | .sched l => if p.mayTake l then p.advance l else none
    | .stop override => p.stop override

def Shutdown.system : System Shutdown ShutdownLabel Event where
  step := Shutdown.step

/-- Code runs on the fiber of a worker. -/
def Pc.running : Pc → Bool
  | .slice _ .running => true
  | _ => false

/-- Entries are for any thread; once `stop()` has been called only code that runs on a
worker schedules; and the function of an idle fiber, which returns some time after it has
found `stopping()` to be true, does not return before both flags are set. -/
def Shutdown.Orderly (p : Shutdown) : ShutdownLabel → Prop
  | .sched (.schedule _ thread) =>
    thread = -1 ∧
      (p.pc = .notCalled ∨ ∃ t ∈ p.sched.threadIds, (p.sched.worker t).pc.running = true)
  | .sched (.scheduleAll _) =>
    p.pc = .notCalled ∨ ∃ t ∈ p.sched.threadIds, (p.sched.worker t).pc.running = true
  | .sched (.endSlice t .returned) =>
    (p.sched.worker t).pc = .slice .idle .running →
      p.sched.autoStops = true ∧ p.sched.isStopping = true
  | _ => True

instance Shutdown.decidableOrderly (p : Shutdown) (l : ShutdownLabel) :
    Decidable (Shutdown.Orderly p l) :=
  match l with
  | .sched (.schedule _ _) => inferInstanceAs (Decidable (_ ∧ (_ ∨ _)))
  | .sched (.scheduleAll _) => inferInstanceAs (Decidable (_ ∨ _))
  | .sched (.endSlice _ .returned) => inferInstanceAs (Decidable (_ → _))
  | .sched (.endSlice _ .yieldToReady) | .sched (.endSlice _ .yieldToHold)
  | .sched (.endSlice _ .swapOut) | .sched (.endSlice _ .threw)
  | .sched .newFiber | .sched .setAutoStops | .sched .setStopping
  | .sched (.testStopping _ _) | .sched (.advance _) | .stop _ => .isTrue trivial

end Model

section Executed

variable {s s' : State} {t : ThreadId} {w : Worker} {o : Event} {l : Label}

/-- The stages between `m_state = EXEC` in `swapIn` and the last look of `run` at the
state. -/
def Stage.entered : Stage → Bool
  | .assertNotExec | .setExec | .requeue => false
  | .restore | .running | .save | .switch | .release | .testReady | .testDone
  | .setHold => true

/-- The worker is in a slice of task `f` that has set `EXEC`. -/
def Worker.Entered (t : ThreadId) (w : Worker) (f : TaskId) : Prop :=
  ∃ site stage, w.pc = .slice site stage ∧ site.fiber t = .task f ∧ stage.entered = true

/-- A task in `EXEC` is one that some worker has entered. -/
def Executed (s : State) : Prop :=
  ∀ f, (s.fiber (.task f)).state = .exec → ∃ t ∈ s.threadIds, (s.worker t).Entered t f

theorem started_executed (threadIds : List ThreadId) : Executed (State.started threadIds) := by
  intro f hexec
  simp [State.started, Fiber.new] at hexec

/-- A worker that moves has entered what is new in `EXEC`, and gives up nothing that
stays so. -/
theorem Executed.move (h : Executed s) (hworker : s'.worker = Function.update s.worker t w)
    (hids : s'.threadIds = s.threadIds) (ht : t ∈ s.threadIds)
    (hexec : ∀ f, (s'.fiber (.task f)).state = .exec →
      w.Entered t f ∨ ((s.fiber (.task f)).state = .exec ∧ ¬ (s.worker t).Entered t f)) :
    Executed s' := by
  intro f hf
  rw [hworker, hids]
  rcases hexec f hf with hw | ⟨hold, hnot⟩
  · exact ⟨t, ht, by rw [Function.update_self]; exact hw⟩
  · obtain ⟨u, hu, hentered⟩ := h f hold
    have hne : u ≠ t := by
      rintro rfl
      exact hnot hentered
    exact ⟨u, hu, by rw [Function.update_of_ne hne]; exact hentered⟩

theorem not_entered_of_pc (hpc : ∀ site stage, w.pc ≠ .slice site stage) (f : TaskId) :
    ¬ w.Entered t f := by
  rintro ⟨site, stage, hslice, _⟩
  exact hpc site stage hslice

theorem not_entered_of_stage {site : Site} {stage : Stage}
    (hpc : w.pc = .slice site stage) (hstage : stage.entered = false) (f : TaskId) :
    ¬ w.Entered t f := by
  rintro ⟨site', stage', hpc', _, hentered⟩
  rw [hpc, Pc.slice.injEq] at hpc'
  rw [← hpc'.2, hstage] at hentered
  cases hentered

theorem not_entered_of_ne {site : Site} {stage : Stage} {f : TaskId}
    (hpc : w.pc = .slice site stage) (hne : .task f ≠ site.fiber t) :
    ¬ w.Entered t f := by
  rintro ⟨site', stage', hpc', hsite, _⟩
  rw [hpc, Pc.slice.injEq] at hpc'
  rw [← hpc'.1] at hsite
  exact hne hsite.symm

/-- Outside of slices nothing is set to `EXEC`. -/
theorem Executed.goto (h : Executed s) (hworker : s'.worker = Function.update s.worker t w)
    (hids : s'.threadIds = s.threadIds) (ht : t ∈ s.threadIds)
    (hpc : ∀ site stage, (s.worker t).pc ≠ .slice site stage)
    (hfiber : ∀ f, (s'.fiber (.task f)).state = .exec → (s.fiber (.task f)).state = .exec) :
    Executed s' :=
  h.move hworker hids ht fun f hf => Or.inr ⟨hfiber f hf, not_entered_of_pc hpc f⟩

/-- A stage that goes on within its slice and writes to the fiber of the slice at most. -/
theorem Executed.within {site : Site} {stage stage' : Stage} {x : Fiber} (h : Executed s)
    (ht : t ∈ s.threadIds) (hpc : (s.worker t).pc = .slice site stage)
    (hfiber : x.state = .exec → stage'.entered = true) :
    Executed ((s.setFiber (site.fiber t) x).setWorker t
      { s.worker t with pc := .slice site stage' }) := by
  refine h.move rfl rfl ht fun f hf => ?_
  change (Function.update s.fiber (site.fiber t) x (.task f)).state = .exec at hf
  by_cases hsite : .task f = site.fiber t
  · rw [hsite, Function.update_self] at hf
    exact Or.inl ⟨site, stage', rfl, hsite.symm, hfiber hf⟩
  · rw [Function.update_of_ne hsite] at hf
    exact Or.inr ⟨hf, not_entered_of_ne hpc hsite⟩

/-- The end of a slice whose fiber is not in `EXEC`. -/
theorem Executed.leave {site : Site} {stage : Stage} {x : Fiber} (h : Executed s)
    (ht : t ∈ s.threadIds) (hpc : (s.worker t).pc = .slice site stage) (hx : x.state ≠ .exec) :
    Executed ((s.setFiber (site.fiber t) x).setWorker t ((s.worker t).endSite site)) := by
  refine h.move rfl rfl ht fun f hf => ?_
  change (Function.update s.fiber (site.fiber t) x (.task f)).state = .exec at hf
  have hsite : .task f ≠ site.fiber t := by
    intro heq
    rw [heq, Function.update_self] at hf
    exact hx hf
  rw [Function.update_of_ne hsite] at hf
  exact Or.inr ⟨hf, not_entered_of_ne hpc hsite⟩

theorem setFiber_self (s : State) (f : FiberRef) : s.setFiber f (s.fiber f) = s := by
  simp [State.setFiber]

theorem Executed.slice {site : Site} {stage : Stage} (h : Executed s) (ht : t ∈ s.threadIds)
    (hpc : (s.worker t).pc = .slice site stage) (hslice : SliceStep s t site stage o s') :
    Executed s' := by
  -- the stages that leave the fiber alone write its value back
  have hgo : ∀ stage' : Stage,
      ((s.fiber (site.fiber t)).state = .exec → stage'.entered = true) →
      Executed (s.setWorker t { s.worker t with pc := .slice site stage' }) := by
    intro stage' hentered
    have hwithin := h.within (x := s.fiber (site.fiber t)) ht hpc hentered
    rwa [setFiber_self] at hwithin
  cases hslice with
  | failsNotExec | failsNeverGetHere => exact h
  | assertNotExec hexec => exact hgo .setExec fun hstate => absurd hstate hexec
  | setExec => exact h.within ht hpc fun _ => rfl
  | restore => exact h.within ht hpc fun _ => rfl
  | save => exact h.within ht hpc fun _ => rfl
  | switch => exact hgo .release fun _ => rfl
  | wakes => exact hgo .testDone fun _ => rfl
  | release => exact hgo .testReady fun _ => rfl
  | testReady hready =>
    refine hgo .requeue fun hstate => ?_
    rw [hready] at hstate
    cases hstate
  | testNotReady => exact hgo .testDone fun _ => rfl
  | testNotDone => exact hgo .setHold fun _ => rfl
  | testDone hdone =>
    have hleave := h.leave (x := s.fiber (site.fiber t)) ht hpc (by
      intro hstate
      simp [Fiber.isDone, hstate] at hdone)
    rwa [setFiber_self] at hleave
  | requeue => exact h.move rfl rfl ht fun f hf => Or.inr ⟨hf, not_entered_of_stage hpc rfl f⟩
  | setHold => exact h.leave ht hpc (by simp)

theorem Executed.newFiber (h : Executed s) : Executed s.newFiber := by
  intro f hf
  refine h f ?_
  change (Function.update s.fiber (.task s.taskCount) Fiber.new (.task f)).state = .exec at hf
  by_cases heq : f = s.taskCount
  · rw [heq, Function.update_self] at hf
    cases hf
  · rwa [Function.update_of_ne (by simpa using heq)] at hf

theorem Executed.advance (h : Executed s) (hwf : WellFormed s) (ht : t ∈ s.threadIds)
    (hworker : WorkerStep s t o s') :
    Executed s' := by
  cases hworker with
  | failsEntryNonNull => exact h
  | finds hpc | findsNone hpc | dispatch hpc | drop hpc | exit hpc | idleTest hpc
  | idleEnter hpc => exact h.goto rfl rfl ht (by simp [hpc]) fun _ hf => hf
  | spawn hpc =>
    rw [hwf.spawn_eq hpc]
    exact h.newFiber.goto rfl rfl ht (by simp [State.newFiber, State.setFiber, hpc])
      fun _ hf => hf
  | slice hpc hslice => exact h.slice ht hpc hslice

theorem Executed.step (h : Executed s) (hwf : WellFormed s) (hstep : step s l = some (o, s')) :
    Executed s' := by
  cases processStep_of_step hstep with
  | newFiber => exact h.newFiber
  | schedule | scheduleAll | setAutoStops | setStopping => exact h
  | leaves ht hpc | loops ht hpc => exact h.goto rfl rfl ht (by simp [hpc]) fun _ hf => hf
  | advance ht hworker => exact h.advance hwf ht hworker
  | endSlice how ht hpc => exact h.within ht hpc fun _ => rfl

end Executed

section Leaving

variable {s s' : State} {t u : ThreadId} {o : Event} {l : Label}

/-- The worker has left `run`, or it will without another look at the queue: it has found
nothing to take, and its idle fiber has ended. -/
def State.Leaving (s : State) (t : ThreadId) : Prop :=
  (s.worker t).pc = .exited ∨
    ((s.fiber (.idle t)).state = .term ∧
      ((s.worker t).pc = .idleTest ∨
        ((s.worker t).pc = .dispatch ∧ (s.worker t).isActive = false)))

theorem State.Leaving.congr (hworker : s'.worker t = s.worker t)
    (hfiber : s'.fiber (.idle t) = s.fiber (.idle t)) :
    s'.Leaving t ↔ s.Leaving t := by
  rw [State.Leaving, State.Leaving, hworker, hfiber]

theorem not_leaving_of_pc
    (hexited : (s.worker t).pc ≠ .exited) (htest : (s.worker t).pc ≠ .idleTest)
    (hdispatch : (s.worker t).pc ≠ .dispatch) :
    ¬ s.Leaving t := by
  rintro (hpc | ⟨_, hpc | ⟨hpc, _⟩⟩)
  · exact hexited hpc
  · exact htest hpc
  · exact hdispatch hpc

theorem not_leaving_of_slice {site : Site} {stage : Stage}
    (hpc : (s.worker t).pc = .slice site stage) :
    ¬ s.Leaving t :=
  not_leaving_of_pc (by simp [hpc]) (by simp [hpc]) (by simp [hpc])

theorem SliceStep.idle_of_ne {site : Site} {stage : Stage}
    (hslice : SliceStep s t site stage o s') (hu : u ≠ t) :
    s'.fiber (.idle u) = s.fiber (.idle u) := by
  have hne : FiberRef.idle u ≠ site.fiber t := by
    cases site <;> simp [Site.fiber, hu]
  cases hslice with
  | failsNotExec | failsNeverGetHere | assertNotExec | switch | wakes | release | testReady
  | testNotReady | testDone | testNotDone | requeue => rfl
  | setExec | restore | save | setHold =>
    simp [State.setWorker, State.setState, State.setFiber, hne]

theorem WorkerStep.idle_of_ne (hwf : WellFormed s) (hworker : WorkerStep s t o s') (hu : u ≠ t) :
    s'.fiber (.idle u) = s.fiber (.idle u) := by
  cases hworker with
  | failsEntryNonNull | finds | findsNone | dispatch | drop | exit | idleTest | idleEnter => rfl
  | spawn hpc =>
    rw [hwf.spawn_eq hpc]
    simp [State.setWorker, State.newFiber, State.setFiber]
  | slice hpc hslice => exact hslice.idle_of_ne hu

theorem WorkerStep.leaving_of_ne (hwf : WellFormed s) (hworker : WorkerStep s t o s')
    (hu : u ≠ t) :
    s'.Leaving u ↔ s.Leaving u :=
  State.Leaving.congr (hworker.worker_of_ne hwf hu) (hworker.idle_of_ne hwf hu)

theorem SliceStep.not_leaving {site : Site} {stage : Stage}
    (hpc : (s.worker t).pc = .slice site stage) (hslice : SliceStep s t site stage o s') :
    ¬ s'.Leaving t := by
  obtain ⟨_, w, hworker, hw⟩ := hslice.moves
  have hself : s'.worker t = w := by rw [hworker, Function.update_self]
  rcases hw with rfl | ⟨stage', _, rfl⟩ | rfl
  · exact not_leaving_of_slice (hself ▸ hpc)
  · exact not_leaving_of_slice (by rw [hself])
  · have hloop := Worker.endSite_pc (s.worker t) site
    rw [← hself] at hloop
    exact not_leaving_of_pc (by simp [hloop]) (by simp [hloop]) (by simp [hloop])

/-- A worker that holds an entry goes on with it. -/
theorem not_leaving_dispatch (hactive : (s.worker t).isActive = true) :
    ¬ (s.setWorker t { s.worker t with pc := dispatch s (s.worker t) }).Leaving t := by
  have hne : dispatch s (s.worker t) ≠ .idleTest := by
    unfold dispatch
    dsimp only
    simp only [hactive, if_true]
    split <;> split_ifs <;> simp
  rcases dispatch_cases s (s.worker t) with ⟨f, _, _, hd⟩ | ⟨_, hd⟩ | hd | hd
  · simp [State.Leaving, State.setWorker, hd]
  · simp [State.Leaving, State.setWorker, hd]
  · simp [State.Leaving, State.setWorker, hd]
  · exact absurd hd hne

/-- A worker that found nothing is told by its idle fiber alone whether it leaves. -/
theorem leaving_dispatch (hok : (s.worker t).ActiveOk)
    (hpc : (s.worker t).pc = .dispatch) (hactive : (s.worker t).isActive = false) :
    (s.setWorker t { s.worker t with pc := dispatch s (s.worker t) }).Leaving t ↔
      s.Leaving t := by
  have hd : dispatch s (s.worker t) = .idleTest := by
    simp [dispatch, hok.dispatch hpc hactive, FiberAndThread.empty, hactive]
  simp [State.Leaving, State.setWorker, hd, hpc, hactive]

/-- The workers that may move, and a queue with an entry for which one of them will look. -/
structure Attended (P : ThreadId → Prop) (s : State) : Prop where
  still : ∀ t ∈ s.threadIds, ¬ P t → (s.worker t).pc = .loop ∨ (s.worker t).pc = .exited
  attended : s.fibers ≠ [] → ∃ t ∈ s.threadIds, P t ∧ ¬ s.Leaving t

variable {P : ThreadId → Prop}

/-- An entry that a scan goes past belongs to a fiber that another worker has entered. -/
theorem Attended.exists_entered {r : Scan} (h : Attended P s) (hwf : WellFormed s)
    (hexecuted : Executed s) (hany : ∀ e ∈ s.fibers, e.thread = -1)
    (hpc : (s.worker t).pc = .scan)
    (hscan : takeEntry t (fun f => (s.fiber (.task f)).state) s.fibers = some r)
    (htaken : r.taken = none) (hne : s.fibers ≠ []) :
    ∃ u ∈ s.threadIds, u ≠ t ∧ P u ∧ ¬ s.Leaving u := by
  obtain ⟨e, he⟩ := List.exists_mem_of_ne_nil s.fibers hne
  have hexec : ∃ f, (s.fiber (.task f)).state = .exec := by
    have hskipped := hwf.scan_none hscan htaken e he
    cases hfiber : e.fiber with
    | none => simp [FiberAndThread.eligible, hany e he, hfiber] at hskipped
    | some f => exact ⟨f, by simpa [FiberAndThread.eligible, hany e he, hfiber] using hskipped⟩
  obtain ⟨f, hf⟩ := hexec
  obtain ⟨u, hu, site, stage, hslice, _⟩ := hexecuted f hf
  refine ⟨u, hu, ?_, ?_, not_leaving_of_slice hslice⟩
  · rintro rfl
    rw [hpc] at hslice
    cases hslice
  · by_contra hnot
    rcases h.still u hu hnot with hloop | hexit
    · rw [hslice] at hloop
      cases hloop
    · rw [hslice] at hexit
      cases hexit

/-- A step of a worker leaves no entry unattended. -/
theorem Attended.advance (h : Attended P s) (hwf : WellFormed s)
    (hok : ∀ u, (s.worker u).ActiveOk) (hexecuted : Executed s)
    (hany : ∀ e ∈ s.fibers, e.thread = -1) (ht : t ∈ s.threadIds) (hP : P t)
    (hworker : WorkerStep s t o s') (hne : s'.fibers ≠ []) :
    ∃ u ∈ s.threadIds, P u ∧ ¬ s'.Leaving u := by
  have hself : ¬ s'.Leaving t → ∃ u ∈ s.threadIds, P u ∧ ¬ s'.Leaving u :=
    fun hnot => ⟨t, ht, hP, hnot⟩
  have hother : ∀ u ∈ s.threadIds, P u → ¬ s.Leaving u → u ≠ t →
      ∃ u ∈ s.threadIds, P u ∧ ¬ s'.Leaving u := by
    intro u hu hPu hnot hut
    exact ⟨u, hu, hPu, fun hleaving => hnot ((hworker.leaving_of_ne hwf hut).mp hleaving)⟩
  cases hworker with
  | failsEntryNonNull _ hscan => exact absurd hscan hwf.takeEntry_ne_none
  | finds => exact hself (by simp [State.Leaving, State.setWorker])
  | findsNone hpc hscan htaken =>
    obtain ⟨u, hu, hut, hPu, hnot⟩ :=
      h.exists_entered hwf hexecuted hany hpc hscan htaken hne
    exact hother u hu hPu hnot hut
  | dispatch hpc =>
    cases hactive : (s.worker t).isActive with
    | true => exact hself (not_leaving_dispatch hactive)
    | false =>
      obtain ⟨u, hu, hPu, hnot⟩ := h.attended hne
      by_cases hut : u = t
      · subst hut
        exact hself fun hleaving =>
          hnot ((leaving_dispatch (hok u) hpc hactive).mp hleaving)
      · exact hother u hu hPu hnot hut
  | spawn hpc =>
    rw [hwf.spawn_eq hpc] at hself ⊢
    exact hself (by simp [State.Leaving, State.setWorker])
  | drop => exact hself (by simp [State.Leaving, State.setWorker])
  | exit hpc hterm =>
    obtain ⟨u, hu, hPu, hnot⟩ := h.attended hne
    refine hother u hu hPu hnot ?_
    rintro rfl
    exact hnot (Or.inr ⟨hterm, Or.inl hpc⟩)
  | idleTest => exact hself (by simp [State.Leaving, State.setWorker])
  | idleEnter => exact hself (by simp [State.Leaving, State.setWorker])
  | slice hpc hslice => exact hself (hslice.not_leaving hpc)

/-- A step leaves no entry unattended, if a call from outside adds one only while some
worker will look for it. -/
theorem Attended.step (h : Attended P s) (hwf : WellFormed s) (hok : ∀ u, (s.worker u).ActiveOk)
    (hexecuted : Executed s) (hany : ∀ e ∈ s.fibers, e.thread = -1) (hmover : ∀ u ∈ l.mover, P u)
    (hcall : (∃ fb thread, l = .schedule fb thread) ∨ (∃ fbs, l = .scheduleAll fbs) →
      ∃ u ∈ s.threadIds, P u ∧ ¬ s.Leaving u)
    (hstep : step s l = some (o, s'))
    (hne : s'.fibers ≠ []) :
    ∃ u ∈ s.threadIds, P u ∧ ¬ s'.Leaving u := by
  cases processStep_of_step hstep with
  | newFiber => exact h.attended hne
  | setAutoStops | setStopping => exact h.attended hne
  | schedule => exact hcall (Or.inl ⟨_, _, rfl⟩)
  | scheduleAll => exact hcall (Or.inr ⟨_, rfl⟩)
  | leaves _ _ hstop => exact absurd (stopping_eq_true hstop).1 hne
  | @loops t _ ht _ => exact ⟨t, ht, hmover t rfl, by simp [State.Leaving, State.setWorker]⟩
  | @advance t _ _ ht hworker =>
    exact h.advance hwf hok hexecuted hany ht (hmover t rfl) hworker hne
  | @endSlice t _ how ht hpc =>
    exact ⟨t, ht, hmover t rfl, by simp [State.Leaving, State.setWorker]⟩

end Leaving

section Ended

variable {s s' : State} {t u : ThreadId} {o : Event} {l : Label}

/-- The worker has left `run`, or its idle fiber has ended. -/
def State.Ended (s : State) (t : ThreadId) : Prop :=
  (s.worker t).pc = .exited ∨ (s.fiber (.idle t)).state = .term

/-- `run` ends no idle fiber. -/
theorem SliceStep.idle_term {site : Site} {stage : Stage} (hslice : SliceStep s t site stage o s')
    (hterm : (s'.fiber (.idle u)).state = .term) :
    (s.fiber (.idle u)).state = .term := by
  -- the fiber of the slice keeps its state or gets one that is not `TERM`
  have hset : ∀ x : Fiber, (x.state = (s.fiber (site.fiber t)).state ∨ x.state ≠ .term) →
      (Function.update s.fiber (site.fiber t) x (.idle u)).state = .term →
      (s.fiber (.idle u)).state = .term := by
    intro x hx hterm
    by_cases hsite : FiberRef.idle u = site.fiber t
    · rw [hsite, Function.update_self] at hterm
      rcases hx with hx | hx
      · rw [hsite, ← hx, hterm]
      · exact absurd hterm hx
    · rwa [Function.update_of_ne hsite] at hterm
  cases hslice with
  | failsNotExec | failsNeverGetHere | assertNotExec | switch | wakes | release | testReady
  | testNotReady | testDone | testNotDone | requeue => exact hterm
  | setExec | setHold => exact hset _ (Or.inr (by simp)) hterm
  | restore => exact hset { s.fiber (site.fiber t) with saved := false } (Or.inl rfl) hterm
  | save => exact hset { s.fiber (site.fiber t) with saved := true } (Or.inl rfl) hterm

theorem SliceStep.ended {site : Site} {stage : Stage} (hslice : SliceStep s t site stage o s')
    (hended : s'.Ended u) :
    s.Ended u := by
  refine hended.imp (fun hexited => ?_) hslice.idle_term
  obtain ⟨_, w, hworker, hw⟩ := hslice.moves
  rw [hworker] at hexited
  by_cases hu : u = t
  · subst hu
    rw [Function.update_self] at hexited
    rcases hw with rfl | ⟨stage', _, rfl⟩ | rfl
    · exact hexited
    · cases hexited
    · rw [Worker.endSite_pc] at hexited
      cases hexited
  · rwa [Function.update_of_ne hu] at hexited

/-- A worker that moves to `pc` has left only if it was there. -/
theorem State.Ended.of_update {w : Worker} (hended : s'.Ended u)
    (hworker : s'.worker = Function.update s.worker t w)
    (hfiber : s'.fiber (.idle u) = s.fiber (.idle u)) (hw : w.pc = .exited → s.Ended t) :
    s.Ended u := by
  rw [State.Ended, hworker, hfiber] at hended
  by_cases hu : u = t
  · subst hu
    rw [Function.update_self] at hended
    exact hended.elim hw Or.inr
  · rwa [Function.update_of_ne hu] at hended

theorem WorkerStep.ended (hwf : WellFormed s) (hworker : WorkerStep s t o s')
    (hended : s'.Ended u) :
    s.Ended u := by
  cases hworker with
  | failsEntryNonNull => exact hended
  | finds | findsNone | drop | idleTest | idleEnter => exact hended.of_update rfl rfl (by simp)
  | dispatch =>
    refine hended.of_update rfl rfl fun hexited => ?_
    rcases dispatch_cases s (s.worker t) with ⟨f, _, _, hd⟩ | ⟨_, hd⟩ | hd | hd
    all_goals simp [hd] at hexited
  | exit _ hterm => exact hended.of_update rfl rfl fun _ => Or.inr hterm
  | spawn hpc =>
    rw [hwf.spawn_eq hpc] at hended
    exact hended.of_update rfl rfl (by simp)
  | slice _ hslice => exact hslice.ended hended

/-- A worker leaves `run`, and an idle fiber ends, after `stop()` was called; the idle fiber
is supposed to do so. -/
theorem ended_of_step (hwf : WellFormed s)
    (hidle : ∀ t, l = .endSlice t .returned →
      (s.worker t).pc = .slice .idle .running → s.autoStops = true)
    (hstep : step s l = some (o, s')) (hended : s'.Ended u) :
    s.Ended u ∨ s.autoStops = true := by
  cases processStep_of_step hstep with
  | newFiber | schedule | scheduleAll | setAutoStops | setStopping => exact Or.inl hended
  | leaves _ _ hstop =>
    simp only [State.stopping, Bool.and_eq_true] at hstop
    exact Or.inr hstop.1.1.1
  | loops => exact Or.inl (hended.of_update rfl rfl (by simp))
  | advance _ hworker => exact Or.inl (hworker.ended hwf hended)
  | @endSlice t site how _ hpc =>
    by_cases hsite : .idle u = site.fiber t
    · have hidleSite : site = .idle ∧ u = t := by
        cases site <;> simp_all [Site.fiber]
      obtain ⟨rfl, rfl⟩ := hidleSite
      cases how with
      | returned => exact Or.inr (hidle u rfl hpc)
      | yieldToReady | yieldToHold | threw =>
        simp [State.Ended, State.setWorker, State.setFiber, Site.fiber,
          SliceEnd.leave] at hended
      | swapOut =>
        simp only [State.Ended, State.setWorker, State.setFiber, Site.fiber,
          SliceEnd.leave, Function.update_self, reduceCtorEq, false_or] at hended
        exact Or.inl (Or.inr hended)
    · refine Or.inl (hended.of_update rfl ?_ (by simp))
      simp [State.setWorker, State.setFiber, hsite]

/-- `m_autoStops` is written by `stop()` and never taken back. -/
theorem autoStops_of_step (hwf : WellFormed s) (hstep : step s l = some (o, s')) :
    s'.autoStops = s.autoStops ∨ (l = .setAutoStops ∧ s'.autoStops = true) := by
  cases processStep_of_step hstep with
  | newFiber | schedule | scheduleAll | setStopping | leaves | loops | endSlice =>
    exact Or.inl rfl
  | setAutoStops => exact Or.inr ⟨rfl, rfl⟩
  | advance _ hworker =>
    cases hworker with
    | spawn hpc =>
      rw [hwf.spawn_eq hpc]
      exact Or.inl rfl
    | slice _ hslice => cases hslice <;> exact Or.inl rfl
    | failsEntryNonNull | finds | findsNone | dispatch | drop | exit | idleTest
    | idleEnter => exact Or.inl rfl

theorem worker_of_not_mover (hwf : WellFormed s) (hmover : u ∉ l.mover)
    (hstep : step s l = some (o, s')) :
    s'.worker u = s.worker u := by
  have hne : ∀ {t : ThreadId}, l.mover = some t → u ≠ t := by
    rintro t hl rfl
    exact hmover hl
  cases processStep_of_step hstep with
  | newFiber | schedule | scheduleAll | setAutoStops | setStopping => rfl
  | leaves | loops | endSlice => exact Function.update_of_ne (hne rfl) _ _
  | advance _ hworker => exact hworker.worker_of_ne hwf (hne rfl)

theorem exited_of_step (hwf : WellFormed s) (hexited : (s.worker u).pc = .exited)
    (hstep : step s l = some (o, s')) :
    s'.worker u = s.worker u := by
  have hne : ∀ {t : ThreadId} {pc : Pc}, (s.worker t).pc = pc → pc ≠ .exited → u ≠ t := by
    rintro t pc hpc hpcne rfl
    exact hpcne (hpc.symm.trans hexited)
  cases processStep_of_step hstep with
  | newFiber | schedule | scheduleAll | setAutoStops | setStopping => rfl
  | leaves _ hpc | loops _ hpc => exact Function.update_of_ne (hne hpc (by simp)) _ _
  | endSlice how _ hpc => exact Function.update_of_ne (hne hpc (by simp)) _ _
  | advance _ hworker =>
    refine hworker.worker_of_ne hwf ?_
    cases hworker with
    | failsEntryNonNull hpc | finds hpc | findsNone hpc | dispatch hpc | spawn hpc
    | drop hpc | exit hpc | idleTest hpc | idleEnter hpc | slice hpc => exact hne hpc (by simp)

end Ended

section Steps

variable {p p' : Shutdown} {l : ShutdownLabel} {o : Event}

/-- A step of the scheduler, with its record. -/
def Shutdown.after (p : Shutdown) (l : Label) (s' : State) (pc : StopPc) : Shutdown :=
  { p with sched := s', history := record p.history s' (p.sched.effect l), pc := pc }

inductive ShutdownStep (p : Shutdown) : ShutdownLabel → Shutdown → Prop
  | sched {l : Label} {o : Event} {s' : State} (hmay : p.mayTake l)
      (hstep : step p.sched l = some (o, s')) :
      ShutdownStep p (.sched l) (p.after l s' p.pc)
  | setsAutoStops {override : Bool} {o : Event} {s' : State} (hpc : p.pc = .notCalled)
      (hstep : step p.sched .setAutoStops = some (o, s')) :
      ShutdownStep p (.stop override) (p.after .setAutoStops s' .autoStopped)
  | hasRootOnly {override : Bool} {o : Event} {s' : State} (hpc : p.pc = .autoStopped)
      (hthreads : p.threads = []) (hstep : step p.sched .setStopping = some (o, s')) :
      ShutdownStep p (.stop override) (p.after .setStopping s' .rootOnly)
  | hasWork {override : Bool} (hpc : p.pc = .autoStopped ∨ p.pc = .rootOnly) :
      ShutdownStep p (.stop override) { p with pc := .marking }
  | returnsEarly {override : Bool} (hpc : p.pc = .rootOnly) (hstop : p.sched.stopping = true) :
      ShutdownStep p (.stop override) { p with pc := .returned }
  | setsStopping {override : Bool} {o : Event} {s' : State} (hpc : p.pc = .marking)
      (hstep : step p.sched .setStopping = some (o, s')) :
      ShutdownStep p (.stop override) (p.after .setStopping s' .rootTest)
  | callsRoot {override : Bool} (hpc : p.pc = .rootTest) :
      ShutdownStep p (.stop override) { p with pc := .rootRuns }
  | passesRoot {override : Bool} (hpc : p.pc = .rootTest)
      (hskip : p.root = none ∨ p.sched.stopping = true) :
      ShutdownStep p (.stop override) { p with pc := .joining p.threads }
  | rootReturns {override : Bool} (hpc : p.pc = .rootRuns)
      (hexited : ∀ r ∈ p.root, (p.sched.worker r).pc = .exited) :
      ShutdownStep p (.stop override) { p with pc := .joining p.threads }
  | joins {override : Bool} {t : ThreadId} {left : List ThreadId}
      (hpc : p.pc = .joining (t :: left)) (hexited : (p.sched.worker t).pc = .exited) :
      ShutdownStep p (.stop override) { p with pc := .joining left }
  | returns {override : Bool} (hpc : p.pc = .joining []) :
      ShutdownStep p (.stop override) { p with pc := .returned }

theorem Shutdown.advance_eq_some {l : Label} (hadvance : p.advance l = some (o, p')) :
    ∃ s', Scheduler.step p.sched l = some (o, s') ∧ p' = p.after l s' p.pc := by
  obtain ⟨⟨o₁, s₁, h₁⟩, hrecorded, heq⟩ := Option.map_eq_some_iff.mp hadvance
  obtain ⟨⟨o₂, s₂⟩, hstep, hpair⟩ := Option.map_eq_some_iff.mp hrecorded
  simp only [Prod.mk.injEq] at hpair heq
  obtain ⟨rfl, rfl, rfl⟩ := hpair
  obtain ⟨rfl, rfl⟩ := heq
  exact ⟨s₂, hstep, rfl⟩

theorem shutdownStep_of_step (hstep : p.step l = some (o, p')) : ShutdownStep p l p' := by
  unfold Shutdown.step at hstep
  split_ifs at hstep
  cases l with
  | sched l =>
    simp only at hstep
    split_ifs at hstep with hmay
    obtain ⟨s', hsched, rfl⟩ := Shutdown.advance_eq_some hstep
    exact .sched hmay hsched
  | stop override =>
    simp only [Shutdown.stop] at hstep
    split at hstep
    · rename_i hpc
      obtain ⟨s', hsched, rfl⟩ := Shutdown.advance_eq_some hstep
      exact .setsAutoStops hpc hsched
    · rename_i hpc
      split_ifs at hstep with honly
      · obtain ⟨s', hsched, rfl⟩ := Shutdown.advance_eq_some hstep
        exact .hasRootOnly hpc honly.2 hsched
      · cases hstep
        exact .hasWork (Or.inl hpc)
    · rename_i hpc
      cases hstep
      split_ifs with hstop
      · exact .returnsEarly hpc (Bool.and_eq_true_iff.mp hstop).1
      · exact .hasWork (Or.inr hpc)
    · rename_i hpc
      obtain ⟨s', hsched, rfl⟩ := Shutdown.advance_eq_some hstep
      exact .setsStopping hpc hsched
    · rename_i hpc
      split_ifs at hstep with hcall
      · cases hstep
        exact .callsRoot hpc
      · cases hstep
        refine .passesRoot hpc ?_
        cases hroot : p.root with
        | none => exact Or.inl rfl
        | some r =>
          right
          simp only [hroot, Option.isSome_some, true_and, Bool.not_eq_false] at hcall
          exact (Bool.and_eq_true_iff.mp hcall).1
    · rename_i hpc
      split_ifs at hstep with hexited
      cases hstep
      exact .rootReturns hpc hexited
    · rename_i hpc
      cases hstep
      exact .returns hpc
    · rename_i hpc
      split_ifs at hstep with hexited
      cases hstep
      exact .joins hpc hexited
    · cases hstep

end Steps

section Drained

variable {p p' : Shutdown} {l : ShutdownLabel} {o : Event}

/-- The threads that are still to be joined, once `stop()` has come to `join()`. -/
def StopPc.left : StopPc → Option (List ThreadId)
  | .joining left => some left
  | .returned => some []
  | _ => none

/-- The root thread is a worker until `stop()` has called the root fiber, or passed it
over. -/
def Shutdown.Present (p : Shutdown) (t : ThreadId) : Prop :=
  p.root = some t → p.pc.left = none

/-- Thread `t` has been joined. -/
def Shutdown.Joined (p : Shutdown) (t : ThreadId) : Prop :=
  ∃ left ∈ p.pc.left, t ∉ left

structure Draining (p : Shutdown) : Prop where
  reached : recorded.Reachable (State.started (p.root.toList ++ p.threads), History.empty)
    (p.sched, p.history)
  any : ∀ e ∈ p.sched.fibers, e.thread = -1
  executed : Executed p.sched
  flagged : ∀ t, p.sched.Ended t → p.sched.autoStops = true
  uncalled : p.pc = .notCalled → p.sched.autoStops = false
  rootOnly : p.pc = .rootOnly → p.threads = []
  rootStill : ∀ r ∈ p.root, p.pc ≠ .rootRuns →
    (p.sched.worker r).pc = .loop ∨ (p.sched.worker r).pc = .exited
  joined : ∀ t ∈ p.threads, p.Joined t → (p.sched.worker t).pc = .exited
  attended : p.sched.fibers ≠ [] → ∃ t ∈ p.sched.threadIds, p.Present t ∧ ¬ p.sched.Leaving t

theorem reachable_threadIds {threadIds : List ThreadId} {s : State} {h : Tickets}
    (hreach : recorded.Reachable (State.started threadIds, History.empty) (s, h)) :
    s.threadIds = threadIds ∧ WellFormed s ∧ ∀ u, (s.worker u).ActiveOk := by
  refine hreach.invariant
    (I := fun x => x.1.threadIds = threadIds ∧ WellFormed x.1 ∧ ∀ u, (x.1.worker u).ActiveOk)
    ?_ ⟨rfl, started_wellFormed threadIds, fun _ => Worker.activeOk_start⟩
  rintro ⟨s₁, h₁⟩ l o ⟨s₂, h₂⟩ ⟨hids, hwf, hok⟩ hstep
  obtain ⟨⟨o', s'⟩, hs, heq⟩ := Option.map_eq_some_iff.mp hstep
  simp only [Prod.mk.injEq] at heq
  obtain ⟨_, rfl, rfl⟩ := heq
  have hperforms := performs_step hwf hok hs
  exact ⟨hperforms.ids.trans hids, hwf.step hs, hperforms.activeOk⟩

theorem Draining.ids (h : Draining p) : p.sched.threadIds = p.root.toList ++ p.threads :=
  (reachable_threadIds h.reached).1

theorem Draining.wellFormed (h : Draining p) : WellFormed p.sched :=
  (reachable_threadIds h.reached).2.1

theorem Draining.activeOk (h : Draining p) : ∀ u, (p.sched.worker u).ActiveOk :=
  (reachable_threadIds h.reached).2.2

theorem started_draining (root : Option ThreadId) (threads : List ThreadId) :
    Draining (Shutdown.started root threads) where
  reached := ⟨[], [], rfl⟩
  any := by simp [Shutdown.started, State.started]
  executed := started_executed _
  flagged := by simp [Shutdown.started, State.started, State.Ended, Worker.start, Fiber.new]
  uncalled _ := rfl
  rootOnly := by simp [Shutdown.started]
  rootStill _ _ _ := Or.inl rfl
  joined := by simp [Shutdown.started, Shutdown.Joined, StopPc.left]
  attended := by simp [Shutdown.started, State.started]

/-- A worker that is about to leave has found its idle fiber ended, or is gone. -/
theorem State.Leaving.ended {s : State} {t : ThreadId} (h : s.Leaving t) : s.Ended t :=
  h.imp id And.left

/-- While a call from outside may schedule, a worker will look at the queue. -/
theorem Draining.attends (h : Draining p) (hworkers : p.root.toList ++ p.threads ≠ [])
    (hcall : p.pc = .notCalled ∨ ∃ t ∈ p.sched.threadIds, (p.sched.worker t).pc.running = true) :
    ∃ t ∈ p.sched.threadIds, p.Present t ∧ ¬ p.sched.Leaving t := by
  rcases hcall with hpc | ⟨t, ht, hrunning⟩
  · obtain ⟨t, ht⟩ := List.exists_mem_of_ne_nil _ hworkers
    refine ⟨t, h.ids ▸ ht, fun _ => by rw [hpc]; rfl, fun hleaving => ?_⟩
    have hflag := h.flagged t hleaving.ended
    rw [h.uncalled hpc] at hflag
    cases hflag
  · have hslice : ∃ site, (p.sched.worker t).pc = .slice site .running := by
      cases hpc : (p.sched.worker t).pc with
      | slice site stage => cases stage <;> simp_all [Pc.running]
      | loop | scan | dispatch | spawn | drop | idleTest | idleEnter | exited =>
        simp [hpc, Pc.running] at hrunning
    obtain ⟨site, hslice⟩ := hslice
    refine ⟨t, ht, fun hroot => ?_, not_leaving_of_slice hslice⟩
    by_contra hpast
    have hpc : p.pc ≠ .rootRuns := by
      intro hruns
      rw [hruns] at hpast
      exact hpast rfl
    rcases h.rootStill t hroot hpc with hloop | hexited
    · rw [hslice] at hloop
      cases hloop
    · rw [hslice] at hexited
      cases hexited

/-- The parts of the invariant that a step of the scheduler keeps wherever `stop()` is. -/
theorem Draining.record {l : Label} {s' : State} {pc : StopPc} (h : Draining p)
    (hthread : ∀ fb thread, l = .schedule fb thread → thread = -1)
    (hidle : ∀ t, l = .endSlice t .returned →
      (p.sched.worker t).pc = .slice .idle .running → p.sched.autoStops = true)
    (hstep : step p.sched l = some (o, s'))
    (huncalled : pc = .notCalled → s'.autoStops = false)
    (hrootOnly : pc = .rootOnly → p.threads = [])
    (hrootStill : ∀ r ∈ p.root, pc ≠ .rootRuns →
      (s'.worker r).pc = .loop ∨ (s'.worker r).pc = .exited)
    (hjoined : ∀ t ∈ p.threads, (p.after l s' pc).Joined t → p.Joined t)
    (hattended : s'.fibers ≠ [] →
      ∃ t ∈ p.sched.threadIds, (p.after l s' pc).Present t ∧ ¬ s'.Leaving t) :
    Draining (p.after l s' pc) := by
  have hwf := h.wellFormed
  have hrecorded : recorded.step (p.sched, p.history) l =
      some (o, (s', Scheduler.record p.history s' (p.sched.effect l))) := by
    simp [recorded, hstep]
  refine ⟨h.reached.trans ⟨[l], [o], ?_⟩, ?_, h.executed.step hwf hstep, ?_, huncalled,
    hrootOnly, hrootStill, ?_, ?_⟩
  · exact recorded.run_cons_eq_some.mpr ⟨_, _, _, hrecorded, recorded.run_nil _, rfl⟩
  · intro e he
    rcases mem_fibers_of_step hwf h.activeOk hstep he with hold | hpush
    · exact h.any e hold
    · rcases hpush.thread with hany | ⟨fb, hl, _⟩
      · exact hany
      · exact hthread fb e.thread hl
  · intro t hended
    have hcalled := (ended_of_step hwf hidle hstep hended).elim (h.flagged t) id
    rcases autoStops_of_step hwf hstep with hsame | ⟨_, hset⟩
    · exact hsame.trans hcalled
    · exact hset
  · intro t ht hjoin
    have hexited := h.joined t ht (hjoined t ht hjoin)
    change (s'.worker t).pc = .exited
    rw [exited_of_step hwf hexited hstep]
    exact hexited
  · intro hne
    obtain ⟨t, ht, hpresent, hnot⟩ := hattended hne
    refine ⟨t, ?_, hpresent, hnot⟩
    change t ∈ s'.threadIds
    rw [(performs_step hwf h.activeOk hstep).ids]
    exact ht

theorem Draining.sched {l : Label} {s' : State} (h : Draining p)
    (hworkers : p.root.toList ++ p.threads ≠ []) (hmay : p.mayTake l)
    (horderly : Shutdown.Orderly p (.sched l)) (hstep : step p.sched l = some (o, s')) :
    Draining (p.after l s' p.pc) := by
  obtain ⟨hauto, _, hroot⟩ := hmay
  have hwf := h.wellFormed
  have hthread : ∀ fb thread, l = .schedule fb thread → thread = -1 := by
    rintro fb thread rfl
    exact horderly.1
  have hidle : ∀ t, l = .endSlice t .returned →
      (p.sched.worker t).pc = .slice .idle .running → p.sched.autoStops = true := by
    rintro t rfl hpc
    exact (horderly hpc).1
  have hcall : (∃ fb thread, l = .schedule fb thread) ∨ (∃ fbs, l = .scheduleAll fbs) →
      ∃ t ∈ p.sched.threadIds, p.Present t ∧ ¬ p.sched.Leaving t := by
    rintro (⟨fb, thread, rfl⟩ | ⟨fbs, rfl⟩)
    · exact h.attends hworkers horderly.2
    · exact h.attends hworkers horderly
  have hattended : Attended p.Present p.sched := by
    refine ⟨fun t _ hnot => ?_, h.attended⟩
    rw [Shutdown.Present, Classical.not_imp] at hnot
    refine h.rootStill t hnot.1 fun hruns => hnot.2 ?_
    rw [hruns]
    rfl
  have hmover : ∀ u ∈ l.mover, p.Present u := by
    intro u hu hrootu
    rw [hroot u hu hrootu]
    rfl
  refine h.record hthread hidle hstep ?_ h.rootOnly ?_ (fun _ _ => id)
    (hattended.step hwf h.activeOk h.executed h.any hmover hcall hstep)
  · intro hpc
    rcases autoStops_of_step hwf hstep with hsame | ⟨hl, _⟩
    · exact hsame.trans (h.uncalled hpc)
    · exact absurd hl hauto
  · intro r hr hpc
    rw [worker_of_not_mover hwf (fun hmem => hpc (hroot r hmem hr)) hstep]
    exact h.rootStill r hr hpc

/-- `stop()` sets a flag and goes on before it has come to `join()`. -/
theorem Draining.flag {l : Label} {s' : State} {pc : StopPc} (h : Draining p)
    (hl : l = .setAutoStops ∨ l = .setStopping) (hstep : step p.sched l = some (o, s'))
    (hpc : p.pc ≠ .rootRuns) (hpc' : pc.left = none ∧ pc ≠ .notCalled)
    (hrootOnly : pc = .rootOnly → p.threads = []) :
    Draining (p.after l s' pc) := by
  have hwf := h.wellFormed
  have hmover : l.mover = none := by rcases hl with rfl | rfl <;> rfl
  have hworker : s'.worker = p.sched.worker := step_still hstep hmover
  have hsame : s'.fibers = p.sched.fibers ∧ s'.fiber = p.sched.fiber := by
    rcases hl with rfl | rfl <;> cases processStep_of_step hstep <;> exact ⟨rfl, rfl⟩
  have hnotJoined : ∀ t, ¬ (p.after l s' pc).Joined t := by
    simp [Shutdown.Joined, Shutdown.after, hpc'.1]
  refine h.record ?_ ?_ hstep (fun heq => absurd heq hpc'.2) hrootOnly ?_
    (fun t _ hjoin => absurd hjoin (hnotJoined t)) ?_
  · rintro fb thread rfl
    rcases hl with hl | hl <;> cases hl
  · rintro t rfl
    rcases hl with hl | hl <;> cases hl
  · intro r hr _
    rw [hworker]
    exact h.rootStill r hr hpc
  · rw [hsame.1]
    intro hne
    obtain ⟨t, ht, _, hnot⟩ := h.attended hne
    refine ⟨t, ht, fun _ => hpc'.1, fun hleaving => hnot ?_⟩
    exact (State.Leaving.congr (by rw [hworker]) (by rw [hsame.2])).mp hleaving

theorem Draining.goto {pc : StopPc} (h : Draining p) (hpc : pc ≠ .notCalled ∧ pc ≠ .rootOnly)
    (hrootStill : ∀ r ∈ p.root, pc ≠ .rootRuns →
      (p.sched.worker r).pc = .loop ∨ (p.sched.worker r).pc = .exited)
    (hjoined : ∀ t ∈ p.threads, Shutdown.Joined { p with pc := pc } t →
      (p.sched.worker t).pc = .exited)
    (hpresent : p.sched.fibers ≠ [] → ∀ t, Shutdown.Present p t → ¬ p.sched.Leaving t →
      Shutdown.Present { p with pc := pc } t) :
    Draining { p with pc := pc } := by
  refine ⟨h.reached, h.any, h.executed, h.flagged, fun heq => absurd heq hpc.1,
    fun heq => absurd heq hpc.2, hrootStill, hjoined, fun hne => ?_⟩
  obtain ⟨t, ht, hbefore, hnot⟩ := h.attended hne
  exact ⟨t, ht, hpresent hne t hbefore hnot, hnot⟩

theorem Draining.allJoined (h : Draining p) (hleft : p.pc.left = some []) :
    ∀ t ∈ p.threads, (p.sched.worker t).pc = .exited :=
  fun t ht => h.joined t ht ⟨[], hleft, List.not_mem_nil⟩

theorem Shutdown.Present.not_root {left : List ThreadId} {t : ThreadId} (h : Shutdown.Present p t)
    (hleft : p.pc.left = some left) :
    t ∉ p.root := by
  intro hroot
  rw [h hroot] at hleft
  cases hleft

theorem not_joined_threads {t : ThreadId} (ht : t ∈ p.threads) :
    ¬ Shutdown.Joined { p with pc := .joining p.threads } t := by
  rintro ⟨left, hjoin, hnot⟩
  cases hjoin
  exact hnot ht

theorem Draining.step (h : Draining p) (hworkers : p.root.toList ++ p.threads ≠ [])
    (horderly : Shutdown.Orderly p l) (hstep : ShutdownStep p l p') :
    Draining p' := by
  cases hstep with
  | sched hmay hstep => exact h.sched hworkers hmay horderly hstep
  | setsAutoStops hpc hstep =>
    exact h.flag (Or.inl rfl) hstep (by simp [hpc]) (by simp [StopPc.left]) (by simp)
  | hasRootOnly hpc hthreads hstep =>
    exact h.flag (Or.inr rfl) hstep (by simp [hpc]) (by simp [StopPc.left]) fun _ => hthreads
  | setsStopping hpc hstep =>
    exact h.flag (Or.inr rfl) hstep (by simp [hpc]) (by simp [StopPc.left]) (by simp)
  | hasWork hpc =>
    refine h.goto (by simp) (fun r hr _ => h.rootStill r hr ?_) ?_ fun _ _ _ _ _ => rfl
    · rcases hpc with hpc | hpc <;> simp [hpc]
    · rintro t _ ⟨left, hjoin, _⟩
      cases hjoin
  | returnsEarly hpc hstop =>
    refine h.goto (by simp) (fun r hr _ => h.rootStill r hr (by simp [hpc])) ?_ ?_
    · intro t ht
      rw [h.rootOnly hpc] at ht
      cases ht
    · exact fun hne => absurd (stopping_eq_true hstop).1 hne
  | callsRoot hpc =>
    refine h.goto (by simp) (fun r hr _ => h.rootStill r hr (by simp [hpc])) ?_
      fun _ _ _ _ _ => rfl
    rintro t _ ⟨left, hjoin, _⟩
    cases hjoin
  | passesRoot hpc hskip =>
    refine h.goto (by simp) (fun r hr _ => h.rootStill r hr (by simp [hpc]))
      (fun t ht hjoin => absurd hjoin (not_joined_threads ht)) ?_
    rcases hskip with hnone | hstop
    · intro _ t _ _ hroot
      rw [hnone] at hroot
      cases hroot
    · exact fun hne => absurd (stopping_eq_true hstop).1 hne
  | rootReturns hpc hexited =>
    refine h.goto (by simp) (fun r hr _ => Or.inr (hexited r hr))
      (fun t ht hjoin => absurd hjoin (not_joined_threads ht)) ?_
    exact fun _ t _ hnot hroot => absurd (Or.inl (hexited t hroot)) hnot
  | @joins _ t left hpc hexited =>
    have hleft : p.pc.left = some (t :: left) := by rw [hpc]; rfl
    refine h.goto (by simp) (fun r hr _ => h.rootStill r hr (by simp [hpc])) ?_
      fun _ _ hpresent _ hroot => (hpresent.not_root hleft hroot).elim
    rintro u hu ⟨_, hjoin, hnot⟩
    cases hjoin
    by_cases hut : u = t
    · rw [hut]
      exact hexited
    · exact h.joined u hu ⟨_, hleft, by simp [hut, hnot]⟩
  | returns hpc =>
    have hleft : p.pc.left = some [] := by rw [hpc]; rfl
    exact h.goto (by simp) (fun r hr _ => h.rootStill r hr (by simp [hpc]))
      (fun u hu _ => h.allJoined hleft u hu)
      fun _ _ hpresent _ hroot => (hpresent.not_root hleft hroot).elim

theorem reachable_draining {root : Option ThreadId} {threads : List ThreadId}
    (hworkers : root.toList ++ threads ≠ [])
    (hreach : Shutdown.system.ReachableWhen Shutdown.Orderly (Shutdown.started root threads) p) :
    p.root = root ∧ p.threads = threads ∧ Draining p := by
  refine hreach.invariant
    (I := fun p => p.root = root ∧ p.threads = threads ∧ Draining p) ?_
    ⟨rfl, rfl, started_draining root threads⟩
  rintro p l o p' ⟨hroot, hthreads, h⟩ horderly hstep
  have hcases := shutdownStep_of_step hstep
  have hnext := h.step (by rwa [hroot, hthreads]) horderly hcases
  cases hcases <;> exact ⟨hroot, hthreads, hnext⟩

/-- When `stop()` has returned, every worker is out of `run` or has never entered it. -/
theorem Draining.out (h : Draining p) (hreturned : p.pc = .returned) :
    ∀ t ∈ p.sched.threadIds, (p.sched.worker t).pc = .loop ∨ (p.sched.worker t).pc = .exited := by
  intro t ht
  rw [h.ids, List.mem_append, Option.mem_toList] at ht
  rcases ht with hroot | ht
  · exact h.rootStill t hroot (by simp [hreturned])
  · exact Or.inr (h.allJoined (by rw [hreturned]; rfl) t ht)

/-- No worker is left that would look at the queue, so there is nothing in it. -/
theorem Draining.queue_empty (h : Draining p) (hreturned : p.pc = .returned) :
    p.sched.fibers = [] := by
  by_contra hne
  obtain ⟨t, ht, hpresent, hnot⟩ := h.attended hne
  rw [h.ids, List.mem_append, Option.mem_toList] at ht
  have hleft : p.pc.left = some [] := by rw [hreturned]; rfl
  rcases ht with hroot | ht
  · exact hpresent.not_root hleft hroot
  · exact hnot (Or.inl (h.allJoined hleft t ht))

theorem quiescent_of_out {s : State} (hqueue : s.fibers = [])
    (hout : ∀ t ∈ s.threadIds, (s.worker t).pc = .loop ∨ (s.worker t).pc = .exited) :
    Quiescent s := by
  refine ⟨hqueue, fun t ht => ?_, ?_⟩
  · rcases hout t ht with hpc | hpc <;> simp [Worker.holding, hpc]
  · rintro t ht f ⟨_, site, stage, hslice, _⟩
    rcases hout t ht with hpc | hpc
    · rw [hslice] at hpc
      cases hpc
    · rw [hslice] at hpc
      cases hpc

/--
**Shutdown.**  For any number of threads, with or without the calling thread as a worker,
and every interleaving of the workers with `stop()`: when `stop()` has returned, the
threads have left `run`, no runnable work is left, `m_activeThreadCount` is zero, and every
entry that was ever accepted by the queue has been taken by exactly one worker, which got
that entry.  Entries are for any thread, only code on a worker schedules once `stop()` has
been called, and no idle fiber returns before both flags are set.
-/
theorem stop_drains (root : Option ThreadId) (threads : List ThreadId)
    (hworkers : root.toList ++ threads ≠ [])
    (hint : ∀ t ∈ root.toList ++ threads, -2 ^ 31 ≤ t ∧ t < 2 ^ 31) (p : Shutdown)
    (hreach : Shutdown.system.ReachableWhen Shutdown.Orderly (Shutdown.started root threads) p)
    (hreturned : p.pc = .returned) :
    (∀ t ∈ threads, (p.sched.worker t).pc = .exited) ∧
      Quiescent p.sched ∧
      p.sched.activeThreadCount = 0 ∧
      (p.history.taken.map Prod.fst).Perm (List.range p.history.accepted.length) ∧
      ∀ k x, (k, x) ∈ p.history.taken →
        ∃ e, p.history.accepted[k]? = some e ∧ e.isFor x.1 ∧ x.2 = e := by
  obtain ⟨rfl, rfl, h⟩ := reachable_draining hworkers hreach
  have hqueue := h.queue_empty hreturned
  have hquiet := quiescent_of_out hqueue (h.out hreturned)
  have hconserving := reachable_conserving hint h.reached
  have hwaiting : p.history.waiting = [] := by
    have hshows := hconserving.queue
    rw [History.Shows, hqueue] at hshows
    simpa using hshows
  refine ⟨h.allJoined (by rw [hreturned]; rfl), hquiet, ?_, ?_,
    hconserving.taken⟩
  · rw [hconserving.active, Finset.card_eq_zero, State.holders, Finset.filter_eq_empty_iff]
    intro t ht
    simp [hquiet.running t (List.mem_toFinset.mp ht)]
  · have honce := hconserving.record.once
    rwa [hwaiting, List.nil_append] at honce

/-- `n` steps of the code of thread `t`. -/
def steps (t : ThreadId) (n : ℕ) : List ShutdownLabel :=
  List.replicate n (.sched (.advance t))

/-- Thread `t` scans the queue, takes a fiber and continues it. -/
def continues (t : ThreadId) : List ShutdownLabel :=
  .sched (.testStopping t true) :: steps t 5

/-- Thread 1 runs a fiber when `stop()` is called.  The fiber yields as `READY`, and
thread 2 leaves in the window before thread 1 puts it back. -/
def leavesInWindow : List ShutdownLabel :=
  [.sched .newFiber, .sched (.schedule (.fiber (some 0)) (-1))] ++ continues 1 ++
  List.replicate 4 (.stop true) ++
  .sched (.endSlice 1 .yieldToReady) :: steps 1 3 ++
  .sched (.testStopping 2 true) :: steps 1 2

/-- The fiber is continued by thread 1 and returns, and both threads are joined. -/
def joinsBoth : List ShutdownLabel :=
  continues 1 ++ .sched (.endSlice 1 .returned) :: steps 1 5 ++
  .sched (.testStopping 1 true) :: List.replicate 3 (.stop true)

theorem stop_drains_after_window :
    ∃ p, Shutdown.system.ReachableWhen Shutdown.Orderly (Shutdown.started none [1, 2]) p ∧
      p.pc = .returned ∧
      p.history.taken = [(1, 1, ⟨some 0, none, -1⟩), (0, 1, ⟨some 0, none, -1⟩)] ∧
      Quiescent p.sched ∧
      (p.history.taken.map Prod.fst).Perm (List.range p.history.accepted.length) := by
  obtain ⟨p, hreach, hreturned, htaken⟩ :=
    System.exists_reachableWhen (M := Shutdown.system) (P := Shutdown.Orderly)
      (Shutdown.started none [1, 2]) (leavesInWindow ++ joinsBoth)
      (fun p => p.pc = .returned ∧
        p.history.taken = [(1, 1, ⟨some 0, none, -1⟩), (0, 1, ⟨some 0, none, -1⟩)])
      (by decide +kernel)
  obtain ⟨_, hquiet, _, honce, _⟩ :=
    stop_drains none [1, 2] (by decide) (by decide) p hreach hreturned
  exact ⟨p, hreach, hreturned, htaken, hquiet, honce⟩

end Drained

end Scheduler
end Civan
