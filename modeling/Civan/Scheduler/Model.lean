import Mathlib.Tactic
import Civan.Lib.MachineInt
import Civan.Lib.Transition

/-!
# Scheduler workers and fibers

The run loop of `Scheduler::run` and the context switches of `Fiber`, as a step
relation over any number of worker threads.

Every critical section on `m_mutex`, every assignment to `Fiber::m_state`, every
test of it, every update of a counter and every context save or restore is one
step.  What the environment decides is in the label: which thread moves, when
some thread calls `schedule()`, and how the code running on a fiber ends its
slice.  A failed `CIVAN_ASSERT` stops the process.

Fibers are never freed here and their numbers never reused.  The body of a fiber
is arbitrary code, so only the end of each of its slices is visible.
-/

namespace Civan
namespace Scheduler

open Transition
open MachineInt

/-- What `GetThreadId()` returns; `-1` in a queue entry stands for any thread. -/
abbrev ThreadId := ℤ

/-- A fiber that is run as a task, by number of creation. -/
abbrev TaskId := ℕ

/-- A `std::function<void()>`, by number. -/
abbrev Callback := ℕ

/-- `Fiber::State`. -/
inductive FiberState where
  | init
  | hold
  | exec
  | term
  | ready
  | except
deriving DecidableEq, Repr

/-- The fibers a worker switches to: tasks, and the `idle_fiber` of its own `run`. -/
inductive FiberRef where
  | task (id : TaskId)
  | idle (thread : ThreadId)
deriving DecidableEq, Repr

/--
A fiber.  `saved` says that `m_ctx` holds the point where the fiber stands: set
by `makecontext` and by the save in `swapOut`, cleared when a worker continues
from it.  `finished` says that the point is the end of `MainFunc`.
-/
structure Fiber where
  state : FiberState
  saved : Bool
  finished : Bool
deriving DecidableEq, Repr

/-- The constructor `Fiber(cb)`, and what `Fiber::reset` leaves. -/
def Fiber.new : Fiber :=
  { state := .init, saved := true, finished := false }

/-- `m_state` is `TERM` or `EXCEPT`. -/
def Fiber.isDone (x : Fiber) : Bool :=
  x.state == .term || x.state == .except

/-- `Scheduler::FiberAndThread`. -/
structure FiberAndThread where
  fiber : Option TaskId
  cb : Option Callback
  thread : ThreadId
deriving DecidableEq, Repr

/-- The default constructor, and what `FiberAndThread::reset` leaves. -/
def FiberAndThread.empty : FiberAndThread :=
  { fiber := none, cb := none, thread := -1 }

/-- `it->fiber || it->cb`. -/
def FiberAndThread.nonNull (e : FiberAndThread) : Bool :=
  e.fiber.isSome || e.cb.isSome

/-- The argument of `schedule`: a fiber pointer or a callback, possibly null. -/
inductive FiberOrCb where
  | fiber (f : Option TaskId)
  | cb (c : Option Callback)
deriving DecidableEq, Repr

/-- The constructors of `FiberAndThread`. -/
def FiberAndThread.of : FiberOrCb → ThreadId → FiberAndThread
  | .fiber f, thread => { fiber := f, cb := none, thread := thread }
  | .cb c, thread => { fiber := none, cb := c, thread := thread }

/-- `Scheduler::scheduleNoLock`: `need_tickle` and the new queue. -/
def scheduleNoLock (fibers : List FiberAndThread) (fb : FiberOrCb) (thread : ThreadId) :
    Bool × List FiberAndThread :=
  let ft := FiberAndThread.of fb thread
  (fibers.isEmpty, if ft.nonNull then fibers ++ [ft] else fibers)

/-- The loop of the iterator form of `schedule`. -/
def scheduleAllNoLock (fibers : List FiberAndThread) :
    List FiberOrCb → Bool × List FiberAndThread
  | [] => (false, fibers)
  | fb :: fbs =>
    let first := scheduleNoLock fibers fb (-1)
    let rest := scheduleAllNoLock first.2 fbs
    (first.1 || rest.1, rest.2)

/-- What the scan of the queue finds. -/
structure Scan where
  taken : Option FiberAndThread
  rest : List FiberAndThread
  tickleMe : Bool
deriving DecidableEq, Repr

/-- Go past the entry `e`. -/
def Scan.skip
    (e : FiberAndThread) (tickle : Bool) (r : Scan) : Scan :=
  { r with rest := e :: r.rest, tickleMe := tickle || r.tickleMe }

/--
Lines 177 to 197 of `run`: the first entry for this thread whose fiber is not in
`EXEC`.  `none` when the assertion on line 185 fails.
-/
def takeEntry (self : ThreadId) (stateOf : TaskId → FiberState) :
    List FiberAndThread → Option Scan
  | [] => some { taken := none, rest := [], tickleMe := false }
  | e :: es =>
    if e.thread ≠ -1 ∧ e.thread ≠ self then
      (takeEntry self stateOf es).map (Scan.skip e true)
    else if e.nonNull = false then
      none
    else if e.fiber.any (fun f => stateOf f == .exec) then
      (takeEntry self stateOf es).map (Scan.skip e false)
    else
      some { taken := some e, rest := es, tickleMe := false }

/-- The call of `swapIn` a worker is in: line 205, 226 or 249 of `run`. -/
inductive Site where
  | entry (f : TaskId)
  | callback (f : TaskId)
  | idle
deriving DecidableEq, Repr

/-- The fiber switched to at a call site of thread `self`. -/
def Site.fiber (self : ThreadId) : Site → FiberRef
  | .entry f => .task f
  | .callback f => .task f
  | .idle => .idle self

/-- How far a worker is with one slice of a fiber. -/
inductive Stage where
  /-- `CIVAN_ASSERT(m_state != EXEC)` in `swapIn`. -/
  | assertNotExec
  /-- `m_state = EXEC` in `swapIn`. -/
  | setExec
  /-- `swapcontext` in `swapIn`, continuing from the context of the fiber. -/
  | restore
  /-- The code of the fiber runs. -/
  | running
  /-- First half of `swapcontext` in `swapOut`: the context of the fiber is saved. -/
  | save
  /-- Second half: the thread leaves the stack of the fiber. -/
  | switch
  /-- `--m_activeThreadCount`, or `--m_idleThreadCount` for the idle fiber. -/
  | release
  /-- `getState() == READY`. -/
  | testReady
  /-- The test for `TERM` and `EXCEPT` that follows. -/
  | testDone
  /-- `schedule(ft.fiber)` or `schedule(cb_fiber)`. -/
  | requeue
  /-- `m_state = HOLD` in `run`. -/
  | setHold
deriving DecidableEq, Repr

/-- Between the call of `swapIn` and the return of the `swapOut` that ends it. -/
def Stage.inside : Stage → Bool
  | .assertNotExec | .setExec | .restore | .running | .save | .switch => true
  | .release | .testReady | .testDone | .requeue | .setHold => false

/-- Where in `run` a worker is. -/
inductive Pc where
  /-- `while (!stopping())`. -/
  | loop
  /-- The critical section that takes an entry. -/
  | scan
  /-- The branch on what was taken, line 203. -/
  | dispatch
  /-- A callback was taken, line 218. -/
  | spawn
  /-- An entry with a finished fiber was taken, line 241. -/
  | drop
  /-- Nothing was taken, line 244. -/
  | idleTest
  /-- `++m_idleThreadCount`. -/
  | idleEnter
  /-- A slice of a fiber, and what `run` does after it. -/
  | slice (site : Site) (stage : Stage)
  /-- `run` has returned. -/
  | exited
deriving DecidableEq, Repr

/-- The local variables of one thread's `run`. -/
structure Worker where
  pc : Pc
  ft : FiberAndThread
  isActive : Bool
  cbFiber : Option TaskId
deriving DecidableEq, Repr

/-- A worker that enters the loop of `run`. -/
def Worker.start : Worker :=
  { pc := .loop, ft := .empty, isActive := false, cbFiber := none }

/-- The assertions of the modelled code. -/
inductive Assertion where
  /-- `it->fiber || it->cb`, scheduler.cc line 185. -/
  | entryNonNull
  /-- `m_state != EXEC`, fiber.cc line 117. -/
  | notExec
  /-- `m_state` is `TERM`, `INIT` or `EXCEPT`, fiber.cc line 79. -/
  | resettable
  /-- The end of `MainFunc`, fiber.cc line 217. -/
  | neverGetHere
deriving DecidableEq, Repr

/-- The scheduler, its workers and all fibers. -/
structure State where
  fibers : List FiberAndThread
  fiber : FiberRef → Fiber
  taskCount : ℕ
  threadIds : List ThreadId
  worker : ThreadId → Worker
  activeThreadCount : ℕ
  idleThreadCount : ℕ
  isStopping : Bool
  autoStops : Bool
  aborted : Option Assertion

/-- After `start()`: every worker is about to enter its loop. -/
def State.started (threadIds : List ThreadId) : State :=
  { fibers := []
    fiber := fun _ => Fiber.new
    taskCount := 0
    threadIds := threadIds
    worker := fun _ => Worker.start
    activeThreadCount := 0
    idleThreadCount := 0
    isStopping := false
    autoStops := false
    aborted := none }

namespace State

/-- Thread `t` goes on with the local variables `w`. -/
def setWorker (s : State) (t : ThreadId) (w : Worker) : State :=
  { s with worker := Function.update s.worker t w }

/-- The fiber `f` becomes `x`. -/
def setFiber (s : State) (f : FiberRef) (x : Fiber) : State :=
  { s with fiber := Function.update s.fiber f x }

/-- The assignment `m_state = st`. -/
def setState (s : State) (f : FiberRef) (st : FiberState) : State :=
  s.setFiber f { s.fiber f with state := st }

/-- `++m_activeThreadCount`. -/
def acquire (s : State) : State :=
  { s with activeThreadCount := (s.activeThreadCount + 1) % 2 ^ 64 }

/-- `--m_activeThreadCount`. -/
def release (s : State) : State :=
  { s with activeThreadCount := sizeSub s.activeThreadCount 1 }

/-- A failed assertion ends the process. -/
def abort (s : State) (a : Assertion) : State :=
  { s with aborted := some a }

/-- `Scheduler::stopping`. -/
def stopping (s : State) : Bool :=
  s.autoStops && s.isStopping && s.fibers.isEmpty && s.activeThreadCount == 0

/-- `new Fiber(cb)`: the next task. -/
def newFiber (s : State) : State :=
  { s.setFiber (.task s.taskCount) Fiber.new with taskCount := s.taskCount + 1 }

end State

/-- What a step shows to the outside. -/
inductive Event where
  | internal
  /-- A critical section of `schedule()`, with `need_tickle`. -/
  | scheduled (needTickle : Bool)
  /-- The critical section of `run`, with `tickle_me`. -/
  | scanned (thread : ThreadId) (taken : Option FiberAndThread) (tickleMe : Bool)
  /-- A thread continues a fiber. -/
  | resumed (thread : ThreadId) (f : FiberRef)
deriving DecidableEq, Repr

/-- How the code on a fiber gives the thread back. -/
inductive SliceEnd where
  /-- `YieldToReady()`. -/
  | yieldToReady
  /-- `YieldToHold()`. -/
  | yieldToHold
  /-- `swapOut()` alone, as `IOManager::idle` does; `m_state` stays `EXEC`. -/
  | swapOut
  /-- The callback of the fiber returned. -/
  | returned
  /-- The callback of the fiber threw. -/
  | threw
deriving DecidableEq, Repr

/-- What the fiber is when `swapOut` is called. -/
def SliceEnd.leave (x : Fiber) : SliceEnd → Fiber
  | .yieldToReady => { x with state := .ready }
  | .yieldToHold => { x with state := .hold }
  | .swapOut => x
  | .returned => { x with state := .term, finished := true }
  | .threw => { x with state := .except, finished := true }

/-- The steps: calls from any thread, and the moves of the workers. -/
inductive Label where
  /-- Some code makes a fiber. -/
  | newFiber
  /-- Some code calls `schedule(fb, thread)`. -/
  | schedule (fb : FiberOrCb) (thread : ThreadId)
  /-- Some code calls `schedule(begin, end)`. -/
  | scheduleAll (fbs : List FiberOrCb)
  /-- `m_autoStops = true` in `stop()`. -/
  | setAutoStops
  /-- `m_stopping = true` in `stop()`. -/
  | setStopping
  /-- The loop test of a worker; an override of `stopping()` may ask for more. -/
  | testStopping (thread : ThreadId) (override : Bool)
  /-- The next step of a worker's own code. -/
  | advance (thread : ThreadId)
  /-- The fiber running on a worker ends its slice. -/
  | endSlice (thread : ThreadId) (how : SliceEnd)
deriving DecidableEq, Repr

/-- The branches on lines 203, 217 and 240. -/
def dispatch (s : State) (w : Worker) : Pc :=
  let other : Pc :=
    if w.ft.cb.isSome then .spawn else if w.isActive then .drop else .idleTest
  match w.ft.fiber with
  | some f => if (s.fiber (.task f)).isDone then other else .slice (.entry f) .assertNotExec
  | none => other

/-- The local variables when `run` is done with a slice and loops. -/
def Worker.endSite (w : Worker) : Site → Worker
  | .entry _ => { w with pc := .loop, ft := .empty }
  | .callback _ => { w with pc := .loop, cbFiber := none }
  | .idle => { w with pc := .loop }

/-- Lines 218 to 224: the fiber that is to run the callback. -/
def spawn (s : State) (t : ThreadId) (w : Worker) : State :=
  match w.cbFiber with
  | some c =>
    let x := s.fiber (.task c)
    -- Fiber::reset
    if x.state = .term ∨ x.state = .init ∨ x.state = .except then
      (s.setFiber (.task c) Fiber.new).setWorker t
        { w with pc := .slice (.callback c) .assertNotExec, ft := .empty }
    else
      s.abort .resettable
  | none =>
    s.newFiber.setWorker t
      { w with
        pc := .slice (.callback s.taskCount) .assertNotExec
        ft := .empty
        cbFiber := some s.taskCount }

/-- One step of a slice: `swapIn`, `swapOut` and what `run` does after them. -/
def advanceSlice (s : State) (t : ThreadId) (w : Worker) (site : Site) :
    Stage → Option (Event × State)
  | .assertNotExec =>
    if (s.fiber (site.fiber t)).state = .exec then
      some (.internal, s.abort .notExec)
    else
      some (.internal, s.setWorker t { w with pc := .slice site .setExec })
  | .setExec =>
    some (.internal,
      (s.setState (site.fiber t) .exec).setWorker t { w with pc := .slice site .restore })
  | .restore =>
    let x := s.fiber (site.fiber t)
    if x.finished then
      some (.resumed t (site.fiber t), s.abort .neverGetHere)
    else
      some (.resumed t (site.fiber t),
        (s.setFiber (site.fiber t) { x with saved := false }).setWorker t
          { w with pc := .slice site .running })
  | .running => none
  | .save =>
    some (.internal,
      (s.setFiber (site.fiber t) { s.fiber (site.fiber t) with saved := true }).setWorker t
        { w with pc := .slice site .switch })
  | .switch => some (.internal, s.setWorker t { w with pc := .slice site .release })
  | .release =>
    match site with
    | .idle =>
      some (.internal,
        { s with idleThreadCount := sizeSub s.idleThreadCount 1 }.setWorker t
          { w with pc := .slice site .testDone })
    | _ => some (.internal, s.release.setWorker t { w with pc := .slice site .testReady })
  | .testReady =>
    some (.internal, s.setWorker t
      { w with
        pc := .slice site
          (if (s.fiber (site.fiber t)).state = .ready then .requeue else .testDone) })
  | .testDone =>
    if (s.fiber (site.fiber t)).isDone then
      some (.internal, s.setWorker t (w.endSite site))
    else
      some (.internal, s.setWorker t { w with pc := .slice site .setHold })
  | .requeue =>
    match site with
    | .entry f | .callback f =>
      let r := scheduleNoLock s.fibers (.fiber (some f)) (-1)
      some (.scheduled r.1, { s with fibers := r.2 }.setWorker t (w.endSite site))
    | .idle => none
  | .setHold => some (.internal, (s.setState (site.fiber t) .hold).setWorker t (w.endSite site))

/-- One step of a worker's own code. -/
def advance (s : State) (t : ThreadId) : Option (Event × State) :=
  let w := s.worker t
  match w.pc with
  | .loop | .exited => none
  | .scan =>
    match takeEntry t (fun f => (s.fiber (.task f)).state) s.fibers with
    | none => some (.internal, s.abort .entryNonNull)
    | some r =>
      match r.taken with
      | none => some (.scanned t none r.tickleMe, s.setWorker t { w with pc := .dispatch })
      | some e =>
        some (.scanned t (some e) r.tickleMe,
          { s.acquire with fibers := r.rest }.setWorker t
            { w with pc := .dispatch, ft := e, isActive := true })
  | .dispatch => some (.internal, s.setWorker t { w with pc := dispatch s w })
  | .spawn => some (.internal, spawn s t w)
  | .drop => some (.internal, s.release.setWorker t { w with pc := .loop })
  | .idleTest =>
    if (s.fiber (.idle t)).state = .term then
      some (.internal, s.setWorker t { w with pc := .exited })
    else
      some (.internal, s.setWorker t { w with pc := .idleEnter })
  | .idleEnter =>
    some (.internal,
      { s with idleThreadCount := (s.idleThreadCount + 1) % 2 ^ 64 }.setWorker t
        { w with pc := .slice .idle .assertNotExec })
  | .slice site stage => advanceSlice s t w site stage

/-- `while (!stopping())` and the resets at the head of the loop body. -/
def testStopping (s : State) (t : ThreadId) (override : Bool) : Option (Event × State) :=
  let w := s.worker t
  if w.pc = .loop then
    if s.stopping && override then
      some (.internal, s.setWorker t { w with pc := .exited })
    else
      some (.internal, s.setWorker t { w with pc := .scan, ft := .empty, isActive := false })
  else
    none

/-- The assignment to `m_state` before the `swapOut` that ends a slice. -/
def endSlice (s : State) (t : ThreadId) (how : SliceEnd) : Option (Event × State) :=
  let w := s.worker t
  match w.pc with
  | .slice site .running =>
    some (.internal,
      (s.setFiber (site.fiber t) (how.leave (s.fiber (site.fiber t)))).setWorker t
        { w with pc := .slice site .save })
  | _ => none

/-- The argument of `schedule()` is null or a fiber that exists. -/
def FiberOrCb.known (s : State) : FiberOrCb → Bool
  | .fiber (some f) => decide (f < s.taskCount)
  | _ => true

/-- One step of the whole process. -/
def step (s : State) (l : Label) : Option (Event × State) :=
  if s.aborted.isSome then
    none
  else
    match l with
    | .newFiber => some (.internal, s.newFiber)
    | .schedule fb thread =>
      if fb.known s then
        let r := scheduleNoLock s.fibers fb thread
        some (.scheduled r.1, { s with fibers := r.2 })
      else
        none
    | .scheduleAll fbs =>
      if fbs.all (FiberOrCb.known s) then
        let r := scheduleAllNoLock s.fibers fbs
        some (.scheduled r.1, { s with fibers := r.2 })
      else
        none
    | .setAutoStops => some (.internal, { s with autoStops := true })
    | .setStopping => some (.internal, { s with isStopping := true })
    | .testStopping t override => if t ∈ s.threadIds then testStopping s t override else none
    | .advance t => if t ∈ s.threadIds then advance s t else none
    | .endSlice t how => if t ∈ s.threadIds then endSlice s t how else none

/-- The scheduler as a transition system. -/
def system : System State Label Event where
  step := step

end Scheduler
end Civan
