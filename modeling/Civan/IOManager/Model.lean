import Mathlib.Tactic
import Civan.Lib.MachineInt
import Civan.Lib.Transition
import Civan.Scheduler.Model

/-!
# Event registrations of the IO manager

`addEvent`, `delEvent`, `cancelEvent`, `cancelAll` and one turn of the dispatch
loop of `idle`, each split as in the source: the lookup in `m_fdContexts`, the
test of `events` made without the lock, and the section under `fd_ctx->mutex`.

An `FdContext*` is a descriptor with a generation: `m_fdContexts[i]` always points
to a context made for descriptor `i`, and a context that a shrinking table drops
is not freed, so the kernel can still hand its address back.

Whether an `epoll_ctl` that the kernel could accept does succeed is decided from
outside.  A failed assertion, a null scheduler and an index outside the table end
the process.
-/

namespace Civan
namespace IOManager

open Transition
open MachineInt
open Scheduler (TaskId Callback FiberState FiberOrCb)

/-- A `Scheduler*`. -/
abbrev SchedulerId := ℕ

/-- The two values of `IOManager::Event` with a context. -/
inductive Event where
  | read
  | write
deriving DecidableEq, Repr

/-- The bits of an `Event` mask; `READ` is `EPOLLIN` and `WRITE` is `EPOLLOUT`. -/
@[ext] structure EventMask where
  read : Bool
  write : Bool
deriving DecidableEq, Repr

namespace EventMask

/-- `NONE`. -/
def none : EventMask :=
  { read := false, write := false }

/-- `events & event`. -/
def has (m : EventMask) : Event → Bool
  | .read => m.read
  | .write => m.write

/-- `events | event`. -/
def insert (m : EventMask) : Event → EventMask
  | .read => { m with read := true }
  | .write => { m with write := true }

/-- `events & ~event`. -/
def erase (m : EventMask) : Event → EventMask
  | .read => { m with read := false }
  | .write => { m with write := false }

/-- `events & other`. -/
def inter (m other : EventMask) : EventMask :=
  { read := m.read && other.read, write := m.write && other.write }

/-- `events & ~other`. -/
def diff (m other : EventMask) : EventMask :=
  { read := m.read && !other.read, write := m.write && !other.write }

/-- Number of bits set. -/
def count (m : EventMask) : ℕ :=
  m.read.toNat + m.write.toNat

end EventMask

/-- `FdContext::EventContext`. -/
structure EventContext where
  scheduler : Option SchedulerId
  fiber : Option TaskId
  cb : Option Callback
deriving DecidableEq, Repr

/-- A new context, and what `resetContext` leaves. -/
def EventContext.empty : EventContext :=
  { scheduler := none, fiber := none, cb := none }

/-- A waiter: the call `scheduler->schedule(task)` that is to be made. -/
structure Wakeup where
  scheduler : Option SchedulerId
  task : FiberOrCb
deriving DecidableEq, Repr

/-- Whom a context waits for: its callback, else its fiber. -/
def EventContext.waiters (x : EventContext) : List Wakeup :=
  match x.cb, x.fiber with
  | some f, _ => [{ scheduler := x.scheduler, task := .cb (some f) }]
  | none, some f => [{ scheduler := x.scheduler, task := .fiber (some f) }]
  | none, none => []

/-- `IOManager::FdContext`. -/
structure FdContext where
  read : EventContext
  write : EventContext
  events : EventMask
deriving DecidableEq, Repr

namespace FdContext

/-- `new FdContext`. -/
def new : FdContext :=
  { read := .empty, write := .empty, events := .none }

/-- `FdContext::getContext`. -/
def getContext (c : FdContext) : Event → EventContext
  | .read => c.read
  | .write => c.write

/-- An assignment to `getContext(event)`. -/
def setContext (c : FdContext) (x : EventContext) : Event → FdContext
  | .read => { c with read := x }
  | .write => { c with write := x }

end FdContext

/-- What ends the process. -/
inductive Failure where
  /-- `!(fd_ctx->events & event)`, line 115. -/
  | alreadyRegistered
  /-- `!event_ctx.scheduler && !event_ctx.fiber && !event_ctx.cb`, line 134. -/
  | contextInUse
  /-- `event_ctx.fiber->getState() == Fiber::EXEC`, line 142. -/
  | fiberNotExec
  /-- `events & event` in `triggerEvent`, line 34. -/
  | notRegistered
  /-- `ctx.scheduler->schedule` with a null scheduler. -/
  | nullScheduler
  /-- `m_fdContexts[fd]` outside the table. -/
  | outOfBounds
deriving DecidableEq, Repr

/-- `FdContext::triggerEvent`: the call of `schedule` and the context after it. -/
def triggerEvent (c : FdContext) (event : Event) :
    Except Failure (List Wakeup × FdContext) :=
  if c.events.has event = false then
    .error .notRegistered
  else
    let c' := { c with events := c.events.erase event }
    let ctx := c.getContext event
    match ctx.scheduler with
    | none => .error .nullScheduler
    | some sch =>
      -- the argument is swapped into the queue entry; a null one is not queued
      match ctx.cb with
      | some f =>
        .ok ([{ scheduler := some sch, task := .cb (some f) }],
          c'.setContext { ctx with cb := none, scheduler := none } event)
      | none =>
        .ok (ctx.fiber.toList.map
            (fun f => { scheduler := some sch, task := .fiber (some f) }),
          c'.setContext { ctx with fiber := none, scheduler := none } event)

/-- An `FdContext*`. -/
structure FdPtr where
  fd : ℕ
  generation : ℕ
deriving DecidableEq, Repr

/-- What epoll keeps for a descriptor: the interest set and `data.ptr`. -/
structure Registration where
  events : EventMask
  data : FdPtr
deriving DecidableEq, Repr

/-- The operations of `epoll_ctl`. -/
inductive CtlOp where
  | add
  | mod
  | del
deriving DecidableEq, Repr

/--
`epoll_ctl`: the new interest list, or `none` for an error.  `EPOLL_CTL_ADD` needs a
descriptor that is not registered, the other two one that is; beyond that the call
may fail or not.
-/
def epollCtl (kernel : ℕ → Option Registration)
    (op : CtlOp) (fd : ℕ) (reg : Registration) (succeeds : Bool) :
    Option (ℕ → Option Registration) :=
  match op with
  | .add =>
    if succeeds ∧ (kernel fd).isNone then some (Function.update kernel fd (some reg))
    else none
  | .mod =>
    if succeeds ∧ (kernel fd).isSome then some (Function.update kernel fd (some reg))
    else none
  | .del =>
    if succeeds ∧ (kernel fd).isSome then some (Function.update kernel fd none)
    else none

/-- The event state of an IO manager and of its epoll instance. -/
structure State where
  size : ℕ
  generation : ℕ → ℕ
  ctx : FdPtr → FdContext
  kernel : ℕ → Option Registration
  pendingEventCount : ℕ

/-- After the constructor, which makes 64 contexts. -/
def State.init : State :=
  { size := 64
    generation := fun _ => 0
    ctx := fun _ => .new
    kernel := fun _ => none
    pendingEventCount := 0 }

/-- `m_fdContexts[i]`. -/
def State.ptr (s : State) (i : ℕ) : FdPtr :=
  { fd := i, generation := s.generation i }

/-- `*m_fdContexts[i]`. -/
def State.context (s : State) (i : ℕ) : FdContext :=
  s.ctx (s.ptr i)

/-- `IOManager::contextResize`; entries cut off are made anew when the table grows. -/
def contextResize (s : State) (size : ℕ) : State :=
  { s with
    size := size
    generation := fun i =>
      if size ≤ i ∧ i < s.size then s.generation i + 1 else s.generation i }

/-- What a call shows to the outside. -/
structure Outcome where
  /-- The call returned `0` or `true`. -/
  returned : Bool
  registered : List Wakeup
  woken : List Wakeup
  /-- The waiters that `resetContext` let go. -/
  dropped : List Wakeup
deriving DecidableEq, Repr

/-- A call that schedules no one. -/
def Outcome.quiet (returned : Bool) : Outcome :=
  { returned := returned, registered := [], woken := [], dropped := [] }

/-- The thread that calls `addEvent`: `Scheduler::GetThis()` and `Fiber::GetThis()`. -/
structure Caller where
  scheduler : Option SchedulerId
  fiber : TaskId
  fiberState : FiberState
deriving DecidableEq, Repr

/-- Lines 137 to 141: what `addEvent` stores in the event context. -/
def Caller.context (caller : Caller) : Option Callback → EventContext
  | some f => { scheduler := caller.scheduler, fiber := none, cb := some f }
  | none => { scheduler := caller.scheduler, fiber := some caller.fiber, cb := none }

/-- Lines 99 to 108 of `addEvent`: the context, after growing the table if needed. -/
def contextFor (s : State) (fd : ℤ) : Except Failure (FdPtr × State) :=
  if fd < 0 then
    .error .outOfBounds
  else if fd < toInt32 s.size then
    .ok (s.ptr fd.toNat, s)
  else
    let s' := contextResize s (3 * fd.toNat / 2)
    if fd.toNat < s'.size then .ok (s'.ptr fd.toNat, s') else .error .outOfBounds

/-- Lines 110 to 145 of `addEvent`, under `fd_ctx->mutex`. -/
def addLocked (s : State) (p : FdPtr) (event : Event)
    (cb : Option Callback) (caller : Caller) (succeeds : Bool) :
    Except Failure (Outcome × State) :=
  let c := s.ctx p
  if c.events.has event then
    .error .alreadyRegistered
  else
    let op := if c.events = .none then CtlOp.add else .mod
    let events := c.events.insert event
    match epollCtl s.kernel op p.fd { events := events, data := p } succeeds with
    | none => .ok (.quiet false, s)
    | some kernel =>
      if c.getContext event ≠ .empty then
        .error .contextInUse
      else if cb = none ∧ caller.fiberState ≠ .exec then
        .error .fiberNotExec
      else
        let ctx := caller.context cb
        .ok ({ returned := true, registered := ctx.waiters, woken := [], dropped := [] },
          { s with
            kernel := kernel
            pendingEventCount := (s.pendingEventCount + 1) % 2 ^ 64
            ctx := Function.update s.ctx p ({ c with events := events }.setContext ctx event) })

/-- `IOManager::addEvent`. -/
def addEvent (s : State) (fd : ℤ) (event : Event)
    (cb : Option Callback) (caller : Caller) (succeeds : Bool) :
    Except Failure (Outcome × State) :=
  match contextFor s fd with
  | .error e => .error e
  | .ok (p, s') => addLocked s' p event cb caller succeeds

/-- The lookup of `delEvent`, `cancelEvent` and `cancelAll`; `none` is `return false`. -/
def lookup (s : State) (fd : ℤ) : Except Failure (Option FdPtr) :=
  if toInt32 s.size ≤ fd then .ok none
  else if fd < 0 then .error .outOfBounds
  else .ok (some (s.ptr fd.toNat))

/-- The `epoll_ctl` that leaves the interest set `left`. -/
def eraseRegistration (kernel : ℕ → Option Registration)
    (p : FdPtr) (left : EventMask) (succeeds : Bool) :
    Option (ℕ → Option Registration) :=
  let op := if left = .none then CtlOp.del else .mod
  epollCtl kernel op p.fd { events := left, data := p } succeeds

/-- Lines 159 to 180 of `delEvent`, under `fd_ctx->mutex`. -/
def delLocked (s : State) (p : FdPtr) (event : Event) (succeeds : Bool) :
    Except Failure (Outcome × State) :=
  let c := s.ctx p
  let newEvent := c.events.erase event
  match eraseRegistration s.kernel p newEvent succeeds with
  | none => .ok (.quiet false, s)
  | some kernel =>
    .ok ({ Outcome.quiet true with dropped := (c.getContext event).waiters },
      { s with
        kernel := kernel
        pendingEventCount := sizeSub s.pendingEventCount 1
        ctx := Function.update s.ctx p
          ({ c with events := newEvent }.setContext .empty event) })

/-- `fd_ctx->triggerEvent(event)` and `--m_pendingEventCount`. -/
def trigger (s : State) (p : FdPtr) (event : Event) :
    Except Failure (List Wakeup × State) :=
  match triggerEvent (s.ctx p) event with
  | .error e => .error e
  | .ok (woken, c) =>
    .ok (woken,
      { s with
        ctx := Function.update s.ctx p c
        pendingEventCount := sizeSub s.pendingEventCount 1 })

/-- Lines 196 to 213 of `cancelEvent`, under `fd_ctx->mutex`. -/
def cancelLocked (s : State) (p : FdPtr) (event : Event) (succeeds : Bool) :
    Except Failure (Outcome × State) :=
  match eraseRegistration s.kernel p ((s.ctx p).events.erase event) succeeds with
  | none => .ok (.quiet false, s)
  | some kernel =>
    match trigger { s with kernel := kernel } p event with
    | .error e => .error e
    | .ok (woken, s') => .ok ({ Outcome.quiet true with woken := woken }, s')

/-- The calls that look up a context, test its mask and then lock it. -/
def whenRegistered (s : State) (fd : ℤ) (test : EventMask → Bool)
    (locked : FdPtr → Except Failure (Outcome × State)) :
    Except Failure (Outcome × State) :=
  match lookup s fd with
  | .error e => .error e
  | .ok none => .ok (.quiet false, s)
  | .ok (some p) => if test (s.ctx p).events then locked p else .ok (.quiet false, s)

/-- `IOManager::delEvent`. -/
def delEvent (s : State) (fd : ℤ) (event : Event) (succeeds : Bool) :
    Except Failure (Outcome × State) :=
  whenRegistered s fd (fun m => m.has event) (fun p => delLocked s p event succeeds)

/-- `IOManager::cancelEvent`. -/
def cancelEvent (s : State) (fd : ℤ) (event : Event) (succeeds : Bool) :
    Except Failure (Outcome × State) :=
  whenRegistered s fd (fun m => m.has event) (fun p => cancelLocked s p event succeeds)

/-- `trigger` when the mask has the bit, as the branches of `cancelAll` and `idle` do. -/
def triggerIf (s : State) (p : FdPtr) (test : Bool) (event : Event) :
    Except Failure (List Wakeup × State) :=
  if test then trigger s p event else .ok ([], s)

/-- Lines 227 to 251 of `cancelAll`, under `fd_ctx->mutex`. -/
def cancelAllLocked (s : State) (p : FdPtr) (succeeds : Bool) :
    Except Failure (Outcome × State) :=
  match epollCtl s.kernel .del p.fd { events := .none, data := p } succeeds with
  | none => .ok (.quiet false, s)
  | some kernel =>
    match triggerIf { s with kernel := kernel } p (s.ctx p).events.read .read with
    | .error e => .error e
    | .ok (woken, s₁) =>
      -- the branch for WRITE triggers READ
      match triggerIf s₁ p (s₁.ctx p).events.write .read with
      | .error e => .error e
      | .ok (woken', s₂) => .ok ({ Outcome.quiet true with woken := woken ++ woken' }, s₂)

/-- `IOManager::cancelAll`. -/
def cancelAll (s : State) (fd : ℤ) (succeeds : Bool) :
    Except Failure (Outcome × State) :=
  whenRegistered s fd (fun m => m ≠ .none) (fun p => cancelAllLocked s p succeeds)

/-- The bits of an `epoll_event` that `idle` looks at. -/
structure Report where
  epollIn : Bool
  epollOut : Bool
  epollErr : Bool
  epollHup : Bool
deriving DecidableEq, Repr

/-- Lines 328 to 337: `real_events`. -/
def Report.realEvents (r : Report) (events : EventMask) : EventMask :=
  if r.epollErr || r.epollHup then
    { read := r.epollIn || events.read, write := r.epollOut || events.write }
  else
    { read := r.epollIn, write := r.epollOut }

/-- Lines 355 to 362: the triggers for `real_events`. -/
def triggerReal (s : State) (p : FdPtr) (realEvents : EventMask) :
    Except Failure (List Wakeup × State) :=
  match triggerIf s p realEvents.read .read with
  | .error e => .error e
  | .ok (woken, s₁) =>
    match triggerIf s₁ p realEvents.write .write with
    | .error e => .error e
    | .ok (woken', s₂) => .ok (woken ++ woken', s₂)

/-- Lines 327 to 362: one turn of the dispatch loop, under `fd_ctx->mutex`. -/
def dispatch (s : State) (p : FdPtr) (report : Report) (succeeds : Bool) :
    Except Failure (Outcome × State) :=
  let events := (s.ctx p).events
  let realEvents := report.realEvents events
  if events.inter realEvents = .none then
    .ok (.quiet true, s)
  else
    match eraseRegistration s.kernel p (events.diff realEvents) succeeds with
    | none => .ok (.quiet true, s)
    | some kernel =>
      match triggerReal { s with kernel := kernel } p realEvents with
      | .error e => .error e
      | .ok (woken, s') => .ok ({ Outcome.quiet true with woken := woken }, s')

/-- A report that epoll can deliver for an interest set. -/
def Report.within (r : Report) (interest : EventMask) : Prop :=
  (r.epollIn = true → interest.read = true) ∧ (r.epollOut = true → interest.write = true)

instance (r : Report) (interest : EventMask) : Decidable (r.within interest) := by
  unfold Report.within
  infer_instance

/-- The calls, each run to completion. -/
inductive Label where
  | addEvent (fd : ℤ) (event : Event) (cb : Option Callback) (caller : Caller) (succeeds : Bool)
  | delEvent (fd : ℤ) (event : Event) (succeeds : Bool)
  | cancelEvent (fd : ℤ) (event : Event) (succeeds : Bool)
  | cancelAll (fd : ℤ) (succeeds : Bool)
  /-- The dispatcher handles a report for `fd`. -/
  | dispatch (fd : ℕ) (report : Report) (succeeds : Bool)
deriving DecidableEq, Repr

/-- One call; a report is for a registered descriptor and within its interest set. -/
def call (s : State) : Label → Option (Except Failure (Outcome × State))
  | .addEvent fd event cb caller succeeds => some (addEvent s fd event cb caller succeeds)
  | .delEvent fd event succeeds => some (delEvent s fd event succeeds)
  | .cancelEvent fd event succeeds => some (cancelEvent s fd event succeeds)
  | .cancelAll fd succeeds => some (cancelAll s fd succeeds)
  | .dispatch fd report succeeds =>
    match s.kernel fd with
    | none => none
    | some reg =>
      if report.within reg.events then some (dispatch s reg.data report succeeds) else none

/-- The IO manager as a transition system; a run stops at a failure. -/
def system : System State Label Outcome where
  step s l := (call s l).bind Except.toOption

end IOManager
end Civan
