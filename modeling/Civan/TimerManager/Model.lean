import Mathlib.Tactic
import Civan.Lib.OrderedSet
import Civan.Lib.Transition
import Civan.Scheduler.Model

/-!
# Timers

`Timer` and `TimerManager`.  `m_timers` is a `std::set` of pointers whose comparator
reads `m_next` through the pointer, so the order of the set depends on the heap.

Each call is one step.  The clock, and the address of each new `Timer`, come from
outside; an address is not one that a timer in the set has.  A `Timer` whose address
is used again is a different timer: timers are numbered in the order of their creation.

Erasing `end()` ends the process.
-/

namespace Civan
namespace TimerManager

open Transition
open Scheduler (Callback)

/-- The number of a `Timer`. -/
abbrev TimerId := ℕ

/-- `Timer`, with its address. -/
structure Timer where
  recurring : Bool
  ms : UInt64
  next : UInt64
  cb : Option Callback
  addr : ℕ
deriving DecidableEq, Repr

/-- `Timer(ms, cb, recurring, manager)`. -/
def Timer.new (ms : UInt64) (cb : Option Callback) (recurring : Bool) (now : UInt64) (addr : ℕ) :
    Timer :=
  { recurring := recurring, ms := ms, next := now + ms, cb := cb, addr := addr }

/-- `Timer(next)`. -/
def Timer.probe (next : UInt64) (addr : ℕ) : Timer :=
  { recurring := false, ms := 0, next := next, cb := none, addr := addr }

/-- `Timer::Comparator`; `none` is a null pointer. -/
def comparator : Option Timer → Option Timer → Bool
  | none, none => false
  | none, some _ => true
  | some _, none => false
  | some lhs, some rhs =>
    if lhs.next < rhs.next then true
    else if rhs.next < lhs.next then false
    else decide (lhs.addr < rhs.addr)

/-- The timers and the fields of a `TimerManager`. -/
structure State where
  heap : TimerId → Timer
  allocated : ℕ
  timers : List TimerId
  tickled : Bool
  previousTime : UInt64

namespace State

/-- `TimerManager()`. -/
def init (now : UInt64) : State :=
  { heap := fun _ => .probe 0 0
    allocated := 0
    timers := []
    tickled := false
    previousTime := now }

/-- The order of `m_timers`. -/
def before (s : State) (lhs rhs : TimerId) : Bool :=
  comparator (some (s.heap lhs)) (some (s.heap rhs))

/-- Assignments to the fields of a timer. -/
def write (s : State) (id : TimerId) (t : Timer) : State :=
  { s with heap := Function.update s.heap id t }

/-- `m_timers.find`. -/
def find (s : State) (id : TimerId) : Option ℕ :=
  OrderedSet.find s.before id s.timers

/-- `m_timers.erase`, for an iterator. -/
def eraseAt (s : State) (it : ℕ) : State :=
  { s with timers := s.timers.eraseIdx it }

/-- `m_timers.insert`, which returns an iterator. -/
def insert (s : State) (id : TimerId) : ℕ × State :=
  let r := OrderedSet.insert s.before id s.timers
  (r.1, { s with timers := r.2 })

end State

/-- What ends the process. -/
inductive Failure where
  /-- `m_timers.erase(m_timers.end())`, line 47. -/
  | eraseEnd
deriving DecidableEq, Repr

/-- `addTimer(timer, lock)`; whether `onTimerInsertAtFront` is called. -/
def addTimerLocked (s : State) (id : TimerId) : Bool × State :=
  let r := s.insert id
  let atFront := decide (r.1 = 0) && !s.tickled
  (atFront, if atFront then { r.2 with tickled := true } else r.2)

/-- `TimerManager::addTimer`: the new timer, and whether it is the first in the set. -/
def addTimer (s : State) (ms : UInt64) (cb : Option Callback) (recurring : Bool)
    (now : UInt64) (addr : ℕ) :
    (TimerId × Bool) × State :=
  let id := s.allocated
  let s₁ := { s.write id (.new ms cb recurring now addr) with allocated := id + 1 }
  let r := addTimerLocked s₁ id
  ((id, r.1), r.2)

/-- `Timer::cancel`. -/
def cancel (s : State) (id : TimerId) : Except Failure (Bool × State) :=
  if (s.heap id).cb.isSome then
    let s₁ := s.write id { s.heap id with cb := none }
    match s₁.find id with
    | none => .error .eraseEnd
    | some it => .ok (true, s₁.eraseAt it)
  else
    .ok (false, s)

/-- `Timer::refresh`. -/
def refresh (s : State) (id : TimerId) (now : UInt64) : Bool × State :=
  if (s.heap id).cb.isNone then
    (false, s)
  else
    match s.find id with
    | none => (false, s)
    | some it =>
      let s₁ := s.eraseAt it
      let s₂ := s₁.write id { s.heap id with next := now + (s.heap id).ms }
      (true, (s₂.insert id).2)

/-- `Timer::reset`: what it returns, and whether the timer is the first in the set. -/
def reset (s : State) (id : TimerId) (ms : UInt64) (fromNow : Bool) (now : UInt64) :
    (Bool × Bool) × State :=
  let t := s.heap id
  if ms = t.ms ∧ fromNow = false then
    ((true, false), s)
  else if t.cb.isNone then
    ((false, false), s)
  else
    match s.find id with
    | none => ((false, false), s)
    | some it =>
      let s₁ := s.eraseAt it
      let start := if fromNow then now else t.next - t.ms
      let r := addTimerLocked (s₁.write id { t with ms := ms, next := ms + start }) id
      ((true, r.1), r.2)

/-- `TimerManager::getNextTimer`. -/
def getNextTimer (s : State) (now : UInt64) : UInt64 × State :=
  let s₁ := { s with tickled := false }
  match s.timers with
  | [] => (0 - 1, s₁)
  | next :: _ => if (s.heap next).next ≤ now then (0, s₁) else ((s.heap next).next - now, s₁)

/-- `TimerManager::detectClockRollover`. -/
def detectClockRollover (s : State) (now : UInt64) : Bool × State :=
  (decide (now < s.previousTime) && decide (now < s.previousTime - 60 * 60 * 1000),
    { s with previousTime := now })

/-- Lines 159 to 164 of `listExpiredCb`: the end of the range that has expired. -/
def expiredEnd (s : State) (rollover : Bool) (now : UInt64) (addr : ℕ) : ℕ :=
  let it :=
    if rollover then s.timers.length
    else
      OrderedSet.lowerBound
        (fun id => comparator (some (s.heap id)) (some (.probe now addr))) s.timers
  it + ((s.timers.drop it).takeWhile (fun id => (s.heap id).next = now)).length

/-- Lines 169 to 177: the callbacks of the expired timers, each with its timer. -/
def handOut (now : UInt64) : List TimerId → State → List (TimerId × Option Callback) × State
  | [], s => ([], s)
  | id :: expired, s =>
    let t := s.heap id
    let s₁ :=
      if t.recurring then ((s.write id { t with next := now + t.ms }).insert id).2
      else s.write id { t with cb := none }
    let r := handOut now expired s₁
    ((id, t.cb) :: r.1, r.2)

/-- `TimerManager::listExpiredCb`; `addr` is the address of `now_timer`. -/
def listExpiredCb (s : State) (now : UInt64) (addr : ℕ) :
    List (TimerId × Option Callback) × State :=
  match s.timers with
  | [] => ([], s)
  | first :: _ =>
    let r := detectClockRollover s now
    if !r.1 && decide (now < (s.heap first).next) then
      ([], r.2)
    else
      let it := expiredEnd r.2 r.1 now addr
      handOut now (s.timers.take it) { r.2 with timers := s.timers.drop it }

/-- What a call shows to the outside. -/
inductive Outcome where
  | added (id : TimerId) (atFront : Bool)
  | cancelled (id : TimerId) (returned : Bool)
  | refreshed (id : TimerId) (returned : Bool)
  | reset (id : TimerId) (returned : Bool) (atFront : Bool)
  | nextTimer (ms : UInt64)
  | expired (cbs : List (TimerId × Option Callback))
deriving DecidableEq, Repr

/-- The calls, each one step. -/
inductive Label where
  | addTimer (ms : UInt64) (cb : Option Callback) (recurring : Bool) (now : UInt64) (addr : ℕ)
  | cancel (id : TimerId)
  | refresh (id : TimerId) (now : UInt64)
  | reset (id : TimerId) (ms : UInt64) (fromNow : Bool) (now : UInt64)
  | getNextTimer (now : UInt64)
  | listExpiredCb (now : UInt64) (addr : ℕ)
deriving DecidableEq, Repr

/-- One call; `none` for a timer that does not exist or an address that is in use. -/
def call (s : State) : Label → Option (Except Failure (Outcome × State))
  | .addTimer ms cb recurring now addr =>
    if ∃ id ∈ s.timers, (s.heap id).addr = addr then
      none
    else
      let r := addTimer s ms cb recurring now addr
      some (.ok (.added r.1.1 r.1.2, r.2))
  | .cancel id =>
    if id < s.allocated then
      some ((cancel s id).map (fun r => (.cancelled id r.1, r.2)))
    else
      none
  | .refresh id now =>
    if id < s.allocated then
      let r := refresh s id now
      some (.ok (.refreshed id r.1, r.2))
    else
      none
  | .reset id ms fromNow now =>
    if id < s.allocated then
      let r := reset s id ms fromNow now
      some (.ok (.reset id r.1.1 r.1.2, r.2))
    else
      none
  | .getNextTimer now =>
    let r := getNextTimer s now
    some (.ok (.nextTimer r.1, r.2))
  | .listExpiredCb now addr =>
    let r := listExpiredCb s now addr
    some (.ok (.expired r.1, r.2))

/-- The timer manager as a transition system; a run stops at a failure. -/
def system : System State Label Outcome where
  step s l := (call s l).bind Except.toOption

end TimerManager
end Civan
