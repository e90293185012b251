import Civan.IOManager.Context

/-!
# What event registrations are for

The purpose of the IO manager's bookkeeping, without masks, contexts, counters and
the kernel: a table of who waits for which event of which descriptor.  A waiter
enters it by `addEvent`, and leaves it once, either let go by `delEvent` or
scheduled by a cancellation or a report.
-/

namespace Civan
namespace IOManager

/-- Who waits for an event of a descriptor. -/
abbrev Registry := ℕ → Event → Option Wakeup

namespace Registry

/-- The events of a descriptor that someone waits for. -/
def mask (A : Registry) (fd : ℕ) : EventMask :=
  { read := (A fd .read).isSome, write := (A fd .write).isSome }

/-- A waiter is entered. -/
def enter (A : Registry) (fd : ℕ) (e : Event) (w : Option Wakeup) : Registry :=
  Function.update A fd (Function.update (A fd) e w)

/-- The waiters for the events of `m` leave. -/
def resolve (A : Registry) (fd : ℕ) (m : EventMask) : Registry :=
  Function.update A fd (fun e => if m.has e then none else A fd e)

/-- The waiters for the events of `m`, that for reading first. -/
def waiting (A : Registry) (fd : ℕ) (m : EventMask) : List Wakeup :=
  (if m.read then (A fd .read).toList else []) ++ (if m.write then (A fd .write).toList else [])

/-- The waiters for the events of `m` are scheduled. -/
def wake (A : Registry) (fd : ℕ) (m : EventMask) : Outcome × Registry :=
  ({ Outcome.quiet true with woken := A.waiting fd m }, A.resolve fd m)

/-- The mask of one event. -/
def single (e : Event) : EventMask :=
  EventMask.none.insert e

/-- The calls on the table of waiters. -/
def step (A : Registry) : Label → Outcome × Registry
  | .addEvent fd event cb caller succeeds =>
    let w := (caller.context cb).waiters
    if succeeds then
      ({ Outcome.quiet true with registered := w }, A.enter fd.toNat event w.head?)
    else
      (.quiet false, A)
  | .delEvent fd event succeeds =>
    if succeeds ∧ (A fd.toNat event).isSome then
      ({ Outcome.quiet true with dropped := A.waiting fd.toNat (single event) },
        A.resolve fd.toNat (single event))
    else
      (.quiet false, A)
  | .cancelEvent fd event succeeds =>
    if succeeds ∧ (A fd.toNat event).isSome then
      A.wake fd.toNat (single event)
    else
      (.quiet false, A)
  | .cancelAll fd succeeds =>
    if succeeds ∧ A.mask fd.toNat ≠ .none then
      A.wake fd.toNat (A.mask fd.toNat)
    else
      (.quiet false, A)
  | .dispatch fd report succeeds =>
    let m := (A.mask fd).inter (report.realEvents (A.mask fd))
    if succeeds ∧ m ≠ .none then A.wake fd m else (.quiet true, A)

end Registry

/-- The table of waiters that a context stands for. -/
def FdContext.registry (c : FdContext) (e : Event) : Option Wakeup :=
  (c.getContext e).waiters.head?

/-- The table of waiters that a state stands for. -/
def State.registry (s : State) : Registry :=
  fun fd => (s.context fd).registry

namespace FdContext

variable {c : FdContext} {e : Event}

theorem toList_registry : (c.registry e).toList = (c.getContext e).waiters := by
  unfold registry EventContext.waiters
  split <;> rfl

theorem Ok.isSome_registry (h : c.Ok EventContext.Occupied) :
    (c.registry e).isSome = c.events.has e := by
  cases he : c.events.has e with
  | true =>
    have hlen := (h.of_has he).length_waiters
    rw [← toList_registry] at hlen
    cases hr : c.registry e with
    | none => simp [hr] at hlen
    | some w => rfl
  | false =>
    rw [registry, h.of_not_has he]
    rfl

theorem registry_register {x : EventContext} :
    (c.register e x).registry = Function.update c.registry e x.waiters.head? := by
  funext e'
  unfold registry
  rw [getContext_register]
  by_cases heq : e' = e
  · subst heq
    simp
  · simp [heq]

/-- Clear every event of a mask. -/
def clearAll (c : FdContext) (m : EventMask) : FdContext :=
  let c₁ := if m.read then c.clear .read else c
  if m.write then c₁.clear .write else c₁

theorem events_clearAll {m : EventMask} : (c.clearAll m).events = c.events.diff m := by
  obtain ⟨read, write⟩ := m
  cases read <;> cases write <;> simp [clearAll, EventMask.diff, EventMask.erase]

theorem getContext_clearAll {m : EventMask} :
    (c.clearAll m).getContext e = if m.has e then .empty else c.getContext e := by
  obtain ⟨read, write⟩ := m
  cases read <;> cases write <;> cases e <;> simp [clearAll, getContext_clear, EventMask.has]

theorem Ok.clearAll {Q : EventContext → Prop} {m : EventMask} (h : c.Ok Q) :
    (c.clearAll m).Ok Q := by
  unfold FdContext.clearAll
  split_ifs
  · exact h.clear.clear
  · exact h.clear
  · exact h.clear
  · exact h

theorem registry_clearAll {m : EventMask} :
    (c.clearAll m).registry = fun e => if m.has e then none else c.registry e := by
  funext e
  unfold registry
  rw [getContext_clearAll]
  split_ifs <;> rfl

theorem clearAll_single : c.clearAll (Registry.single e) = c.clear e := by
  cases e <;> rfl

end FdContext

end IOManager
end Civan
