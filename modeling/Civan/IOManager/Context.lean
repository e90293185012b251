import Civan.IOManager.Model

/-!
# What the calls do to one descriptor's context

Every call that changes an `FdContext` either registers a waiter for an event that
has none, or clears an event.  These two operations keep the context in order: an
`EventContext` is in use exactly when the bit of its event is set.
-/

namespace Civan
namespace IOManager

namespace EventMask

variable {m : EventMask} {e e' : Event}

@[simp] theorem has_none : EventMask.none.has e = false := by
  cases e <;> rfl

theorem has_insert : (m.insert e).has e' = (decide (e' = e) || m.has e') := by
  cases e <;> cases e' <;> simp [insert, has]

theorem has_erase : (m.erase e).has e' = (decide (e' ≠ e) && m.has e') := by
  cases e <;> cases e' <;> simp [erase, has]

theorem has_inter {k : EventMask} : (m.inter k).has e = (m.has e && k.has e) := by
  cases e <;> rfl

theorem insert_ne_none : m.insert e ≠ .none := by
  cases e <;> simp [insert, none]

theorem ne_none_of_has (h : m.has e = true) : m ≠ .none := by
  rintro rfl
  simp at h

theorem count_insert (h : m.has e = false) : (m.insert e).count = m.count + 1 := by
  cases e with
  | read =>
    simp_all [insert, has, count]
    omega
  | write => simp_all [insert, has, count]

theorem count_erase (h : m.has e = true) : (m.erase e).count + 1 = m.count := by
  cases e with
  | read =>
    simp_all [erase, has, count]
    omega
  | write => simp_all [erase, has, count]

theorem eq_none_of_count (h : m.count = 0) : m = .none := by
  obtain ⟨read, write⟩ := m
  cases read <;> cases write <;> simp_all [count, none]

theorem count_le_two : m.count ≤ 2 := by
  unfold count
  have hr := Bool.toNat_le m.read
  have hw := Bool.toNat_le m.write
  omega

end EventMask

namespace EventContext

/-- A context that waits for exactly one of a fiber and a callback. -/
def Occupied (x : EventContext) : Prop :=
  x.fiber.isSome ≠ x.cb.isSome

/-- A context as `addEvent` leaves it when called from a scheduler thread. -/
def Holds (x : EventContext) : Prop :=
  x.scheduler.isSome ∧ x.Occupied

@[simp] theorem waiters_empty : EventContext.empty.waiters = [] := by
  rfl

theorem Occupied.length_waiters {x : EventContext} (h : x.Occupied) : x.waiters.length = 1 := by
  obtain ⟨scheduler, fiber, cb⟩ := x
  cases fiber <;> cases cb <;> simp_all [waiters, Occupied]

end EventContext

namespace FdContext

variable {c : FdContext} {e e' : Event} {x : EventContext}

/-- The bits say which event contexts are in use, and those satisfy `Q`. -/
def Ok (Q : EventContext → Prop) (c : FdContext) : Prop :=
  ∀ e, if c.events.has e then Q (c.getContext e) else c.getContext e = .empty

/-- A waiter is registered for `e`. -/
def register (c : FdContext) (e : Event) (x : EventContext) : FdContext :=
  { c with events := c.events.insert e }.setContext x e

/-- The event `e` is resolved: its bit and its context are cleared. -/
def clear (c : FdContext) (e : Event) : FdContext :=
  { c with events := c.events.erase e }.setContext .empty e

/-- All waiters of a descriptor. -/
def waiters (c : FdContext) : List Wakeup :=
  c.read.waiters ++ c.write.waiters

theorem getContext_setContext :
    (c.setContext x e).getContext e' = if e' = e then x else c.getContext e' := by
  cases e <;> cases e' <;> simp [setContext, getContext]

@[simp] theorem events_setContext : (c.setContext x e).events = c.events := by
  cases e <;> rfl

@[simp] theorem events_register : (c.register e x).events = c.events.insert e := by
  simp [register]

@[simp] theorem events_clear : (c.clear e).events = c.events.erase e := by
  simp [clear]

theorem getContext_register :
    (c.register e x).getContext e' = if e' = e then x else c.getContext e' := by
  rw [register, getContext_setContext]
  cases e' <;> rfl

theorem getContext_clear :
    (c.clear e).getContext e' = if e' = e then .empty else c.getContext e' := by
  rw [clear, getContext_setContext]
  cases e' <;> rfl

theorem new_ok (Q : EventContext → Prop) : FdContext.new.Ok Q := by
  intro e
  cases e <;> simp [new, getContext]

theorem Ok.mono {Q Q' : EventContext → Prop} (h : c.Ok Q) (hQ : ∀ x, Q x → Q' x) : c.Ok Q' := by
  intro e
  have he := h e
  split_ifs with hhas
  · rw [if_pos hhas] at he
    exact hQ _ he
  · rwa [if_neg hhas] at he

theorem Ok.register {Q : EventContext → Prop} (h : c.Ok Q) (hx : Q x) :
    (c.register e x).Ok Q := by
  intro e'
  have he' := h e'
  rw [events_register, EventMask.has_insert, getContext_register]
  by_cases heq : e' = e
  · simp only [heq, decide_true, Bool.true_or, if_true]
    exact hx
  · simpa only [heq, decide_false, Bool.false_or, if_false] using he'

theorem Ok.clear {Q : EventContext → Prop} (h : c.Ok Q) : (c.clear e).Ok Q := by
  intro e'
  have he' := h e'
  rw [events_clear, EventMask.has_erase, getContext_clear]
  by_cases heq : e' = e
  · simp [heq]
  · simpa [heq] using he'

theorem Ok.of_has {Q : EventContext → Prop} (h : c.Ok Q) (he : c.events.has e = true) :
    Q (c.getContext e) := by
  simpa [he] using h e

theorem Ok.of_not_has {Q : EventContext → Prop} (h : c.Ok Q) (he : c.events.has e = false) :
    c.getContext e = .empty := by
  simpa [he] using h e

theorem triggerEvent_eq (he : c.events.has e = true) (hsch : (c.getContext e).scheduler.isSome)
    (hocc : (c.getContext e).Occupied) :
    triggerEvent c e = .ok ((c.getContext e).waiters, c.clear e) := by
  obtain ⟨sch, hsome⟩ := Option.isSome_iff_exists.mp hsch
  unfold triggerEvent
  rw [if_neg (by simp [he])]
  unfold EventContext.waiters
  unfold EventContext.Occupied at hocc
  cases hcb : (c.getContext e).cb <;> cases hfiber : (c.getContext e).fiber <;>
    simp_all [clear, EventContext.empty]

theorem count_waiters_register (w : Wakeup) (hempty : c.getContext e = .empty) :
    (c.register e x).waiters.count w = c.waiters.count w + x.waiters.count w := by
  cases e with
  | read =>
    simp_all [waiters, register, setContext, getContext, List.count_append]
    omega
  | write => simp_all [waiters, register, setContext, getContext, List.count_append]

end FdContext

end IOManager
end Civan
