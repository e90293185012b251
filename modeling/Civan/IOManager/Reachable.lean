import Civan.IOManager.Bookkeeping

/-!
# What holds after any calls

States reached by all five calls, from any thread and for any descriptor: an event
may have been registered by a thread without a scheduler, and a table that shrank
may have left contexts behind which only the kernel knows.  For each context, in the
table or not, the bits say which of its event contexts are in use, and if there are
any the kernel has the descriptor registered with this mask and this address.
-/

namespace Civan
namespace IOManager

open Transition
open MachineInt

section Heap

/-- A context and what the kernel keeps for it are in order. -/
structure ContextOk (s : State) (p : FdPtr) : Prop where
  occupied : (s.ctx p).Ok EventContext.Occupied
  registered : (s.ctx p).events ≠ .none →
    s.kernel p.fd = some { events := (s.ctx p).events, data := p }

/-- All contexts are in order. -/
def HeapOk (s : State) : Prop :=
  ∀ p, ContextOk s p

variable {s s' : State} {p : FdPtr} {e : Event} {o : Outcome}

theorem init_heapOk : HeapOk State.init := by
  intro p
  exact ⟨FdContext.new_ok _, fun hne => absurd rfl hne⟩

/-- While one context of a descriptor has events, no other context of it has. -/
theorem HeapOk.exclusive (h : HeapOk s) (hp : (s.ctx p).events ≠ .none)
    {q : FdPtr} (hq : q ≠ p) (hfd : q.fd = p.fd) :
    (s.ctx q).events = .none := by
  by_contra hne
  have hkp := (h p).registered hp
  have hkq := (h q).registered hne
  rw [hfd, hkp, Option.some.injEq] at hkq
  exact hq (congrArg Registration.data hkq).symm

theorem HeapOk.events_of_unregistered (h : HeapOk s) (hk : s.kernel p.fd = none) :
    (s.ctx p).events = .none := by
  by_contra hne
  rw [(h p).registered hne] at hk
  cases hk

/-- One context and the registration of its descriptor change together. -/
theorem HeapOk.update {c : FdContext} (h : HeapOk s) (hctx : s'.ctx = Function.update s.ctx p c)
    (hkernel : s'.kernel = Function.update s.kernel p.fd (registration p c.events))
    (hc : c.Ok EventContext.Occupied)
    (hothers : ∀ q, q ≠ p → q.fd = p.fd → (s.ctx q).events = .none) :
    HeapOk s' := by
  intro q
  by_cases hq : q = p
  · subst hq
    constructor
    · rw [hctx, Function.update_self]
      exact hc
    · rw [hctx, hkernel, Function.update_self, Function.update_self]
      exact fun hne => registration_of_ne hne
  · constructor
    · rw [hctx, Function.update_of_ne hq]
      exact (h q).occupied
    · rw [hctx, hkernel, Function.update_of_ne hq]
      intro hne
      have hfd : q.fd ≠ p.fd := fun heq => hne (hothers q hq heq)
      rw [Function.update_of_ne hfd]
      exact (h q).registered hne

theorem HeapOk.of_eq (h : HeapOk s) (hctx : s'.ctx = s.ctx) (hkernel : s'.kernel = s.kernel) :
    HeapOk s' := by
  intro q
  constructor
  · rw [hctx]
    exact (h q).occupied
  · rw [hctx, hkernel]
    exact (h q).registered

theorem HeapOk.cleared {m : EventMask} {kernel : ℕ → Option Registration} {succeeds : Bool}
    (h : HeapOk s) (hp : (s.ctx p).events ≠ .none)
    (hkernel : eraseRegistration s.kernel p ((s.ctx p).events.diff m) succeeds = some kernel) :
    HeapOk (State.cleared { s with kernel := kernel } p m) := by
  have hk : (s.kernel p.fd).isSome := by
    rw [(h p).registered hp]
    rfl
  rw [eraseRegistration_eq hk] at hkernel
  split_ifs at hkernel
  rw [Option.some.injEq] at hkernel
  refine h.update (p := p) (c := (s.ctx p).clearAll m) rfl ?_ (h p).occupied.clearAll ?_
  · rw [FdContext.events_clearAll]
    exact hkernel.symm
  · exact fun q hq hfd => h.exclusive hp hq hfd

theorem contextFor_ctx {fd : ℤ} {s₁ : State} (h : contextFor s fd = .ok (p, s₁)) :
    s₁.ctx = s.ctx ∧ s₁.kernel = s.kernel := by
  unfold contextFor at h
  dsimp only at h
  split_ifs at h <;> cases h <;> exact ⟨rfl, rfl⟩

theorem Caller.context_occupied {caller : Caller} {cb : Option Scheduler.Callback} :
    (caller.context cb).Occupied := by
  cases cb <;> simp [Caller.context, EventContext.Occupied]

/-- The registration that `addEvent` makes, where the kernel accepts it. -/
theorem HeapOk.addRegistration {kernel : ℕ → Option Registration} {succeeds : Bool} (h : HeapOk s)
    (hkernel : epollCtl s.kernel (if (s.ctx p).events = .none then .add else .mod) p.fd
      { events := (s.ctx p).events.insert e, data := p } succeeds = some kernel) :
    kernel = Function.update s.kernel p.fd (registration p ((s.ctx p).events.insert e)) ∧
      ∀ q, q ≠ p → q.fd = p.fd → (s.ctx q).events = .none := by
  by_cases hp : (s.ctx p).events = .none
  · have hnone : s.kernel p.fd = none := by
      rw [if_pos hp] at hkernel
      simp only [epollCtl] at hkernel
      split_ifs at hkernel with hcond
      exact Option.isNone_iff_eq_none.mp hcond.2
    have hreg : s.kernel p.fd = registration p (s.ctx p).events := by
      rw [hnone, registration, if_pos hp]
    rw [addRegistration_eq hreg] at hkernel
    split_ifs at hkernel
    refine ⟨(Option.some.inj hkernel).symm, ?_⟩
    intro q _ hfd
    exact h.events_of_unregistered (by rw [hfd]; exact hnone)
  · have hreg : s.kernel p.fd = registration p (s.ctx p).events := by
      rw [(h p).registered hp, registration_of_ne hp]
    rw [addRegistration_eq hreg] at hkernel
    split_ifs at hkernel
    exact ⟨(Option.some.inj hkernel).symm, fun q hq hfd => h.exclusive hp hq hfd⟩

theorem HeapOk.addLocked {cb : Option Scheduler.Callback} {caller : Caller} {succeeds : Bool}
    (h : HeapOk s) (hcall : addLocked s p e cb caller succeeds = .ok (o, s')) :
    HeapOk s' := by
  unfold IOManager.addLocked at hcall
  dsimp only at hcall
  split at hcall
  · cases hcall
  · cases hkernel : epollCtl s.kernel (if (s.ctx p).events = .none then .add else .mod) p.fd
        { events := (s.ctx p).events.insert e, data := p } succeeds with
    | none =>
      simp only [hkernel] at hcall
      cases hcall
      exact h
    | some kernel =>
      obtain ⟨heq, hothers⟩ := h.addRegistration hkernel
      simp only [hkernel] at hcall
      split_ifs at hcall
      cases hcall
      refine h.update (p := p) (c := (s.ctx p).register e (caller.context cb)) rfl ?_
        ((h p).occupied.register Caller.context_occupied) hothers
      rw [FdContext.events_register]
      exact heq

theorem HeapOk.addEvent
    {fd : ℤ} {cb : Option Scheduler.Callback} {caller : Caller} {succeeds : Bool} (h : HeapOk s)
    (hcall : addEvent s fd e cb caller succeeds = .ok (o, s')) :
    HeapOk s' := by
  unfold IOManager.addEvent at hcall
  split at hcall
  · cases hcall
  · rename_i hctx
    obtain ⟨hc, hk⟩ := contextFor_ctx hctx
    exact (h.of_eq hc hk).addLocked hcall

theorem HeapOk.whenRegistered {fd : ℤ} {test : EventMask → Bool}
    {locked : FdPtr → Except Failure (Outcome × State)} (h : HeapOk s)
    (hlocked : ∀ p, test (s.ctx p).events = true → locked p = .ok (o, s') → HeapOk s')
    (hcall : whenRegistered s fd test locked = .ok (o, s')) :
    HeapOk s' := by
  unfold IOManager.whenRegistered at hcall
  split at hcall
  · cases hcall
  · cases hcall
    exact h
  · split_ifs at hcall with htest
    · exact hlocked _ htest hcall
    · cases hcall
      exact h

theorem HeapOk.delLocked {succeeds : Bool} (h : HeapOk s) (he : (s.ctx p).events.has e = true)
    (hcall : delLocked s p e succeeds = .ok (o, s')) :
    HeapOk s' := by
  unfold IOManager.delLocked at hcall
  dsimp only at hcall
  split at hcall <;> cases hcall
  · exact h
  · rename_i kernel hkernel
    have hcleared := h.cleared (m := Registry.single e) (EventMask.ne_none_of_has he)
      (by rw [EventMask.diff_single]; exact hkernel)
    rw [State.cleared, FdContext.clearAll_single, EventMask.count_single] at hcleared
    exact hcleared

theorem HeapOk.cancelLocked {succeeds : Bool} (h : HeapOk s) (he : (s.ctx p).events.has e = true)
    (hcall : cancelLocked s p e succeeds = .ok (o, s')) :
    HeapOk s' := by
  unfold IOManager.cancelLocked at hcall
  split at hcall
  · cases hcall
    exact h
  · rename_i kernel hkernel
    split at hcall
    · cases hcall
    · rename_i htrigger
      cases hcall
      obtain ⟨_, _, rfl⟩ := (trigger_ok_iff (s := { s with kernel := kernel })
        (h p).occupied).mp htrigger
      exact h.cleared (EventMask.ne_none_of_has he) (by rw [EventMask.diff_single]; exact hkernel)

theorem HeapOk.dispatch {report : Report} {succeeds : Bool} (h : HeapOk s)
    (hcall : dispatch s p report succeeds = .ok (o, s')) :
    HeapOk s' := by
  unfold IOManager.dispatch at hcall
  dsimp only at hcall
  generalize report.realEvents (s.ctx p).events = m at hcall
  by_cases hinter : (s.ctx p).events.inter m = .none
  · rw [if_pos hinter] at hcall
    cases hcall
    exact h
  · have hp : (s.ctx p).events ≠ .none := by
      intro hnone
      rw [hnone] at hinter
      exact hinter rfl
    rw [if_neg hinter] at hcall
    split at hcall
    · cases hcall
      exact h
    · rename_i kernel hkernel
      split at hcall
      · cases hcall
      · rename_i htrigger
        cases hcall
        obtain ⟨_, _, rfl⟩ := (triggerReal_ok_iff (s := { s with kernel := kernel })
          (h p).occupied).mp htrigger
        exact h.cleared hp hkernel

theorem HeapOk.cancelAllLocked {succeeds : Bool} (h : HeapOk s) (hp : (s.ctx p).events ≠ .none)
    (hcall : cancelAllLocked s p succeeds = .ok (o, s')) :
    HeapOk s' := by
  cases hdel : epollCtl s.kernel .del p.fd { events := .none, data := p } succeeds with
  | none =>
    simp only [IOManager.cancelAllLocked, hdel] at hcall
    cases hcall
    exact h
  | some kernel =>
    obtain ⟨_, _, _, rfl⟩ := (cancelAllLocked_ok_iff (h p).occupied hdel).mp hcall
    have hself : (s.ctx p).events.diff (s.ctx p).events = .none := by
      simp [EventMask.diff, EventMask.none]
    have herase : eraseRegistration s.kernel p
        ((s.ctx p).events.diff (s.ctx p).events) succeeds = some kernel := by
      rw [hself, ← hdel]
      rfl
    exact h.cleared hp herase

theorem HeapOk.step {l : Label} (h : HeapOk s) (hstep : system.step s l = some (o, s')) :
    HeapOk s' := by
  have hcall : call s l = some (.ok (o, s')) := by
    simp only [system] at hstep
    obtain ⟨r, hr, hopt⟩ := Option.bind_eq_some_iff.mp hstep
    cases r with
    | error err => cases hopt
    | ok v =>
      simp only [Except.toOption, Option.some.injEq] at hopt
      rw [hr, hopt]
  cases l with
  | addEvent fd e cb caller succeeds => exact h.addEvent (Option.some.inj hcall)
  | delEvent fd e succeeds =>
    exact h.whenRegistered (fun _ he => h.delLocked he) (Option.some.inj hcall)
  | cancelEvent fd e succeeds =>
    exact h.whenRegistered (fun _ he => h.cancelLocked he) (Option.some.inj hcall)
  | cancelAll fd succeeds =>
    exact h.whenRegistered (fun _ hne => h.cancelAllLocked (of_decide_eq_true hne))
      (Option.some.inj hcall)
  | dispatch fd report succeeds =>
    simp only [call] at hcall
    split at hcall
    · cases hcall
    · split_ifs at hcall
      exact h.dispatch (Option.some.inj hcall)

theorem reachable_heapOk (h : system.Reachable State.init s) : HeapOk s :=
  h.invariant (fun _ _ _ _ hs hstep => hs.step hstep) init_heapOk

end Heap

end IOManager
end Civan
