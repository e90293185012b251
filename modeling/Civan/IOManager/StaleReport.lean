import Civan.IOManager.Reachable

/-!
# Reports that are out of date

Between the return of `epoll_wait` and the lock of `fd_ctx->mutex` other threads may
register and cancel events of the descriptor.  The dispatcher asks whether any of the
reported events is still registered, and if so triggers all that were reported; the
assertion in `triggerEvent` fails for one that is gone.

A report is handled as it should be exactly when none of the reported events is left
or all of them are, for every context and in every reachable state.
-/

namespace Civan
namespace IOManager

open Transition
open MachineInt

section Report

/-- The events to trigger: reported, an error or hang-up standing for both, and registered. -/
def Report.due (r : Report) (events : EventMask) : EventMask :=
  { read := events.read && (r.epollIn || r.epollErr || r.epollHup)
    write := events.write && (r.epollOut || r.epollErr || r.epollHup) }

variable {r : Report} {events : EventMask}

/-- The mask that the dispatcher compares with `NONE`. -/
theorem Report.inter_realEvents : events.inter (r.realEvents events) = r.due events := by
  obtain ⟨hasIn, hasOut, hasErr, hasHup⟩ := r
  obtain ⟨read, write⟩ := events
  cases hasErr <;> cases hasHup <;> cases read <;> cases write <;>
    simp [due, realEvents, EventMask.inter]

theorem Report.realEvents_eq_due (h : r.within events) :
    r.realEvents events = r.due events := by
  rw [← Report.inter_realEvents, Report.realEvents_of_within h]

/-- If every event that is triggered is registered, the report is still right. -/
theorem Report.within_of_realEvents
    (h : ∀ e, (r.realEvents events).has e = true → events.has e = true) :
    r.within events := by
  have hread := h .read
  have hwrite := h .write
  unfold Report.realEvents at hread hwrite
  constructor
  · intro hin
    refine hread ?_
    split_ifs <;> simp [EventMask.has, hin]
  · intro hout
    refine hwrite ?_
    split_ifs <;> simp [EventMask.has, hout]

theorem Report.due_sub : events.inter (r.due events) = r.due events := by
  obtain ⟨read, write⟩ := events
  cases read <;> cases write <;> simp [due, EventMask.inter]

end Report

section Dispatch

variable {s s' : State} {p : FdPtr} {report : Report} {succeeds : Bool} {o : Outcome}

/-- The events of `due` are triggered, each once, and nothing else happens. -/
structure Dispatches
    (s : State) (p : FdPtr) (due : EventMask) (o : Outcome) (s' : State) : Prop where
  woken : o.woken = (s.ctx p).waitersOf due
  once : o.woken.length = due.count
  pending : s'.pendingEventCount = sizeSub s.pendingEventCount due.count
  events : (s'.ctx p).events = (s.ctx p).events.diff due
  contexts : ∀ e, (s'.ctx p).getContext e = if due.has e then .empty else (s.ctx p).getContext e
  interest : (s'.ctx p).events ≠ .none →
    s'.kernel p.fd = some { events := (s'.ctx p).events, data := p }
  others : ∀ q, q ≠ p → s'.ctx q = s.ctx q

/-- The dispatcher handles the report as it should. -/
def DispatchOk (s : State) (p : FdPtr) (report : Report) (succeeds : Bool) : Prop :=
  ∃ o s', dispatch s p report succeeds = .ok (o, s') ∧
    Dispatches s p (report.due (s.ctx p).events) o s'

/-- Clearing registered events is what a dispatch is to do. -/
theorem dispatches_cleared {due : EventMask} {kernel : ℕ → Option Registration}
    (h : (s.ctx p).Ok EventContext.Occupied) (hdue : (s.ctx p).events.inter due = due)
    (hkernel : (s.ctx p).events.diff due ≠ .none →
      kernel p.fd = some { events := (s.ctx p).events.diff due, data := p }) :
    Dispatches s p due { Outcome.quiet true with woken := (s.ctx p).waitersOf due }
      (State.cleared { s with kernel := kernel } p due) := by
  refine ⟨rfl, h.length_waitersOf hdue, rfl, ?_, ?_, ?_, ?_⟩
  · rw [State.cleared_ctx_self, FdContext.events_clearAll]
  · intro e
    rw [State.cleared_ctx_self, FdContext.getContext_clearAll]
  · rw [State.cleared_ctx_self, FdContext.events_clearAll]
    exact hkernel
  · intro q hq
    exact Function.update_of_ne hq _ _

theorem dispatchOk_of_due_none (h : ContextOk s p) (hdue : report.due (s.ctx p).events = .none) :
    DispatchOk s p report succeeds := by
  have hdiff : (s.ctx p).events.diff .none = (s.ctx p).events := by
    simp [EventMask.diff, EventMask.none]
  refine ⟨.quiet true, s, ?_, ?_⟩
  · unfold dispatch
    dsimp only
    rw [Report.inter_realEvents, if_pos hdue]
  · rw [hdue]
    have hcleared : Dispatches s p .none _ (s.cleared p .none) :=
      dispatches_cleared h.occupied (by simp [EventMask.inter, EventMask.none])
        (by rw [hdiff]; exact h.registered)
    rwa [State.cleared_none] at hcleared

/-- Something is left to trigger: what the dispatcher makes of it. -/
theorem dispatch_ok_iff_of_due (h : ContextOk s p) (hdue : report.due (s.ctx p).events ≠ .none) :
    dispatch s p report true = .ok (o, s') ↔
    (∀ e, (report.realEvents (s.ctx p).events).has e = true → (s.ctx p).CanTrigger e) ∧
      o = { Outcome.quiet true with
        woken := (s.ctx p).waitersOf (report.realEvents (s.ctx p).events) } ∧
      s' = State.cleared
        { s with
          kernel := Function.update s.kernel p.fd (registration p
            ((s.ctx p).events.diff (report.realEvents (s.ctx p).events))) }
        p (report.realEvents (s.ctx p).events) := by
  have hp : (s.ctx p).events ≠ .none := by
    intro hnone
    rw [hnone] at hdue
    exact hdue rfl
  have hk : (s.kernel p.fd).isSome := by
    rw [h.registered hp]
    rfl
  unfold dispatch
  dsimp only
  rw [Report.inter_realEvents, if_neg hdue, eraseRegistration_eq hk, if_pos rfl]
  generalize Function.update s.kernel p.fd _ = kernel
  generalize report.realEvents (s.ctx p).events = m
  have hiff : ∀ woken s₁,
      triggerReal { s with kernel := kernel } p m = .ok (woken, s₁) ↔
        (∀ e, m.has e = true → (s.ctx p).CanTrigger e) ∧
          woken = (s.ctx p).waitersOf m ∧
          s₁ = State.cleared { s with kernel := kernel } p m :=
    fun _ _ => triggerReal_ok_iff h.occupied
  constructor
  · intro hcall
    dsimp only at hcall
    split at hcall
    · cases hcall
    · rename_i htriggers
      obtain ⟨hcan, rfl, rfl⟩ := (hiff _ _).mp htriggers
      cases hcall
      exact ⟨hcan, rfl, rfl⟩
  · rintro ⟨hcan, rfl, rfl⟩
    dsimp only
    rw [(hiff _ _).mpr ⟨hcan, rfl, rfl⟩]

theorem not_dispatchOk_of_failed (hdue : report.due (s.ctx p).events ≠ .none) :
    ¬ DispatchOk s p report false := by
  rintro ⟨o, s', hcall, hdispatches⟩
  have hquiet : dispatch s p report false = .ok (.quiet true, s) := by
    have herase : ∀ m, eraseRegistration s.kernel p m false = none := by
      intro m
      unfold eraseRegistration epollCtl
      split <;> simp
    unfold dispatch
    dsimp only
    rw [Report.inter_realEvents, if_neg hdue, herase]
  rw [hquiet] at hcall
  cases hcall
  exact hdue (EventMask.eq_none_of_count hdispatches.once.symm)

/--
In every reachable state, for every context and every report: the dispatcher triggers
exactly the reported events that are registered, lowers the counter once for each and
leaves the others registered, if and only if none of the reported events is
registered any more, or all are, `epoll_ctl` succeeds and the events were registered
from threads with a scheduler.
-/
theorem dispatch_stale_report_iff (s : State) (p : FdPtr) (report : Report) (succeeds : Bool)
    (hreach : system.Reachable State.init s) :
    DispatchOk s p report succeeds ↔
    report.due (s.ctx p).events = .none ∨
      (report.within (s.ctx p).events ∧
        succeeds = true ∧
        ∀ e, (report.due (s.ctx p).events).has e = true →
          ((s.ctx p).getContext e).scheduler.isSome) := by
  have h := reachable_heapOk hreach p
  by_cases hdue : report.due (s.ctx p).events = .none
  · exact ⟨fun _ => Or.inl hdue, fun _ => dispatchOk_of_due_none h hdue⟩
  · constructor
    · intro hok
      right
      cases succeeds with
      | false => exact absurd hok (not_dispatchOk_of_failed hdue)
      | true =>
        obtain ⟨o, s', hcall, _⟩ := hok
        obtain ⟨hcan, _, _⟩ := (dispatch_ok_iff_of_due h hdue).mp hcall
        have hwithin := Report.within_of_realEvents (fun e he => (hcan e he).1)
        refine ⟨hwithin, rfl, ?_⟩
        intro e he
        rw [← Report.realEvents_eq_due hwithin] at he
        exact (hcan e he).2
    · rintro (hnone | ⟨hwithin, rfl, hsch⟩)
      · exact absurd hnone hdue
      · have hreal := Report.realEvents_eq_due hwithin
        refine ⟨_, _, (dispatch_ok_iff_of_due h hdue).mpr ⟨?_, rfl, rfl⟩, ?_⟩
        · intro e he
          rw [hreal] at he
          have hhas := he
          rw [← Report.due_sub, EventMask.has_inter, Bool.and_eq_true] at hhas
          exact ⟨hhas.1, hsch e he⟩
        · rw [hreal]
          refine dispatches_cleared h.occupied Report.due_sub ?_
          intro hne
          rw [Function.update_self, registration_of_ne hne]

/-- Fibers 1 and 2 wait on descriptor 5 to read and to write. -/
def waitingReadWrite : List Label :=
  [.addEvent 5 .read none (runningFiber 1) true, .addEvent 5 .write none (runningFiber 2) true]

/-- Descriptor 5 is readable and writable. -/
def bothReady : Report :=
  { epollIn := true, epollOut := true, epollErr := false, epollHup := false }

/-- After the report another thread cancels `READ` and registers it anew. -/
theorem dispatch_stale_report_registered_anew :
    ∃ s₀ os s, system.Reachable State.init s₀ ∧
      s₀.kernel 5 = some { events := ⟨true, true⟩, data := s₀.ptr 5 } ∧
      system.run s₀ [.cancelEvent 5 .read true,
        .addEvent 5 .read (some 3) (runningFiber 1) true] = some (os, s) ∧
      DispatchOk s (s₀.ptr 5) bothReady true := by
  obtain ⟨_, os₀, s₀, hrun₀, hkernel, hnext⟩ :=
    System.exists_run (M := system) (P := fun _ _ => True) State.init waitingReadWrite
      (fun s₀ => s₀.kernel 5 = some { events := ⟨true, true⟩, data := s₀.ptr 5 } ∧
        (system.checkedRun (fun _ _ => True) s₀ [.cancelEvent 5 .read true,
          .addEvent 5 .read (some 3) (runningFiber 1) true]).any
            (fun s => decide (bothReady.within (s.ctx (s₀.ptr 5)).events ∧
              (s.ctx (s₀.ptr 5)).read.scheduler.isSome ∧
              (s.ctx (s₀.ptr 5)).write.scheduler.isSome)) = true)
      (by decide +kernel)
  obtain ⟨_, os, s, hrun, hwithin, hread, hwrite⟩ := System.exists_run s₀ _ _ hnext
  refine ⟨s₀, os, s, ⟨_, _, hrun₀⟩, hkernel, hrun, ?_⟩
  have hreach : system.Reachable State.init s := System.Reachable.trans ⟨_, _, hrun₀⟩ ⟨_, _, hrun⟩
  refine (dispatch_stale_report_iff s (s₀.ptr 5) bothReady true hreach).mpr
    (Or.inr ⟨hwithin, rfl, ?_⟩)
  intro e _
  cases e with
  | read => exact hread
  | write => exact hwrite

/-- Another thread cancels `READ` after the report: the dispatcher aborts. -/
theorem dispatch_half_cancelled_fails :
    ∃ s₀ os s, system.Reachable State.init s₀ ∧
      s₀.kernel 5 = some { events := ⟨true, true⟩, data := s₀.ptr 5 } ∧
      bothReady.within ⟨true, true⟩ ∧
      system.run s₀ [.cancelEvent 5 .read true] = some (os, s) ∧
      failureOf (dispatch s (s₀.ptr 5) bothReady true) = some .notRegistered ∧
      ¬ DispatchOk s (s₀.ptr 5) bothReady true := by
  obtain ⟨_, os₀, s₀, hrun₀, hkernel, hnext⟩ :=
    System.exists_run (M := system) (P := fun _ _ => True) State.init waitingReadWrite
      (fun s₀ => s₀.kernel 5 = some { events := ⟨true, true⟩, data := s₀.ptr 5 } ∧
        (system.checkedRun (fun _ _ => True) s₀ [.cancelEvent 5 .read true]).any
          (fun s => decide (failureOf (dispatch s (s₀.ptr 5) bothReady true) =
            some .notRegistered)) = true)
      (by decide +kernel)
  obtain ⟨_, os, s, hrun, hfail⟩ := System.exists_run s₀ _ _ hnext
  refine ⟨s₀, os, s, ⟨_, _, hrun₀⟩, hkernel, by decide, hrun, hfail, ?_⟩
  rintro ⟨o, s', hcall, _⟩
  rw [hcall] at hfail
  cases hfail

end Dispatch

end IOManager
end Civan
