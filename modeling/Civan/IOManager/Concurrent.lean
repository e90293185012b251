import Civan.IOManager.Reachable

/-!
# Threads that cancel at the same time

Any number of threads work on one `FdContext`.  `delEvent` and `cancelEvent` test
`event & fd_ctx->events` without the lock and act under it without a second test;
the test and the locked section are separate steps here, and the locked sections of
`addEvent` and of the dispatcher are one step each.

If the event was resolved in between and the other event of the descriptor is still
registered, the `EPOLL_CTL_MOD` that is made succeeds and the event is resolved a
second time.  If nothing is registered any more, the `EPOLL_CTL_DEL` fails and the
call returns `false`.
-/

namespace Civan
namespace IOManager

open Transition
open MachineInt
open Scheduler (Callback)

/-- The two calls that test before they lock. -/
inductive TestedCall where
  | delEvent
  | cancelEvent
deriving DecidableEq, Repr

/-- The event state and, for each thread, the call it is in after a successful test. -/
structure Threads where
  io : State
  tested : ℕ → Option (TestedCall × Event)

/-- No event registered and no call under way. -/
def Threads.init : Threads :=
  { io := State.init, tested := fun _ => none }

/-- The steps of the threads that work on one `FdContext`. -/
inductive ThreadLabel where
  /-- `addEvent` under the lock. -/
  | addLocked (event : Event) (cb : Option Callback) (caller : Caller) (succeeds : Bool)
  /-- The test of `delEvent` or `cancelEvent`. -/
  | test (thread : ℕ) (what : TestedCall) (event : Event)
  /-- The section under the lock that follows a successful test. -/
  | locked (thread : ℕ) (succeeds : Bool)
  /-- The dispatcher under the lock, with a report on registered events. -/
  | dispatch (report : Report) (succeeds : Bool)
deriving DecidableEq, Repr

/-- The section under the lock. -/
def TestedCall.locked (s : State) (p : FdPtr) (event : Event) (succeeds : Bool) :
    TestedCall → Except Failure (Outcome × State)
  | .delEvent => delLocked s p event succeeds
  | .cancelEvent => cancelLocked s p event succeeds

section Steps

variable (p : FdPtr)

/-- One step; `none` where the step does not apply. -/
def threadStep (s : Threads) : ThreadLabel → Option (Except Failure (Outcome × Threads))
  | .addLocked event cb caller succeeds =>
    some ((IOManager.addLocked s.io p event cb caller succeeds).map
      (fun r => (r.1, { s with io := r.2 })))
  | .test thread what event =>
    if s.tested thread = none then
      if (s.io.ctx p).events.has event then
        some (.ok (.quiet true,
          { s with tested := Function.update s.tested thread (some (what, event)) }))
      else
        some (.ok (.quiet false, s))
    else
      none
  | .locked thread succeeds =>
    (s.tested thread).map (fun call =>
      (call.1.locked s.io p call.2 succeeds).map
        (fun r => (r.1, { io := r.2, tested := Function.update s.tested thread none })))
  | .dispatch report succeeds =>
    if report.within (s.io.ctx p).events then
      some ((IOManager.dispatch s.io p report succeeds).map
        (fun r => (r.1, { s with io := r.2 })))
    else
      none

/-- The threads as a transition system; a run stops at a failure. -/
def threads : System Threads ThreadLabel Outcome where
  step s l := (threadStep p s l).bind Except.toOption

/-- A locked section finds its event still registered, or none of the descriptor's. -/
def StillRegistered (s : Threads) : ThreadLabel → Prop
  | .locked thread _ =>
    ∀ call ∈ s.tested thread,
      (s.io.ctx p).events.has call.2 = true ∨ (s.io.ctx p).events = .none
  | _ => True

instance (s : Threads) (l : ThreadLabel) : Decidable (StillRegistered p s l) := by
  cases l <;> unfold StillRegistered <;> infer_instance

end Steps

section Sections

variable {p : FdPtr} {s s' : State} {o : Outcome} {e : Event} {m : EventMask}
variable {kernel : ℕ → Option Registration} {succeeds : Bool}

/-- The counter, the kernel and the context at `p` agree. -/
structure CountExact (p : FdPtr) (s : State) : Prop where
  occupied : (s.ctx p).Ok EventContext.Occupied
  kernel : s.kernel p.fd = registration p (s.ctx p).events
  pending : s.pendingEventCount = (s.ctx p).events.count

/-- Whoever was registered at `p` is still waiting, was scheduled, or was let go. -/
def Settled (p : FdPtr) (os : List Outcome) (s s' : State) : Prop :=
  ∀ w, (os.flatMap Outcome.registered).count w + (s.ctx p).waiters.count w =
    (os.flatMap Outcome.woken).count w + (os.flatMap Outcome.dropped).count w +
      (s'.ctx p).waiters.count w

/-- A section keeps the count and settles its waiters, and `triggerEvent` does not abort. -/
def SectionOk (p : FdPtr) (s : State) : Except Failure (Outcome × State) → Prop
  | .ok (o, s') => CountExact p s' ∧ Settled p [o] s s'
  | .error err => err ≠ .notRegistered

theorem init_countExact (p : FdPtr) : CountExact p State.init where
  occupied := FdContext.new_ok _
  kernel := rfl
  pending := rfl

theorem CountExact.quiet {returned : Bool} (h : CountExact p s) :
    SectionOk p s (.ok (.quiet returned, s)) :=
  ⟨h, fun w => by simp [Outcome.quiet]⟩

/-- A failed `epoll_ctl` on a descriptor that epoll does not know. -/
theorem eraseRegistration_none (hk : kernel p.fd = none) :
    eraseRegistration kernel p m succeeds = none := by
  unfold eraseRegistration epollCtl
  by_cases hm : m = .none <;> simp [hm, hk]

theorem CountExact.cleared (h : CountExact p s) (hm : (s.ctx p).events.inter m = m)
    (hp : (s.ctx p).events ≠ .none)
    (hkernel : eraseRegistration s.kernel p ((s.ctx p).events.diff m) succeeds = some kernel)
    (hregistered : o.registered = []) (hresolved : o.woken ++ o.dropped = (s.ctx p).waitersOf m) :
    SectionOk p s (.ok (o, State.cleared { s with kernel := kernel } p m)) := by
  have hk : (s.kernel p.fd).isSome := by
    rw [h.kernel, registration_of_ne hp]
    rfl
  rw [eraseRegistration_eq hk] at hkernel
  split_ifs at hkernel
  rw [Option.some.injEq] at hkernel
  refine ⟨⟨?_, ?_, ?_⟩, ?_⟩
  · rw [State.cleared_ctx_self]
    exact h.occupied.clearAll
  · rw [State.cleared_ctx_self, FdContext.events_clearAll, State.cleared, ← hkernel]
    exact Function.update_self ..
  · rw [State.cleared_ctx_self, FdContext.events_clearAll]
    have hcount := EventMask.count_diff hm
    change sizeSub s.pendingEventCount m.count = ((s.ctx p).events.diff m).count
    rw [h.pending, sizeSub_of_le (by omega)]
    omega
  · intro w
    have hwaiters := (s.ctx p).count_waitersOf m w
    rw [← hresolved, List.count_append] at hwaiters
    rw [State.cleared_ctx_self]
    simp only [List.flatMap_cons, List.flatMap_nil, List.append_nil, hregistered, List.count_nil]
    omega

/-- A waiter enters; there is room for it, so the counter does not wrap. -/
theorem CountExact.addLocked {cb : Option Callback} {caller : Caller} (h : CountExact p s) :
    SectionOk p s (addLocked s p e cb caller succeeds) := by
  unfold IOManager.addLocked
  dsimp only
  rw [addRegistration_eq h.kernel]
  by_cases hhas : (s.ctx p).events.has e = true
  · rw [if_pos hhas]
    exact fun habs => nomatch habs
  · rw [if_neg hhas]
    cases succeeds with
    | false => exact h.quiet
    | true =>
      simp only [if_true]
      have hempty := h.occupied.of_not_has (Bool.eq_false_iff.mpr hhas)
      rw [if_neg (by simpa using hempty)]
      split_ifs
      · exact fun habs => nomatch habs
      · have hcount := EventMask.count_insert (Bool.eq_false_iff.mpr hhas)
        have hle := ((s.ctx p).events.insert e).count_le_two
        refine ⟨⟨?_, ?_, ?_⟩, ?_⟩
        · simp only [Function.update_self]
          exact h.occupied.register Caller.context_occupied
        · simp
        · simp only [Function.update_self, FdContext.events_setContext, h.pending]
          omega
        · intro w
          have hwaiters := FdContext.count_waiters_register (x := caller.context cb) w hempty
          simp only [FdContext.register] at hwaiters
          simp [hwaiters, Nat.add_comm]

theorem CountExact.delLocked (h : CountExact p s)
    (he : (s.ctx p).events.has e = true ∨ (s.ctx p).events = .none) :
    SectionOk p s (delLocked s p e succeeds) := by
  unfold IOManager.delLocked
  dsimp only
  split
  · exact h.quiet
  · rename_i kernel hkernel
    rcases he with he | hnone
    · have hcleared := h.cleared (m := Registry.single e)
        (o := { Outcome.quiet true with dropped := ((s.ctx p).getContext e).waiters })
        (EventMask.inter_single he) (EventMask.ne_none_of_has he)
        (by rw [EventMask.diff_single]; exact hkernel) rfl
        (by rw [FdContext.waitersOf_single]; rfl)
      rw [State.cleared, FdContext.clearAll_single, EventMask.count_single] at hcleared
      exact hcleared
    · rw [eraseRegistration_none (by rw [h.kernel, hnone]; rfl)] at hkernel
      cases hkernel

theorem CountExact.cancelLocked (h : CountExact p s)
    (he : (s.ctx p).events.has e = true ∨ (s.ctx p).events = .none) :
    SectionOk p s (cancelLocked s p e succeeds) := by
  unfold IOManager.cancelLocked
  split
  · exact h.quiet
  · rename_i kernel hkernel
    rcases he with he | hnone
    · split
      · rename_i htrigger
        rw [trigger_error (s := { s with kernel := kernel }) he htrigger]
        exact fun habs => nomatch habs
      · rename_i htrigger
        obtain ⟨_, rfl, rfl⟩ := (trigger_ok_iff (s := { s with kernel := kernel })
          h.occupied).mp htrigger
        exact h.cleared (EventMask.inter_single he) (EventMask.ne_none_of_has he)
          (by rw [EventMask.diff_single]; exact hkernel) rfl (List.append_nil _)
    · rw [eraseRegistration_none (by rw [h.kernel, hnone]; rfl)] at hkernel
      cases hkernel

/-- A report on registered events resolves those it names. -/
theorem CountExact.dispatch {report : Report} (h : CountExact p s)
    (hreport : report.within (s.ctx p).events) :
    SectionOk p s (dispatch s p report succeeds) := by
  have hsub := Report.realEvents_of_within hreport
  unfold IOManager.dispatch
  dsimp only
  generalize report.realEvents (s.ctx p).events = m at hsub
  split_ifs with hinter
  · exact h.quiet
  · split
    · exact h.quiet
    · rename_i kernel hkernel
      have hp : (s.ctx p).events ≠ .none := by
        intro hnone
        rw [hnone] at hinter
        exact hinter rfl
      split
      · rename_i htriggers
        rw [triggerReal_error (s := { s with kernel := kernel }) h.occupied hsub htriggers]
        exact fun habs => nomatch habs
      · rename_i htriggers
        obtain ⟨_, rfl, rfl⟩ := (triggerReal_ok_iff (s := { s with kernel := kernel })
          h.occupied).mp htriggers
        exact h.cleared hsub hp hkernel rfl (List.append_nil _)

end Sections

section Runs

variable {p : FdPtr} {s t : Threads} {l : ThreadLabel} {os : List Outcome}

theorem CountExact.threadStep {r : Except Failure (Outcome × Threads)} (h : CountExact p s.io)
    (hl : StillRegistered p s l) (hr : threadStep p s l = some r) :
    SectionOk p s.io (r.map (fun x => (x.1, x.2.io))) := by
  -- what a step makes of the locked section's result is undone by the projection
  have hmap : ∀ (x : Except Failure (Outcome × State)) (f : State → Threads),
      (∀ y, (f y).io = y) → (x.map (fun z => (z.1, f z.2))).map (fun z => (z.1, z.2.io)) = x := by
    intro x f hf
    cases x with
    | error err => rfl
    | ok y => simp [Except.map, hf]
  cases l with
  | addLocked e cb caller succeeds =>
    cases hr
    rw [hmap _ (fun y => { s with io := y }) (fun _ => rfl)]
    exact h.addLocked
  | test thread what e =>
    simp only [IOManager.threadStep] at hr
    split_ifs at hr <;> cases hr <;> exact h.quiet
  | locked thread succeeds =>
    simp only [IOManager.threadStep, Option.map_eq_some_iff] at hr
    obtain ⟨⟨what, e⟩, hcall, rfl⟩ := hr
    have he := hl _ hcall
    rw [hmap _ (fun y => { io := y, tested := Function.update s.tested thread none })
      (fun _ => rfl)]
    cases what with
    | delEvent => exact h.delLocked he
    | cancelEvent => exact h.cancelLocked he
  | dispatch report succeeds =>
    simp only [IOManager.threadStep] at hr
    split_ifs at hr with hreport
    cases hr
    rw [hmap _ (fun y => { s with io := y }) (fun _ => rfl)]
    exact h.dispatch hreport

theorem Settled.cons {o : Outcome} {s₀ s₁ s₂ : State} (hfirst : Settled p [o] s₀ s₁)
    (hrest : Settled p os s₁ s₂) :
    Settled p (o :: os) s₀ s₂ := by
  intro w
  have h₁ := hfirst w
  have h₂ := hrest w
  simp only [List.flatMap_cons, List.flatMap_nil, List.append_nil, List.count_append] at h₁ ⊢
  omega

theorem CountExact.run {ls : List ThreadLabel} (h : CountExact p s.io)
    (halong : (threads p).Along (StillRegistered p) s ls)
    (hrun : (threads p).run s ls = some (os, t)) :
    CountExact p t.io ∧ Settled p os s.io t.io := by
  induction ls generalizing s os with
  | nil =>
    simp only [System.run_nil, Option.some.injEq, Prod.mk.injEq] at hrun
    obtain ⟨rfl, rfl⟩ := hrun
    exact ⟨h, fun w => by simp⟩
  | cons l ls ih =>
    obtain ⟨o, s', os', hstep, hrest, rfl⟩ := (threads p).run_cons_eq_some.mp hrun
    obtain ⟨r, hr, hopt⟩ := Option.bind_eq_some_iff.mp hstep
    cases r with
    | error err => cases hopt
    | ok x =>
      cases hopt
      obtain ⟨hexact, hsettled⟩ := h.threadStep halong.1 hr
      obtain ⟨ht, hall⟩ := ih hexact (halong.2 _ _ hstep) hrest
      exact ⟨ht, hsettled.cons hall⟩

/--
For any number of threads and every interleaving of their steps in which a locked
section finds its event still registered or the descriptor without any: the counter
is the number of registered events, every waiter registered is still waiting, was
scheduled once or was let go once, and no next such step makes `triggerEvent` abort.
-/
theorem concurrent_count_exact (p : FdPtr) (ls : List ThreadLabel)
    (halong : (threads p).Along (StillRegistered p) Threads.init ls)
    (hrun : (threads p).run Threads.init ls = some (os, s)) :
    s.io.pendingEventCount = (s.io.ctx p).events.count ∧
      Settled p os State.init s.io ∧
      ∀ l, StillRegistered p s l → threadStep p s l ≠ some (.error .notRegistered) := by
  obtain ⟨hexact, hsettled⟩ := (init_countExact p).run halong hrun
  refine ⟨hexact.pending, hsettled, ?_⟩
  intro l hl habort
  exact hexact.threadStep hl habort rfl

/-- The context of descriptor 5. -/
def fiveContext : FdPtr :=
  { fd := 5, generation := 0 }

/-- Two fibers wait on descriptor 5, one to read and one to write. -/
def readAndWrite : List ThreadLabel :=
  [.addLocked .read none (runningFiber 1) true, .addLocked .write none (runningFiber 2) true]

/-- Two threads pass the test for `READ`, and the dispatcher wakes both fibers first. -/
def dispatchedFirst : List ThreadLabel :=
  readAndWrite ++
    [.test 1 .cancelEvent .read, .test 2 .delEvent .read,
      .dispatch ⟨true, true, false, false⟩ true, .locked 1 true, .locked 2 true]

theorem concurrent_count_exact_dispatched_first :
    ∃ os s, (threads fiveContext).run Threads.init dispatchedFirst = some (os, s) ∧
      s.io.pendingEventCount = 0 ∧
      (s.io.ctx fiveContext).events = .none ∧
      s.io.pendingEventCount = (s.io.ctx fiveContext).events.count ∧
      Settled fiveContext os State.init s.io := by
  obtain ⟨halong, os, s, hrun, hpending, hevents⟩ :=
    System.exists_run (M := threads fiveContext) (P := StillRegistered fiveContext)
      Threads.init dispatchedFirst
      (fun s => s.io.pendingEventCount = 0 ∧ (s.io.ctx fiveContext).events = .none)
      (by decide +kernel)
  obtain ⟨hexact, hsettled, _⟩ := concurrent_count_exact fiveContext _ halong hrun
  exact ⟨os, s, hrun, hpending, hevents, hexact, hsettled⟩

/-- Two threads pass the test for `READ` and the first resolves it. -/
def raceOnRead (what : TestedCall) : List ThreadLabel :=
  readAndWrite ++ [.test 1 what .read, .test 2 what .read, .locked 1 true]

/--
Two `cancelEvent` for the same event: the second one aborts in `triggerEvent`.  Two
`delEvent`: the counter is one too low, and a `delEvent` for the other event makes it
wrap around.
-/
theorem not_count_exact_race :
    (∃ os s, (threads fiveContext).run Threads.init (raceOnRead .cancelEvent) = some (os, s) ∧
      (threadStep fiveContext s (.locked 2 true)).map failureOf = some (some .notRegistered)) ∧
    (∃ os s, (threads fiveContext).run Threads.init
        (raceOnRead .delEvent ++ [.locked 2 true]) = some (os, s) ∧
      s.io.pendingEventCount = 0 ∧ (s.io.ctx fiveContext).events = ⟨false, true⟩) ∧
    (∃ os s, (threads fiveContext).run Threads.init
        (raceOnRead .delEvent ++
          [.locked 2 true, .test 1 .delEvent .write, .locked 1 true]) = some (os, s) ∧
      s.io.pendingEventCount = 2 ^ 64 - 1 ∧ (s.io.ctx fiveContext).events = .none) := by
  refine ⟨?_, ?_, ?_⟩
  · exact (System.exists_run (P := fun _ _ => True) _ _ _ (by decide +kernel)).2
  · exact (System.exists_run (P := fun _ _ => True) _ _ _ (by decide +kernel)).2
  · exact (System.exists_run (P := fun _ _ => True) _ _ _ (by decide +kernel)).2

end Runs

end IOManager
end Civan
