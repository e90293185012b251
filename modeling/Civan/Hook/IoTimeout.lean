import Civan.IOManager.Reachable

/-!
# Hooked IO with a timeout

`do_io` and `connect_with_timeout` park the calling fiber until the descriptor is
ready or a timer expires.  The timer is armed before the event is registered, and
its callback wakes the fiber only through `cancelEvent`, which does nothing while
the event is not registered.  A callback that runs in between is lost: it has set
`tinfo->cancelled`, so no later callback of the same call wakes the fiber either.

The steps of the fiber, of the timers and of the dispatcher interleave freely.
The callback is one step: what it does before `cancelEvent` touches only `tinfo`,
which the fiber reads after it has been woken.  A queued wake-up is taken once the
fiber is parked.
-/

namespace Civan
namespace Hook

open Transition
open MachineInt
open Scheduler (TaskId)
open IOManager (Event Wakeup FdPtr Outcome HeapOk)

/-- The two functions that wait with a timeout. -/
inductive Site where
  | doIo (event : Event)
  | connect
deriving DecidableEq, Repr

/-- A call: the timeout is `none` for `(uint64_t)-1`. -/
structure Call where
  site : Site
  fd : ℤ
  timeout : Option ℕ
  scheduler : IOManager.SchedulerId
  fiber : TaskId
deriving DecidableEq, Repr

/-- The event the call waits for. -/
def Call.event (c : Call) : Event :=
  match c.site with
  | .doIo event => event
  | .connect => .write

/-- The caller as `addEvent` sees it. -/
def Call.caller (c : Call) : IOManager.Caller :=
  { scheduler := some c.scheduler, fiber := c.fiber, fiberState := .exec }

/-- What the fiber does next. -/
inductive Pc where
  /-- the system call -/
  | attempt
  | arm
  | register
  /-- `addEvent` failed: `timer->cancel()` and leave -/
  | giveUp
  /-- `YieldToHold`: set `HOLD`, then swap out -/
  | hold
  | swapOut
  | parked
  /-- resumed: `timer->cancel()`, then look at `tinfo->cancelled` -/
  | disarm
  | check
  | returned
deriving DecidableEq, Repr

/-- Between the last look at `tinfo->cancelled` and the registration. -/
def Pc.Entering (pc : Pc) : Prop :=
  pc = .attempt ∨ pc = .arm ∨ pc = .register

/-- Between the registration and the wake-up. -/
def Pc.Waiting (pc : Pc) : Prop :=
  pc = .hold ∨ pc = .swapOut ∨ pc = .parked

instance (pc : Pc) : Decidable pc.Entering :=
  inferInstanceAs (Decidable (_ ∨ _ ∨ _))

instance (pc : Pc) : Decidable pc.Waiting :=
  inferInstanceAs (Decidable (_ ∨ _ ∨ _))

/-- A timer of the call.  When it is due its callback has been handed to the
scheduler, and `cancel` comes too late. -/
inductive TimerState where
  | armed (next : ℕ)
  | due
  | fired
  | cancelled
deriving DecidableEq, Repr

/-- The IO manager, one waiting call and its timers.  Each retry of `do_io` arms a
new timer; the last one armed is number `armed - 1`. -/
structure State where
  iom : IOManager.State
  pc : Pc
  /-- `tinfo->cancelled` is set -/
  cancelled : Bool
  armed : ℕ
  timer : ℕ → TimerState
  /-- `GetCurrentMS()` -/
  now : ℕ
  /-- entries for the fiber in the queue of its scheduler -/
  wakeups : ℕ

/-- On entry to the call. -/
def State.start (iom : IOManager.State) (now : ℕ) : State where
  iom := iom
  pc := .attempt
  cancelled := false
  armed := 0
  timer := fun _ => .cancelled
  now := now
  wakeups := 0

/-- `timer->cancel()` for the last timer armed. -/
def State.cancelTimer (s : State) : State :=
  match s.timer (s.armed - 1) with
  | .armed _ => { s with timer := Function.update s.timer (s.armed - 1) .cancelled }
  | _ => s

/-- A call of the IO manager has been made. -/
def State.scheduled (c : Call) (s : State) (o : Outcome) (iom : IOManager.State) : State :=
  { s with
    iom := iom
    wakeups := s.wakeups + o.woken.countP fun w => w.task = .fiber (some c.fiber) }

inductive Label where
  /-- the system call, which must be tried again later or not -/
  | attempt (again : Bool)
  | arm
  | register (succeeds : Bool)
  | giveUp
  | hold
  | swapOut
  | resume
  | disarm
  | check
  /-- the clock shows `now` -/
  | clock (now : ℕ)
  /-- `listExpiredCb` takes timer `i`; all are taken after a rollover of the clock -/
  | expire (i : ℕ) (rollover : Bool)
  /-- the callback of timer `i` runs; `epoll_ctl` may fail in its `cancelEvent` -/
  | callback (i : ℕ) (succeeds : Bool)
  /-- the dispatcher handles a report for `fd` -/
  | report (fd : ℕ) (report : IOManager.Report) (succeeds : Bool)
deriving DecidableEq, Repr

/-- The steps of the fiber. -/
def fiberStep (c : Call) (s : State) : Label → Option State
  | .attempt again =>
    if s.pc = .attempt then
      some { s with pc := if again then .arm else .returned }
    else none
  | .arm =>
    if s.pc = .arm then
      match c.timeout with
      | none => some { s with pc := .register }
      | some ms =>
        some
          { s with
            pc := .register
            armed := s.armed + 1
            timer := Function.update s.timer s.armed (.armed ((s.now + ms) % 2 ^ 64)) }
    else none
  | .register succeeds =>
    if s.pc = .register then
      match IOManager.addEvent s.iom c.fd c.event none c.caller succeeds with
      | .error _ => none
      | .ok (o, iom) =>
        some { s.scheduled c o iom with pc := if o.returned then .hold else .giveUp }
    else none
  | .giveUp => if s.pc = .giveUp then some { s.cancelTimer with pc := .returned } else none
  | .hold => if s.pc = .hold then some { s with pc := .swapOut } else none
  | .swapOut => if s.pc = .swapOut then some { s with pc := .parked } else none
  | .resume =>
    if s.pc = .parked ∧ 0 < s.wakeups then
      some { s with pc := .disarm, wakeups := s.wakeups - 1 }
    else none
  | .disarm => if s.pc = .disarm then some { s.cancelTimer with pc := .check } else none
  | .check =>
    if s.pc = .check then
      -- `do_io` tries again, `connect_with_timeout` asks for `SO_ERROR`
      match s.cancelled, c.site with
      | false, .doIo _ => some { s with pc := .attempt }
      | _, _ => some { s with pc := .returned }
    else none
  | _ => none

/-- One step of the fiber, a timer or the dispatcher. -/
def step (c : Call) (s : State) : Label → Option State
  | .clock now => some { s with now := now }
  | .expire i rollover =>
    match s.timer i with
    | .armed next =>
      if rollover ∨ next ≤ s.now then
        some { s with timer := Function.update s.timer i .due }
      else none
    | _ => none
  | .callback i succeeds =>
    if s.timer i = .due then
      let s' := { s with timer := Function.update s.timer i .fired }
      -- `tinfo` is gone when the call has returned
      if s.pc = .returned ∨ s.cancelled then
        some s'
      else
        match IOManager.cancelEvent s.iom c.fd c.event succeeds with
        | .error _ => none
        | .ok (o, iom) => some { s'.scheduled c o iom with cancelled := true }
    else none
  | .report fd report succeeds =>
    match IOManager.system.step s.iom (.dispatch fd report succeeds) with
    | none => none
    | some (o, iom) => some (s.scheduled c o iom)
  | l => fiberStep c s l

def system (c : Call) : System State Label Unit where
  step s l := (step c s l).map fun s' => ((), s')

/-- The event is registered with the calling fiber as its waiter. -/
def Call.Registered (c : Call) (iom : IOManager.State) : Prop :=
  (iom.context c.fd.toNat).events.has c.event = true ∧
    ((iom.context c.fd.toNat).getContext c.event).fiber = some c.fiber

instance (c : Call) (iom : IOManager.State) : Decidable (c.Registered iom) :=
  inferInstanceAs (Decidable (_ ∧ _))

/-- The fiber is parked with its event registered, its timer has fired, and nothing
is queued that would wake it. -/
def LostTimeout (c : Call) (s : State) : Prop :=
  s.pc = .parked ∧ c.Registered s.iom ∧
    (0 < s.armed ∧ s.timer (s.armed - 1) = .fired) ∧ s.wakeups = 0

instance (c : Call) (s : State) : Decidable (LostTimeout c s) :=
  inferInstanceAs (Decidable (_ ∧ _ ∧ _ ∧ _))

/--
The condition on the steps: no callback acts between the last look at
`tinfo->cancelled` and the registration, the `epoll_ctl` of its `cancelEvent` does
not fail, and the table of contexts that the registration asks for fits an `int`.
-/
def TimeoutFindsWaiter (c : Call) (s : State) : Label → Prop
  | .callback _ succeeds => s.cancelled = false → ¬ s.pc.Entering ∧ succeeds = true
  | .register _ => 3 * c.fd.toNat / 2 < 2 ^ 31
  | _ => True

instance (c : Call) (s : State) (l : Label) : Decidable (TimeoutFindsWaiter c s l) := by
  cases l <;> unfold TimeoutFindsWaiter <;> infer_instance

section Manager

variable {s s' : IOManager.State} {fd : ℤ} {e : Event} {o : Outcome}

/-- The table has the same contexts at the same addresses. -/
structure SameTable (s s' : IOManager.State) : Prop where
  size_eq : s'.size = s.size
  generation_eq : s'.generation = s.generation

/-- The descriptor has a context in the table. -/
def Found (fd : ℤ) (s : IOManager.State) : Prop :=
  IOManager.lookup s fd = .ok (some (s.ptr fd.toNat))

theorem SameTable.ptr_eq (h : SameTable s s') (fd : ℕ) : s'.ptr fd = s.ptr fd := by
  rw [IOManager.State.ptr, IOManager.State.ptr, h.generation_eq]

theorem SameTable.found (h : SameTable s s') (hfound : Found fd s) : Found fd s' := by
  rw [Found, IOManager.lookup] at hfound ⊢
  rw [h.size_eq, h.ptr_eq]
  exact hfound

theorem found_of_contextFor {p : FdPtr} (hfits : 3 * fd.toNat / 2 < 2 ^ 31)
    (hctx : IOManager.contextFor s fd = .ok (p, s')) :
    Found fd s' := by
  rw [IOManager.contextFor] at hctx
  split_ifs at hctx with hneg hin
  · cases hctx
    rw [Found, IOManager.lookup, if_neg (Int.not_le.mpr hin), if_neg hneg]
  · dsimp only at hctx
    split_ifs at hctx with hlt
    cases hctx
    have hint := toInt32_of_lt hfits
    have hsize : (IOManager.contextResize s (3 * fd.toNat / 2)).size = 3 * fd.toNat / 2 := rfl
    rw [hsize] at hlt
    rw [Found, IOManager.lookup, hsize, hint, if_neg (by omega), if_neg hneg]

theorem addLocked_sameTable {p : FdPtr} {caller : IOManager.Caller} {succeeds : Bool}
    (hcall : IOManager.addLocked s p e none caller succeeds = .ok (o, s')) :
    SameTable s s' := by
  unfold IOManager.addLocked at hcall
  dsimp only at hcall
  split at hcall
  · cases hcall
  · split at hcall
    · cases hcall
      exact ⟨rfl, rfl⟩
    · split_ifs at hcall
      cases hcall
      exact ⟨rfl, rfl⟩

theorem found_of_addEvent {caller : IOManager.Caller} {succeeds : Bool}
    (hfits : 3 * fd.toNat / 2 < 2 ^ 31)
    (hcall : IOManager.addEvent s fd e none caller succeeds = .ok (o, s')) :
    Found fd s' := by
  rw [IOManager.addEvent] at hcall
  split at hcall
  · cases hcall
  · rename_i hctx
    exact (addLocked_sameTable hcall).found (found_of_contextFor hfits hctx)

/-- A `cancelEvent` that finds the descriptor and whose `epoll_ctl` succeeds leaves
the event unregistered. -/
theorem cancelEvent_clears (h : HeapOk s) (hfound : Found fd s)
    (hcall : IOManager.cancelEvent s fd e true = .ok (o, s')) :
    SameTable s s' ∧ (s'.context fd.toNat).events.has e = false := by
  set p := s.ptr fd.toNat with hp
  rw [IOManager.cancelEvent, IOManager.whenRegistered_of_some hfound] at hcall
  by_cases he : (s.ctx p).events.has e = true
  · rw [if_pos he, IOManager.cancelLocked] at hcall
    have hk : (s.kernel p.fd).isSome := by
      rw [(h p).registered (IOManager.EventMask.ne_none_of_has he)]
      rfl
    split at hcall
    · rename_i hfailed
      rw [IOManager.eraseRegistration_eq hk, if_pos rfl] at hfailed
      cases hfailed
    · rename_i kernel _
      split at hcall
      · cases hcall
      · rename_i htrigger
        cases hcall
        obtain ⟨_, _, rfl⟩ := (IOManager.trigger_ok_iff (s := { s with kernel := kernel })
          (h p).occupied).mp htrigger
        refine ⟨⟨rfl, rfl⟩, ?_⟩
        change ((IOManager.State.cleared _ p _).ctx p).events.has e = false
        rw [IOManager.State.cleared_ctx_self, IOManager.FdContext.events_clearAll,
          IOManager.EventMask.diff_single, IOManager.EventMask.has_erase]
        simp
  · rw [if_neg he] at hcall
    cases hcall
    exact ⟨⟨rfl, rfl⟩, Bool.eq_false_iff.mpr he⟩

theorem dispatch_registers_no_one {p : FdPtr} {report : IOManager.Report} {succeeds : Bool}
    (h : HeapOk s) (hcall : IOManager.dispatch s p report succeeds = .ok (o, s')) :
    SameTable s s' ∧
      ∀ q, (s'.ctx q).events.has e = true →
        (s.ctx q).events.has e = true ∧ (s'.ctx q).getContext e = (s.ctx q).getContext e := by
  have hsame : ∀ q, (s.ctx q).events.has e = true →
      (s.ctx q).events.has e = true ∧ (s.ctx q).getContext e = (s.ctx q).getContext e :=
    fun q hq => ⟨hq, rfl⟩
  unfold IOManager.dispatch at hcall
  dsimp only at hcall
  generalize report.realEvents (s.ctx p).events = m at hcall
  split at hcall
  · cases hcall
    exact ⟨⟨rfl, rfl⟩, hsame⟩
  · split at hcall
    · cases hcall
      exact ⟨⟨rfl, rfl⟩, hsame⟩
    · rename_i kernel hkernel
      split at hcall
      · cases hcall
      · rename_i htrigger
        cases hcall
        obtain ⟨_, _, rfl⟩ :=
          (IOManager.triggerReal_ok_iff (s := { s with kernel := kernel })
            (h p).occupied).mp htrigger
        refine ⟨⟨rfl, rfl⟩, ?_⟩
        intro q hq
        by_cases hqp : q = p
        · subst hqp
          rw [IOManager.State.cleared_ctx_self, IOManager.FdContext.events_clearAll] at hq
          have hboth : (s.ctx q).events.has e = true ∧ m.has e = false := by
            revert hq
            cases e <;> simp [IOManager.EventMask.diff, IOManager.EventMask.has]
          rw [IOManager.State.cleared_ctx_self, IOManager.FdContext.getContext_clearAll, hboth.2]
          exact ⟨hboth.1, rfl⟩
        · have hctx : (IOManager.State.cleared { s with kernel := kernel } p m).ctx q =
              s.ctx q := by
            simp [IOManager.State.cleared, Function.update_of_ne hqp]
          rw [hctx] at hq ⊢
          exact ⟨hq, rfl⟩

theorem report_registers_no_one {fd : ℕ} {report : IOManager.Report} {succeeds : Bool}
    (h : HeapOk s)
    (hcall : IOManager.system.step s (.dispatch fd report succeeds) = some (o, s')) :
    SameTable s s' ∧
      ∀ q, (s'.ctx q).events.has e = true →
        (s.ctx q).events.has e = true ∧ (s'.ctx q).getContext e = (s.ctx q).getContext e := by
  simp only [IOManager.system, IOManager.call] at hcall
  split at hcall
  · cases hcall
  · split_ifs at hcall
    · rename_i reg _ _
      cases hdispatch : IOManager.dispatch s reg.data report succeeds with
      | error failure =>
        rw [hdispatch] at hcall
        cases hcall
      | ok q =>
        rw [hdispatch] at hcall
        cases hcall
        exact dispatch_registers_no_one h hdispatch
    · cases hcall

end Manager

section Invariant

variable {c : Call} {s s' : State}

/-- What the condition keeps true. -/
structure Inv (c : Call) (s : State) : Prop where
  heap : HeapOk s.iom
  /-- on the way to the registration the call has not been cancelled -/
  entering : s.pc.Entering → s.cancelled = false
  /-- nor while it is registered -/
  waiting : s.pc.Waiting → c.Registered s.iom → s.cancelled = false
  found : s.pc.Waiting → Found c.fd s.iom
  /-- a callback that has run has cancelled the call, or found it cancelled -/
  fired : s.pc ≠ .returned → ∀ i, s.timer i = .fired → s.cancelled = true

theorem Inv.not_lostTimeout (h : Inv c s) : ¬ LostTimeout c s := by
  rintro ⟨hparked, hreg, ⟨_, hfired⟩, _⟩
  have hnot := h.waiting (Or.inr (Or.inr hparked)) hreg
  have hcancelled := h.fired (by rw [hparked]; decide) _ hfired
  rw [hnot] at hcancelled
  cases hcancelled

theorem start_inv {iom : IOManager.State} (hiom : HeapOk iom) (now : ℕ) :
    Inv c (State.start iom now) where
  heap := hiom
  entering := fun _ => rfl
  waiting := fun hw _ => by rcases hw with hw | hw | hw <;> cases hw
  found := fun hw => by rcases hw with hw | hw | hw <;> cases hw
  fired := fun _ _ hf => by cases hf

/-- A step of the fiber that only moves on, without touching the IO manager. -/
theorem Inv.move (h : Inv c s) (pc' : Pc) (hpc' : s'.pc = pc')
    (hiom : s'.iom = s.iom) (hcancelled : s'.cancelled = s.cancelled)
    (hfired : ∀ i, s'.timer i = .fired → s.timer i = .fired) (hpc : s.pc ≠ .returned)
    (hentering : ¬ pc'.Entering ∨ s.cancelled = false) (hwaiting : ¬ pc'.Waiting ∨ s.pc.Waiting) :
    Inv c s' where
  heap := by
    rw [hiom]
    exact h.heap
  entering := fun he => by
    rw [hcancelled]
    exact hentering.resolve_left (not_not.mpr (hpc' ▸ he))
  waiting := fun hw hreg => by
    rw [hcancelled]
    rw [hiom] at hreg
    exact h.waiting (hwaiting.resolve_left (not_not.mpr (hpc' ▸ hw))) hreg
  found := fun hw => by
    rw [hiom]
    exact h.found (hwaiting.resolve_left (not_not.mpr (hpc' ▸ hw)))
  fired := fun _ i hi => by
    rw [hcancelled]
    exact h.fired hpc i (hfired i hi)

theorem fired_of_update {timer : ℕ → TimerState} {i j : ℕ} {x : TimerState} (hx : x ≠ .fired)
    (h : Function.update timer i x j = .fired) :
    timer j = .fired := by
  by_cases hij : j = i
  · subst hij
    rw [Function.update_self] at h
    exact absurd h hx
  · rw [Function.update_of_ne hij] at h
    exact h

/-- `timer->cancel()` changes the timer only, and makes none fire. -/
theorem cancelTimer_spec (s : State) :
    s.cancelTimer.iom = s.iom ∧ s.cancelTimer.cancelled = s.cancelled ∧
      ∀ i, s.cancelTimer.timer i = .fired → s.timer i = .fired := by
  unfold State.cancelTimer
  split
  · exact ⟨rfl, rfl, fun _ hi => fired_of_update (by decide) hi⟩
  · exact ⟨rfl, rfl, fun _ hi => hi⟩

theorem Inv.register {succeeds : Bool} (h : Inv c s) (hfits : 3 * c.fd.toNat / 2 < 2 ^ 31)
    (hstep : fiberStep c s (.register succeeds) = some s') :
    Inv c s' := by
  rw [fiberStep] at hstep
  split_ifs at hstep with hpc
  have hlive := h.entering (Or.inr (Or.inr hpc))
  split at hstep
  · cases hstep
  · rename_i o iom hcall
    cases hstep
    exact
      { heap := h.heap.addEvent hcall
        entering := fun _ => hlive
        waiting := fun _ _ => hlive
        found := fun _ => found_of_addEvent hfits hcall
        fired := fun _ i hi => h.fired (by rw [hpc]; decide) i hi }

theorem Inv.fiberStep {l : Label} (h : Inv c s) (hP : TimeoutFindsWaiter c s l)
    (hstep : fiberStep c s l = some s') :
    Inv c s' := by
  obtain ⟨hiom, hcancelled, hfired⟩ := cancelTimer_spec s
  cases l with
  | register succeeds => exact h.register hP hstep
  | attempt again =>
    simp only [Hook.fiberStep] at hstep
    split_ifs at hstep with hpc hagain
    · cases hstep
      exact h.move .arm rfl rfl rfl (fun _ hi => hi) (by rw [hpc]; decide)
        (Or.inr (h.entering (Or.inl hpc))) (Or.inl (by decide))
    · cases hstep
      exact h.move .returned rfl rfl rfl (fun _ hi => hi) (by rw [hpc]; decide)
        (Or.inl (by decide)) (Or.inl (by decide))
  | arm =>
    simp only [Hook.fiberStep] at hstep
    split_ifs at hstep with hpc
    have hlive := h.entering (Or.inr (Or.inl hpc))
    split at hstep
    · cases hstep
      exact h.move .register rfl rfl rfl (fun _ hi => hi) (by rw [hpc]; decide)
        (Or.inr hlive) (Or.inl (by decide))
    · cases hstep
      exact h.move .register rfl rfl rfl (fun _ hi => fired_of_update (by simp) hi)
        (by rw [hpc]; decide) (Or.inr hlive) (Or.inl (by decide))
  | giveUp =>
    simp only [Hook.fiberStep] at hstep
    split_ifs at hstep with hpc
    cases hstep
    exact h.move .returned rfl hiom hcancelled hfired (by rw [hpc]; decide)
      (Or.inl (by decide)) (Or.inl (by decide))
  | hold =>
    simp only [Hook.fiberStep] at hstep
    split_ifs at hstep with hpc
    cases hstep
    exact h.move .swapOut rfl rfl rfl (fun _ hi => hi) (by rw [hpc]; decide)
      (Or.inl (by decide)) (Or.inr (Or.inl hpc))
  | swapOut =>
    simp only [Hook.fiberStep] at hstep
    split_ifs at hstep with hpc
    cases hstep
    exact h.move .parked rfl rfl rfl (fun _ hi => hi) (by rw [hpc]; decide)
      (Or.inl (by decide)) (Or.inr (Or.inr (Or.inl hpc)))
  | resume =>
    simp only [Hook.fiberStep] at hstep
    split_ifs at hstep with hpc
    cases hstep
    exact h.move .disarm rfl rfl rfl (fun _ hi => hi) (by rw [hpc.1]; decide)
      (Or.inl (by decide)) (Or.inl (by decide))
  | disarm =>
    simp only [Hook.fiberStep] at hstep
    split_ifs at hstep with hpc
    cases hstep
    exact h.move .check rfl hiom hcancelled hfired (by rw [hpc]; decide)
      (Or.inl (by decide)) (Or.inl (by decide))
  | check =>
    simp only [Hook.fiberStep] at hstep
    split_ifs at hstep with hpc
    split at hstep
    · rename_i hlive _
      cases hstep
      exact h.move .attempt rfl rfl rfl (fun _ hi => hi) (by rw [hpc]; decide)
        (Or.inr hlive) (Or.inl (by decide))
    · cases hstep
      exact h.move .returned rfl rfl rfl (fun _ hi => hi) (by rw [hpc]; decide)
        (Or.inl (by decide)) (Or.inl (by decide))
  | clock now => cases hstep
  | expire i rollover => cases hstep
  | callback i succeeds => cases hstep
  | report fd report succeeds => cases hstep

theorem Inv.callback {i : ℕ} {succeeds : Bool} (h : Inv c s)
    (hP : TimeoutFindsWaiter c s (.callback i succeeds))
    (hstep : step c s (.callback i succeeds) = some s') :
    Inv c s' := by
  simp only [step] at hstep
  split_ifs at hstep with hdue hgone
  · -- the call has returned or been cancelled: only the timer changes
    cases hstep
    exact
      { heap := h.heap
        entering := h.entering
        waiting := h.waiting
        found := h.found
        fired := fun hpc _ _ => hgone.resolve_left hpc }
  · rw [not_or, Bool.not_eq_true] at hgone
    obtain ⟨hentering, rfl⟩ := hP hgone.2
    split at hstep
    · cases hstep
    · rename_i o iom hcall
      cases hstep
      refine
        { heap := h.heap.whenRegistered (fun _ he => h.heap.cancelLocked he) hcall
          entering := fun he => absurd he hentering
          waiting := ?_
          found := fun hw =>
            (cancelEvent_clears h.heap (h.found hw) hcall).1.found (h.found hw)
          fired := fun _ _ _ => rfl }
      intro hw hreg
      have hcleared := (cancelEvent_clears h.heap (h.found hw) hcall).2
      exact absurd hreg.1 (Bool.eq_false_iff.mp hcleared)

theorem Inv.report {fd : ℕ} {report : IOManager.Report} {succeeds : Bool} (h : Inv c s)
    (hstep : step c s (.report fd report succeeds) = some s') :
    Inv c s' := by
  simp only [step] at hstep
  split at hstep
  · cases hstep
  rename_i o iom hcall
  cases hstep
  have hheap : HeapOk iom := h.heap.step hcall
  obtain ⟨htable, hkeeps⟩ := report_registers_no_one (e := c.event) h.heap hcall
  refine
    { heap := hheap
      entering := h.entering
      waiting := ?_
      found := fun hw => htable.found (h.found hw)
      fired := h.fired }
  rintro hw ⟨hhas, hfiber⟩
  change (iom.ctx (iom.ptr c.fd.toNat)).events.has c.event = true at hhas
  change ((iom.ctx (iom.ptr c.fd.toNat)).getContext c.event).fiber = some c.fiber at hfiber
  rw [htable.ptr_eq] at hhas hfiber
  obtain ⟨hhas', hctx⟩ := hkeeps _ hhas
  rw [hctx] at hfiber
  exact h.waiting hw ⟨hhas', hfiber⟩

theorem Inv.step {l : Label} (h : Inv c s) (hP : TimeoutFindsWaiter c s l)
    (hstep : step c s l = some s') :
    Inv c s' := by
  cases l with
  | callback i succeeds => exact h.callback hP hstep
  | report fd report succeeds => exact h.report hstep
  | clock now =>
    cases hstep
    exact ⟨h.heap, h.entering, h.waiting, h.found, h.fired⟩
  | expire i rollover =>
    simp only [Hook.step] at hstep
    split at hstep
    · split_ifs at hstep
      cases hstep
      refine ⟨h.heap, h.entering, h.waiting, h.found, ?_⟩
      exact fun hpc j hj => h.fired hpc j (fired_of_update (by decide) hj)
    · cases hstep
  | attempt again => exact h.fiberStep hP hstep
  | arm => exact h.fiberStep hP hstep
  | register succeeds => exact h.fiberStep hP hstep
  | giveUp => exact h.fiberStep hP hstep
  | hold => exact h.fiberStep hP hstep
  | swapOut => exact h.fiberStep hP hstep
  | resume => exact h.fiberStep hP hstep
  | disarm => exact h.fiberStep hP hstep
  | check => exact h.fiberStep hP hstep

end Invariant

/--
**No timeout is lost** in a run in which every callback that acts finds the fiber
past its registration: whatever the timeout, the call and the interleaving, the
fiber is never parked on a registered event after its timer has fired.
-/
theorem no_lost_timeout (c : Call)
    {iom : IOManager.State} (hiom : IOManager.system.Reachable IOManager.State.init iom)
    (now : ℕ) {t : State}
    (ht : (system c).ReachableWhen (TimeoutFindsWaiter c) (State.start iom now) t) :
    ¬ LostTimeout c t := by
  apply Inv.not_lostTimeout
  refine ht.invariant ?_ (start_inv (IOManager.reachable_heapOk hiom) now)
  intro s l o s' h hP hstep
  obtain ⟨s₁, hs₁, heq⟩ := Option.map_eq_some_iff.mp hstep
  cases heq
  exact h.step hP hs₁

/-- A read on descriptor 5 with the timeout `ms`. -/
def readFive (ms : ℕ) : Call :=
  { site := .doIo .read, fd := 5, timeout := some ms, scheduler := 1, fiber := 7 }

/-- A `connect` on descriptor 5 with the timeout `ms`. -/
def connectFive (ms : ℕ) : Call :=
  { site := .connect, fd := 5, timeout := some ms, scheduler := 1, fiber := 7 }

/-- Register and park; then the timer expires and its callback runs. -/
def timeoutAfterPark : List Label :=
  [.attempt true, .arm, .register true, .hold, .swapOut, .clock 20, .expire 0 false,
    .callback 0 true]

/-- The timer expires and its callback runs before the event is registered. -/
def timeoutBeforeRegister : List Label :=
  [.attempt true, .arm, .expire 0 false, .callback 0 true, .register true, .hold, .swapOut]

/-- A callback after the registration: the timer has fired, the fiber is parked, and
its wake-up is queued. -/
theorem no_lost_timeout_after_park :
    ∃ t, (system (readFive 10)).ReachableWhen (TimeoutFindsWaiter (readFive 10))
        (State.start IOManager.State.init 0) t ∧
      (t.pc = .parked ∧ t.timer 0 = .fired ∧ t.wakeups = 1) ∧
      ¬ LostTimeout (readFive 10) t := by
  obtain ⟨t, ht, hp⟩ := System.exists_reachableWhen (M := system (readFive 10))
    (P := TimeoutFindsWaiter (readFive 10)) (State.start IOManager.State.init 0)
    timeoutAfterPark (fun t => t.pc = .parked ∧ t.timer 0 = .fired ∧ t.wakeups = 1)
    (by decide +kernel)
  exact ⟨t, ht, hp, no_lost_timeout (readFive 10) ⟨[], [], rfl⟩ 0 ht⟩

/-- With a timeout of 0 the callback can come before the registration, in both
functions; the fiber then stays parked. -/
theorem timeout_lost_before_register :
    (∃ t, (system (readFive 0)).Reachable (State.start IOManager.State.init 0) t ∧
      LostTimeout (readFive 0) t) ∧
    ∃ t, (system (connectFive 0)).Reachable (State.start IOManager.State.init 0) t ∧
      LostTimeout (connectFive 0) t := by
  constructor
  · obtain ⟨t, ht, hlost⟩ := System.exists_reachableWhen (M := system (readFive 0))
      (P := fun _ _ => True) (State.start IOManager.State.init 0)
      timeoutBeforeRegister (LostTimeout (readFive 0)) (by decide +kernel)
    exact ⟨t, ht.reachable, hlost⟩
  · obtain ⟨t, ht, hlost⟩ := System.exists_reachableWhen (M := system (connectFive 0))
      (P := fun _ _ => True) (State.start IOManager.State.init 0)
      timeoutBeforeRegister (LostTimeout (connectFive 0)) (by decide +kernel)
    exact ⟨t, ht.reachable, hlost⟩

end Hook
end Civan
