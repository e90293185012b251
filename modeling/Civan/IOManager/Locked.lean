import Civan.IOManager.Registry

/-!
# What the locked sections do

`epoll_ctl` and `triggerEvent` as the sections under `fd_ctx->mutex` use them.  A
trigger succeeds exactly when the bit of its event is set and the context has a
scheduler; it then clears the event and lowers the counter.
-/

namespace Civan
namespace IOManager

open MachineInt

/-- How a call fails, if it does. -/
def failureOf {α : Type} : Except Failure α → Option Failure
  | .error f => some f
  | .ok _ => none

section Kernel

/-- What epoll keeps for a context with the mask `m`. -/
def registration (p : FdPtr) (m : EventMask) : Option Registration :=
  if m = .none then none else some { events := m, data := p }

variable {kernel : ℕ → Option Registration} {p : FdPtr} {m : EventMask} {succeeds : Bool}

theorem registration_of_ne (h : m ≠ .none) :
    registration p m = some { events := m, data := p } :=
  if_neg h

theorem eraseRegistration_eq (h : (kernel p.fd).isSome) :
    eraseRegistration kernel p m succeeds =
      if succeeds then some (Function.update kernel p.fd (registration p m)) else none := by
  unfold eraseRegistration registration epollCtl
  by_cases hm : m = .none <;> cases succeeds <;> simp [hm, h]

theorem addRegistration_eq {e : Event} (h : kernel p.fd = registration p m) :
    epollCtl kernel (if m = .none then .add else .mod) p.fd
        { events := m.insert e, data := p } succeeds =
      if succeeds then some (Function.update kernel p.fd (registration p (m.insert e)))
      else none := by
  rw [registration, if_neg EventMask.insert_ne_none]
  unfold epollCtl
  by_cases hm : m = .none <;> cases succeeds <;> simp [hm, h, registration]

end Kernel

section Triggers

/-- What `triggerEvent` relies on. -/
def FdContext.CanTrigger (c : FdContext) (e : Event) : Prop :=
  c.events.has e = true ∧ (c.getContext e).scheduler.isSome

/-- The waiters for the events of a mask, that for reading first. -/
def FdContext.waitersOf (c : FdContext) (m : EventMask) : List Wakeup :=
  (if m.read then c.read.waiters else []) ++ (if m.write then c.write.waiters else [])

/-- The events of `m` are cleared in the context at `p`, and the counter is lowered. -/
def State.cleared (s : State) (p : FdPtr) (m : EventMask) : State :=
  { s with
    ctx := Function.update s.ctx p ((s.ctx p).clearAll m)
    pendingEventCount := sizeSub s.pendingEventCount m.count }

variable {s s' : State} {p : FdPtr} {e : Event} {m : EventMask} {woken : List Wakeup}

theorem FdContext.waitersOf_single (c : FdContext) :
    c.waitersOf (Registry.single e) = (c.getContext e).waiters := by
  cases e <;>
    simp [waitersOf, Registry.single, EventMask.none, EventMask.insert, FdContext.getContext]

theorem EventMask.count_diff {m k : EventMask} (h : m.inter k = k) :
    (m.diff k).count + k.count = m.count := by
  obtain ⟨mr, mw⟩ := m
  obtain ⟨kr, kw⟩ := k
  revert h
  cases mr <;> cases mw <;> cases kr <;> cases kw <;> decide

theorem EventMask.diff_single {m : EventMask} {e : Event} :
    m.diff (Registry.single e) = m.erase e := by
  obtain ⟨r, w⟩ := m
  cases e <;> simp [Registry.single, EventMask.none, EventMask.insert, EventMask.diff,
    EventMask.erase]

theorem EventMask.inter_single {m : EventMask} {e : Event} (h : m.has e = true) :
    m.inter (Registry.single e) = Registry.single e := by
  obtain ⟨r, w⟩ := m
  cases e <;> simp_all [Registry.single, EventMask.none, EventMask.insert, EventMask.inter,
    EventMask.has]

theorem FdContext.count_waitersOf (c : FdContext) (m : EventMask) (w : Wakeup) :
    (c.waitersOf m).count w + (c.clearAll m).waiters.count w = c.waiters.count w := by
  obtain ⟨read, write⟩ := m
  cases read <;> cases write <;>
    simp [waitersOf, clearAll, waiters, clear, setContext, List.count_append, Nat.add_comm]

theorem FdContext.Ok.length_waitersOf {c : FdContext} (h : c.Ok EventContext.Occupied)
    (hm : c.events.inter m = m) :
    (c.waitersOf m).length = m.count := by
  have hlength : ∀ e, m.has e = true → (c.getContext e).waiters.length = 1 := by
    intro e he
    rw [← hm, EventMask.has_inter, Bool.and_eq_true] at he
    exact (h.of_has he.1).length_waiters
  have hread := hlength .read
  have hwrite := hlength .write
  simp only [EventMask.has, FdContext.getContext] at hread hwrite
  unfold FdContext.waitersOf EventMask.count
  cases hr : m.read <;> cases hw : m.write <;> simp_all

@[simp] theorem EventMask.inter_self : m.inter m = m := by
  simp [EventMask.inter]

@[simp] theorem EventMask.count_single : (Registry.single e).count = 1 := by
  cases e <;> rfl

theorem State.cleared_none : s.cleared p .none = s := by
  simp [State.cleared, FdContext.clearAll, EventMask.none, EventMask.count, sizeSub]

@[simp] theorem State.cleared_ctx_self : (s.cleared p m).ctx p = (s.ctx p).clearAll m := by
  simp [State.cleared]

theorem State.cleared_cleared (m : EventMask) :
    (s.cleared p ⟨m.read, false⟩).cleared p ⟨false, m.write⟩ = s.cleared p m := by
  have hcount : sizeSub (sizeSub s.pendingEventCount m.read.toNat) m.write.toNat =
      sizeSub s.pendingEventCount (m.read.toNat + m.write.toNat) := by
    cases m.read <;> cases m.write <;> simp only [Bool.toNat_true, Bool.toNat_false, sizeSub] <;>
      split_ifs <;> omega
  simp only [State.cleared, Function.update_self, Function.update_idem, FdContext.clearAll,
    EventMask.count, Bool.toNat_false, Nat.add_zero, Nat.zero_add, hcount, Bool.false_eq_true,
    if_false]

theorem trigger_ok_iff (h : (s.ctx p).Ok EventContext.Occupied) :
    trigger s p e = .ok (woken, s') ↔
    (s.ctx p).CanTrigger e ∧
      woken = (s.ctx p).waitersOf (Registry.single e) ∧
      s' = s.cleared p (Registry.single e) := by
  rw [FdContext.waitersOf_single, State.cleared, FdContext.clearAll_single,
    EventMask.count_single]
  constructor
  · intro htrigger
    have hhas : (s.ctx p).events.has e = true := by
      by_contra hnot
      simp [trigger, triggerEvent, Bool.eq_false_iff.mpr hnot] at htrigger
    have hsch : ((s.ctx p).getContext e).scheduler.isSome := by
      by_contra hnone
      simp only [Option.isSome_iff_ne_none, ne_eq, not_not] at hnone
      simp [trigger, triggerEvent, hhas, hnone] at htrigger
    unfold trigger at htrigger
    rw [FdContext.triggerEvent_eq hhas hsch (h.of_has hhas)] at htrigger
    simp only [Except.ok.injEq, Prod.mk.injEq] at htrigger
    exact ⟨⟨hhas, hsch⟩, htrigger.1.symm, htrigger.2.symm⟩
  · rintro ⟨⟨hhas, hsch⟩, rfl, rfl⟩
    unfold trigger
    rw [FdContext.triggerEvent_eq hhas hsch (h.of_has hhas)]

/-- The mask of the events triggered behind a test. -/
def maskIf (test : Bool) (e : Event) : EventMask :=
  if test then Registry.single e else .none

theorem maskIf_read (test : Bool) : maskIf test .read = ⟨test, false⟩ := by
  cases test <;> rfl

theorem maskIf_write (test : Bool) : maskIf test .write = ⟨false, test⟩ := by
  cases test <;> rfl

theorem triggerIf_ok_iff {test : Bool} (h : (s.ctx p).Ok EventContext.Occupied) :
    triggerIf s p test e = .ok (woken, s') ↔
    (test = true → (s.ctx p).CanTrigger e) ∧
      woken = (s.ctx p).waitersOf (maskIf test e) ∧
      s' = s.cleared p (maskIf test e) := by
  unfold triggerIf maskIf
  cases test with
  | false =>
    simp only [Bool.false_eq_true, if_false, State.cleared_none]
    constructor
    · intro hok
      cases hok
      exact ⟨fun hfalse => hfalse.elim, rfl, rfl⟩
    · rintro ⟨_, rfl, rfl⟩
      rfl
  | true => simpa using trigger_ok_iff h

theorem State.cleared_ok (h : (s.ctx p).Ok EventContext.Occupied) :
    ((s.cleared p m).ctx p).Ok EventContext.Occupied := by
  rw [State.cleared_ctx_self]
  exact h.clearAll

theorem State.canTrigger_write_cleared (test : Bool) :
    ((s.cleared p ⟨test, false⟩).ctx p).CanTrigger .write ↔ (s.ctx p).CanTrigger .write := by
  rw [State.cleared_ctx_self]
  unfold FdContext.CanTrigger
  rw [FdContext.events_clearAll, FdContext.getContext_clearAll]
  simp [EventMask.has, EventMask.diff]

theorem State.waitersOf_cleared (m : EventMask) :
    (s.ctx p).waitersOf ⟨m.read, false⟩ ++
        ((s.cleared p ⟨m.read, false⟩).ctx p).waitersOf ⟨false, m.write⟩ =
      (s.ctx p).waitersOf m := by
  have hwrite : ((s.ctx p).clearAll ⟨m.read, false⟩).write = (s.ctx p).write := by
    simpa [FdContext.getContext, EventMask.has] using
      (FdContext.getContext_clearAll (c := s.ctx p) (e := .write) (m := ⟨m.read, false⟩))
  rw [State.cleared_ctx_self]
  simp [FdContext.waitersOf, hwrite]

/-- The triggers for a mask succeed exactly when each of them can be made. -/
theorem triggerReal_ok_iff (h : (s.ctx p).Ok EventContext.Occupied) :
    triggerReal s p m = .ok (woken, s') ↔
    (∀ e, m.has e = true → (s.ctx p).CanTrigger e) ∧
      woken = (s.ctx p).waitersOf m ∧
      s' = s.cleared p m := by
  have hok₁ : ((s.cleared p ⟨m.read, false⟩).ctx p).Ok EventContext.Occupied := State.cleared_ok h
  constructor
  · intro htriggers
    unfold triggerReal at htriggers
    split at htriggers
    · cases htriggers
    · rename_i w₁ s₁ hread
      obtain ⟨hr, rfl, rfl⟩ := (triggerIf_ok_iff h).mp hread
      rw [maskIf_read] at htriggers
      split at htriggers
      · cases htriggers
      · rename_i w₂ s₂ hwrite
        obtain ⟨hw, rfl, rfl⟩ := (triggerIf_ok_iff hok₁).mp hwrite
        rw [maskIf_write, State.waitersOf_cleared, State.cleared_cleared] at htriggers
        simp only [Except.ok.injEq, Prod.mk.injEq] at htriggers
        refine ⟨?_, htriggers.1.symm, htriggers.2.symm⟩
        intro e he
        cases e with
        | read => exact hr he
        | write => exact (State.canTrigger_write_cleared _).mp (hw he)
  · rintro ⟨hall, rfl, rfl⟩
    have hread : triggerIf s p m.read .read = .ok (_, s.cleared p ⟨m.read, false⟩) :=
      (triggerIf_ok_iff h).mpr ⟨hall .read, rfl, by rw [maskIf_read]⟩
    have hwrite : triggerIf (s.cleared p ⟨m.read, false⟩) p m.write .write =
        .ok (_, s.cleared p m) :=
      (triggerIf_ok_iff hok₁).mpr
        ⟨fun hm => (State.canTrigger_write_cleared _).mpr (hall .write hm), rfl,
          by rw [maskIf_write, State.cleared_cleared]⟩
    rw [maskIf_read] at hread
    rw [maskIf_write] at hwrite
    simp only [triggerReal, hread, hwrite, State.waitersOf_cleared]

theorem trigger_error {err : Failure} (he : (s.ctx p).events.has e = true)
    (htrigger : trigger s p e = .error err) :
    err = .nullScheduler := by
  unfold trigger triggerEvent at htrigger
  rw [if_neg (by simp [he])] at htrigger
  cases hsch : ((s.ctx p).getContext e).scheduler with
  | none =>
    simp only [hsch] at htrigger
    cases htrigger
    rfl
  | some sch =>
    cases hcb : ((s.ctx p).getContext e).cb <;> simp [hsch, hcb] at htrigger

theorem triggerIf_error {test : Bool} {err : Failure}
    (he : test = true → (s.ctx p).events.has e = true)
    (htrigger : triggerIf s p test e = .error err) :
    err = .nullScheduler := by
  unfold triggerIf at htrigger
  split_ifs at htrigger with htest
  exact trigger_error (he htest) htrigger

theorem triggerReal_error {err : Failure} (h : (s.ctx p).Ok EventContext.Occupied)
    (hm : (s.ctx p).events.inter m = m) (htriggers : triggerReal s p m = .error err) :
    err = .nullScheduler := by
  have hmem : ∀ e, m.has e = true → (s.ctx p).events.has e = true := by
    intro e he
    rw [← hm, EventMask.has_inter, Bool.and_eq_true] at he
    exact he.1
  unfold triggerReal at htriggers
  split at htriggers
  · rename_i hread
    cases htriggers
    exact triggerIf_error (hmem .read) hread
  · rename_i woken₁ s₁ hread
    obtain ⟨_, _, rfl⟩ := (triggerIf_ok_iff h).mp hread
    split at htriggers
    · rename_i hwrite
      cases htriggers
      refine triggerIf_error (fun hset => ?_) hwrite
      rw [State.cleared_ctx_self, FdContext.events_clearAll]
      have hhas := hmem .write hset
      cases htest : m.read <;>
        simp_all [maskIf, Registry.single, EventMask.diff, EventMask.has, EventMask.none,
          EventMask.insert]
    · cases htriggers

/-- A report within the interest set names only registered events. -/
theorem Report.realEvents_of_within {r : Report} {events : EventMask} (h : r.within events) :
    events.inter (r.realEvents events) = r.realEvents events := by
  obtain ⟨hin, hout⟩ := h
  unfold Report.realEvents EventMask.inter
  ext
  · split_ifs <;> cases hr : r.epollIn <;> simp_all
  · split_ifs <;> cases hr : r.epollOut <;> simp_all

/--
The locked section of `cancelAll`, once `epoll_ctl` has succeeded: the branch for
`WRITE` asks for `READ` a second time, which is clear by then.
-/
theorem cancelAllLocked_ok_iff {kernel : ℕ → Option Registration} {succeeds : Bool} {o : Outcome}
    (h : (s.ctx p).Ok EventContext.Occupied)
    (hdel : epollCtl s.kernel .del p.fd { events := .none, data := p } succeeds = some kernel) :
    cancelAllLocked s p succeeds = .ok (o, s') ↔
    (s.ctx p).events.write = false ∧
      ((s.ctx p).events.read = true → (s.ctx p).CanTrigger .read) ∧
      o = { Outcome.quiet true with woken := (s.ctx p).waitersOf (s.ctx p).events } ∧
      s' = State.cleared { s with kernel := kernel } p (s.ctx p).events := by
  have hfirst : ∀ woken s₁,
      triggerIf { s with kernel := kernel } p (s.ctx p).events.read .read = .ok (woken, s₁) ↔
        ((s.ctx p).events.read = true → (s.ctx p).CanTrigger .read) ∧
          woken = (s.ctx p).waitersOf ⟨(s.ctx p).events.read, false⟩ ∧
          s₁ = State.cleared { s with kernel := kernel } p ⟨(s.ctx p).events.read, false⟩ := by
    intro woken s₁
    rw [triggerIf_ok_iff (s := { s with kernel := kernel }) h, maskIf_read]
  -- between the two branches: READ is clear, WRITE is as it was
  have hctx : ((State.cleared { s with kernel := kernel } p
      ⟨(s.ctx p).events.read, false⟩).ctx p).events = ⟨false, (s.ctx p).events.write⟩ := by
    rw [State.cleared_ctx_self, FdContext.events_clearAll]
    simp [EventMask.diff]
  have hok₁ : ((State.cleared { s with kernel := kernel } p
      ⟨(s.ctx p).events.read, false⟩).ctx p).Ok EventContext.Occupied :=
    State.cleared_ok (s := { s with kernel := kernel }) h
  have hevents : (s.ctx p).events.write = false →
      (⟨(s.ctx p).events.read, false⟩ : EventMask) = (s.ctx p).events := by
    intro hwrite
    rw [← hwrite]
  unfold cancelAllLocked
  rw [hdel]
  constructor
  · intro hcall
    dsimp only at hcall
    split at hcall
    · cases hcall
    · rename_i woken s₁ hread
      obtain ⟨hcan, rfl, rfl⟩ := (hfirst _ _).mp hread
      rw [hctx] at hcall
      split at hcall
      · cases hcall
      · rename_i woken' s₂ hsecond
        obtain ⟨hagain, rfl, rfl⟩ := (triggerIf_ok_iff hok₁).mp hsecond
        have hwrite : (s.ctx p).events.write = false := by
          by_contra hset
          have hbit := (hagain (by simpa using hset)).1
          rw [hctx] at hbit
          cases hbit
        cases hcall
        refine ⟨hwrite, hcan, ?_, ?_⟩
        · simp [hwrite, maskIf, FdContext.waitersOf, EventMask.none]
        · simp [hwrite, maskIf, State.cleared_none, hevents hwrite]
  · rintro ⟨hwrite, hcan, rfl, rfl⟩
    have hread := (hfirst _ _).mpr ⟨hcan, rfl, rfl⟩
    simp only [hread, hctx, hwrite]
    simp only [triggerIf, Bool.false_eq_true, if_false, List.append_nil, hevents hwrite]

end Triggers

end IOManager
end Civan
