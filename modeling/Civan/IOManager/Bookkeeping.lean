import Civan.IOManager.Locked

/-!
# The event bookkeeping is consistent

Over every run of `addEvent`, `delEvent`, `cancelEvent` and of dispatched reports,
with every `epoll_ctl` free to fail, the masks, the contexts, the counter and the
kernel's interest sets describe one table of waiters, and each call does to it what
`Registry.step` says.

The one limit is the table: `(int)m_fdContexts.size()` has to be the size, so no
descriptor may make the table outgrow an `int`.
-/

namespace Civan
namespace IOManager

open Transition
open MachineInt

section Totals

/-- A quantity of the contexts, summed over the table. -/
def total (μ : FdContext → ℕ) (s : State) : ℕ :=
  ∑ i ∈ Finset.range s.size, μ (s.context i)

/-- The context of `fd` and with it the interest set and the counter change. -/
def State.put (s : State) (fd : ℕ) (c : FdContext) (pending : ℕ) : State :=
  { s with
    ctx := Function.update s.ctx (s.ptr fd) c
    kernel := Function.update s.kernel fd (registration (s.ptr fd) c.events)
    pendingEventCount := pending }

variable {s : State} {fd n : ℕ} {c : FdContext}

theorem context_put : (s.put fd c n).context = Function.update s.context fd c := by
  funext i
  by_cases hi : i = fd
  · subst hi
    simp [State.put, State.context, State.ptr]
  · have hptr : s.ptr i ≠ s.ptr fd := by simp [State.ptr, hi]
    simp only [State.context, Function.update_of_ne hi]
    exact Function.update_of_ne hptr c s.ctx

theorem registry_put : (s.put fd c n).registry = Function.update s.registry fd c.registry := by
  funext i
  unfold State.registry
  rw [context_put]
  by_cases hi : i = fd
  · subst hi
    simp
  · simp [hi]

theorem total_put (μ : FdContext → ℕ) (hfd : fd < s.size) :
    total μ (s.put fd c n) + μ (s.context fd) = total μ s + μ c := by
  have hmem : fd ∈ Finset.range s.size := Finset.mem_range.mpr hfd
  have hupdate : ∀ i, μ ((s.put fd c n).context i) =
      Function.update (fun i => μ (s.context i)) fd (μ c) i := by
    intro i
    rw [context_put]
    by_cases hi : i = fd
    · subst hi
      simp
    · simp [hi]
  have hafter : total μ (s.put fd c n) =
      μ c + ∑ i ∈ Finset.range s.size \ {fd}, μ (s.context i) := by
    unfold total
    rw [Finset.sum_congr rfl (fun i _ => hupdate i)]
    exact Finset.sum_update_of_mem hmem _ _
  have hbefore : total μ s =
      μ (s.context fd) + ∑ i ∈ Finset.range s.size \ {fd}, μ (s.context i) :=
    Finset.sum_eq_add_sum_sdiff_singleton_of_mem hmem _
  omega

end Totals

section Consistency

/-- The number of registered events. -/
def registeredCount (s : State) : ℕ :=
  total (fun c => c.events.count) s

/--
Masks, contexts, interest sets and counter agree: a context holds a scheduler and
exactly one of a fiber and a callback when its bit is set and is empty otherwise, the
kernel's interest set is the mask, and the counter is the number of bits.
-/
structure Bookkeeping (s : State) : Prop where
  contexts : ∀ fd, (s.context fd).Ok EventContext.Holds
  kernel : ∀ fd, s.kernel fd = registration (s.ptr fd) (s.context fd).events
  pending : s.pendingEventCount = registeredCount s

/-- The books agree, in a table that fits an `int`. -/
structure Consistent (s : State) : Prop extends Bookkeeping s where
  large : 64 ≤ s.size
  small : s.size < 2 ^ 31
  beyond : ∀ fd, s.size ≤ fd → s.context fd = .new

theorem init_consistent : Consistent State.init where
  large := le_rfl
  small := by decide
  contexts _ := FdContext.new_ok _
  beyond _ _ := rfl
  kernel _ := rfl
  pending := by
    simp [registeredCount, total, State.init, State.context, FdContext.new, EventMask.count,
      EventMask.none]

variable {s : State} {fd n : ℕ} {c : FdContext}

/-- The counter is far from wrapping around. -/
theorem Consistent.pending_lt (h : Consistent s) : s.pendingEventCount < 2 ^ 32 := by
  have hle : registeredCount s ≤ ∑ _i ∈ Finset.range s.size, 2 := by
    unfold registeredCount total
    exact Finset.sum_le_sum (fun _ _ => EventMask.count_le_two)
  rw [Finset.sum_const, Finset.card_range, smul_eq_mul] at hle
  have hsmall := h.small
  rw [h.pending]
  omega

/-- The counter covers the events of each descriptor. -/
theorem Consistent.count_le_pending (h : Consistent s) (fd : ℕ) :
    (s.context fd).events.count ≤ s.pendingEventCount := by
  rw [h.pending]
  by_cases hfd : fd < s.size
  · exact Finset.single_le_sum (f := fun i => (s.context i).events.count)
      (fun _ _ => Nat.zero_le _) (Finset.mem_range.mpr hfd)
  · rw [h.beyond fd (Nat.le_of_not_lt hfd)]
    exact Nat.zero_le _

/-- Changing one context in order, with the counter, keeps consistency. -/
theorem Consistent.put (h : Consistent s) (hfd : fd < s.size) (hc : c.Ok EventContext.Holds)
    (hn : n + (s.context fd).events.count = s.pendingEventCount + c.events.count) :
    Consistent (s.put fd c n) where
  large := h.large
  small := h.small
  contexts i := by
    rw [context_put]
    by_cases hi : i = fd
    · rw [hi, Function.update_self]
      exact hc
    · rw [Function.update_of_ne hi]
      exact h.contexts i
  beyond i hi := by
    have hne : i ≠ fd := by
      have hsize : s.size ≤ i := hi
      omega
    rw [context_put, Function.update_of_ne hne]
    exact h.beyond i hi
  kernel i := by
    rw [context_put]
    by_cases hi : i = fd
    · subst hi
      simp [State.put, State.ptr]
    · simp only [State.put, State.ptr, Function.update_of_ne hi]
      exact h.kernel i
  pending := by
    have htotal := total_put (n := n) (c := c) (fun c => c.events.count) hfd
    have hpending := h.pending
    unfold registeredCount at hpending ⊢
    change n = _
    omega

theorem contextResize_of_le {size : ℕ} (hsize : s.size ≤ size) :
    contextResize s size = { s with size := size } := by
  have hgen : (fun i => if size ≤ i ∧ i < s.size then s.generation i + 1 else s.generation i) =
      s.generation := by
    funext i
    rw [if_neg (by omega)]
  rw [contextResize, hgen]

theorem Consistent.total_grow (h : Consistent s) {size : ℕ} {μ : FdContext → ℕ} (hμ : μ .new = 0)
    (hsize : s.size ≤ size) :
    total μ { s with size := size } = total μ s := by
  symm
  unfold total
  refine Finset.sum_subset (Finset.range_mono hsize) ?_
  intro i _ hi
  have hbeyond : s.context i = .new := h.beyond i (by simpa using hi)
  rw [hbeyond, hμ]

theorem Consistent.grow (h : Consistent s) {size : ℕ} (hsize : s.size ≤ size)
    (hsmall : size < 2 ^ 31) :
    Consistent { s with size := size } where
  large := le_trans h.large hsize
  small := hsmall
  contexts := h.contexts
  beyond i hi := h.beyond i (le_trans hsize hi)
  kernel := h.kernel
  pending := by
    unfold registeredCount
    rw [h.total_grow rfl hsize]
    exact h.pending

end Consistency

section Calls

variable {s s' : State} {fd : ℕ} {l : Label} {o : Outcome}

/-- The event state is the same; the table may have grown. -/
structure Unchanged (s s' : State) : Prop where
  contexts : s'.context = s.context
  kernel : s'.kernel = s.kernel
  pending : s'.pendingEventCount = s.pendingEventCount

/-- Whoever was registered is still waiting, was scheduled, or was let go. -/
def Balanced (o : Outcome) (s s' : State) : Prop :=
  ∀ w, o.registered.count w + total (fun c => c.waiters.count w) s =
    o.woken.count w + o.dropped.count w + total (fun c => c.waiters.count w) s'

/-- What a call has to do. -/
structure CallOk (s : State) (l : Label) (o : Outcome) (s' : State) : Prop where
  consistent : Consistent s'
  spec : (o, s'.registry) = s.registry.step l
  balanced : Balanced o s s'
  failed : o.returned = false → Unchanged s s'

theorem CallOk.quiet {returned : Bool} (h : Consistent s') (hsame : Unchanged s s')
    (htotal : ∀ μ : FdContext → ℕ, μ .new = 0 → total μ s' = total μ s)
    (hspec : (Outcome.quiet returned, s.registry) = s.registry.step l) :
    CallOk s l (.quiet returned) s' where
  consistent := h
  spec := by
    rw [← hspec]
    unfold State.registry
    rw [hsame.contexts]
  balanced w := by
    rw [htotal _ (by simp [FdContext.new, FdContext.waiters])]
    simp [Outcome.quiet]
  failed _ := hsame

theorem Unchanged.refl (s : State) : Unchanged s s :=
  ⟨rfl, rfl, rfl⟩

/-- The events of `m` are resolved for `fd`. -/
def State.resolve (s : State) (fd : ℕ) (m : EventMask) : State :=
  s.put fd ((s.context fd).clearAll m) (s.pendingEventCount - m.count)

theorem registry_resolve {m : EventMask} :
    (s.resolve fd m).registry = s.registry.resolve fd m := by
  unfold State.resolve
  rw [registry_put, FdContext.registry_clearAll]
  rfl

/-- The waiters in the table are those in the contexts. -/
theorem waiting_eq (s : State) (fd : ℕ) (m : EventMask) :
    s.registry.waiting fd m = (s.context fd).waitersOf m := by
  unfold Registry.waiting State.registry
  rw [FdContext.toList_registry, FdContext.toList_registry]
  rfl

theorem Consistent.resolve {m : EventMask} (h : Consistent s) (hfd : fd < s.size)
    (hm : (s.context fd).events.inter m = m) :
    Consistent (s.resolve fd m) := by
  refine h.put hfd (h.contexts fd).clearAll ?_
  have hcount := EventMask.count_diff hm
  have hle := h.count_le_pending fd
  rw [FdContext.events_clearAll]
  omega

/-- A call that resolves the events of `m`, by waking or by letting go. -/
theorem CallOk.resolve {m : EventMask} (h : Consistent s) (hfd : fd < s.size)
    (hm : (s.context fd).events.inter m = m) (hreturned : o.returned = true)
    (hregistered : o.registered = [])
    (hleft : ∀ w, o.woken.count w + o.dropped.count w = (s.registry.waiting fd m).count w)
    (hspec : (o, s.registry.resolve fd m) = s.registry.step l) :
    CallOk s l o (s.resolve fd m) where
  consistent := h.resolve hfd hm
  spec := by
    rw [registry_resolve]
    exact hspec
  balanced w := by
    have htotal := total_put (n := s.pendingEventCount - m.count)
      (c := (s.context fd).clearAll m) (fun c => c.waiters.count w) hfd
    have hwaiting := (s.context fd).count_waitersOf m w
    rw [← waiting_eq] at hwaiting
    have hw := hleft w
    rw [hregistered, List.count_nil]
    unfold State.resolve
    omega
  failed hfalse := by
    rw [hreturned] at hfalse
    cases hfalse

theorem Consistent.kernel_isSome (h : Consistent s) {m : EventMask}
    (hm : (s.context fd).events = m) (hne : m ≠ .none) :
    (s.kernel fd).isSome := by
  rw [h.kernel fd, hm, registration, if_neg hne]
  rfl

/-- What the locked sections leave of a consistent state. -/
theorem cleared_eq_resolve (s : State) (fd : ℕ) {m : EventMask}
    (hm : m.count ≤ s.pendingEventCount) :
    State.cleared
      { s with
        kernel := Function.update s.kernel (s.ptr fd).fd
          (registration (s.ptr fd) ((s.ctx (s.ptr fd)).events.diff m)) }
      (s.ptr fd) m = s.resolve fd m := by
  rw [State.resolve, State.put, FdContext.events_clearAll, ← sizeSub_of_le hm]
  rfl

theorem Consistent.canTrigger (h : Consistent s) {e : Event}
    (he : (s.context fd).events.has e = true) :
    (s.context fd).CanTrigger e :=
  ⟨he, ((h.contexts fd).of_has he).1⟩

theorem Consistent.occupied (h : Consistent s) (fd : ℕ) :
    (s.ctx (s.ptr fd)).Ok EventContext.Occupied :=
  (h.contexts fd).mono (fun _ hx => hx.2)

theorem Consistent.single_le_pending (h : Consistent s) {e : Event}
    (he : (s.context fd).events.has e = true) :
    (Registry.single e).count ≤ s.pendingEventCount := by
  have hcount := EventMask.count_erase he
  have hle := h.count_le_pending fd
  rw [EventMask.count_single]
  omega

theorem delLocked_eq {e : Event} {succeeds : Bool} (h : Consistent s)
    (he : (s.context fd).events.has e = true) :
    delLocked s (s.ptr fd) e succeeds =
      .ok (if succeeds then
          ({ Outcome.quiet true with dropped := ((s.context fd).getContext e).waiters },
            s.resolve fd (Registry.single e))
        else (.quiet false, s)) := by
  have hk : (s.kernel (s.ptr fd).fd).isSome :=
    h.kernel_isSome rfl (EventMask.ne_none_of_has he)
  have hpos := h.single_le_pending he
  simp only [delLocked, eraseRegistration_eq hk]
  cases succeeds with
  | false => rfl
  | true =>
    have heq := cleared_eq_resolve s fd hpos
    rw [EventMask.diff_single, State.cleared, FdContext.clearAll_single,
      EventMask.count_single] at heq
    simp only [if_true]
    rw [← heq]
    rfl

theorem cancelLocked_eq {e : Event} {succeeds : Bool} (h : Consistent s)
    (he : (s.context fd).events.has e = true) :
    cancelLocked s (s.ptr fd) e succeeds =
      .ok (if succeeds then
          ({ Outcome.quiet true with woken := ((s.context fd).getContext e).waiters },
            s.resolve fd (Registry.single e))
        else (.quiet false, s)) := by
  have hk : (s.kernel (s.ptr fd).fd).isSome :=
    h.kernel_isSome rfl (EventMask.ne_none_of_has he)
  have hpos := h.single_le_pending he
  simp only [cancelLocked, eraseRegistration_eq hk]
  cases succeeds with
  | false => rfl
  | true =>
    have htrigger := (trigger_ok_iff (s := { s with
        kernel := Function.update s.kernel (s.ptr fd).fd
          (registration (s.ptr fd) ((s.ctx (s.ptr fd)).events.diff (Registry.single e))) })
      (h.occupied fd)).mpr ⟨h.canTrigger he, rfl, rfl⟩
    rw [cleared_eq_resolve s fd hpos, FdContext.waitersOf_single, EventMask.diff_single]
      at htrigger
    simp only [if_true]
    rw [htrigger]
    rfl

theorem dispatch_eq {report : Report} {succeeds : Bool} (h : Consistent s)
    (hwithin : report.within (s.context fd).events) :
    dispatch s (s.ptr fd) report succeeds =
      .ok (if succeeds ∧ report.realEvents (s.context fd).events ≠ .none then
          ({ Outcome.quiet true with
              woken := s.registry.waiting fd (report.realEvents (s.context fd).events) },
            s.resolve fd (report.realEvents (s.context fd).events))
        else (.quiet true, s)) := by
  have hsub := Report.realEvents_of_within hwithin
  generalize hm : report.realEvents (s.context fd).events = m at hsub ⊢
  have hinter : (s.ctx (s.ptr fd)).events.inter m = m := hsub
  have hreal : report.realEvents (s.ctx (s.ptr fd)).events = m := hm
  simp only [dispatch, hreal, hinter]
  by_cases hnone : m = .none
  · simp [hnone]
  · have hk : (s.kernel (s.ptr fd).fd).isSome := by
      refine h.kernel_isSome rfl ?_
      intro hevents
      change (s.context fd).events = .none at hevents
      rw [hevents] at hsub
      exact hnone hsub.symm
    rw [if_neg hnone, eraseRegistration_eq hk]
    cases succeeds with
    | false => simp
    | true =>
      have hle := h.count_le_pending fd
      have hcount := EventMask.count_diff hsub
      have hcan : ∀ e, m.has e = true → (s.context fd).CanTrigger e := by
        intro e he
        refine h.canTrigger ?_
        rw [← hsub] at he
        cases e with
        | read => exact (Bool.and_eq_true_iff.mp he).1
        | write => exact (Bool.and_eq_true_iff.mp he).1
      have htrigger := (triggerReal_ok_iff (s := { s with
          kernel := Function.update s.kernel (s.ptr fd).fd
            (registration (s.ptr fd) ((s.ctx (s.ptr fd)).events.diff m)) })
        (h.occupied fd)).mpr ⟨hcan, rfl, rfl⟩
      have hpos : true = true ∧ m ≠ .none := ⟨rfl, hnone⟩
      rw [cleared_eq_resolve s fd (by omega)] at htrigger
      rw [if_pos hpos, if_pos rfl, waiting_eq]
      dsimp only
      rw [htrigger]
      rfl

theorem Caller.context_holds {caller : Caller} {cb : Option Scheduler.Callback}
    (h : caller.scheduler.isSome) :
    (caller.context cb).Holds := by
  cases cb with
  | some f => exact ⟨h, by simp [Caller.context, EventContext.Occupied]⟩
  | none => exact ⟨h, by simp [Caller.context, EventContext.Occupied]⟩

theorem addLocked_eq
    {e : Event} {cb : Option Scheduler.Callback} {caller : Caller} {succeeds : Bool}
    (h : Consistent s) (he : (s.context fd).events.has e = false)
    (hexec : caller.fiberState = .exec) :
    addLocked s (s.ptr fd) e cb caller succeeds =
      .ok (if succeeds then
          ({ Outcome.quiet true with registered := (caller.context cb).waiters },
            s.put fd ((s.context fd).register e (caller.context cb)) (s.pendingEventCount + 1))
        else (.quiet false, s)) := by
  have hk : s.kernel (s.ptr fd).fd = registration (s.ptr fd) (s.ctx (s.ptr fd)).events :=
    h.kernel fd
  have hempty : (s.ctx (s.ptr fd)).getContext e = .empty := (h.contexts fd).of_not_has he
  have hnot : ¬ (s.ctx (s.ptr fd)).events.has e = true := by
    change ¬ (s.context fd).events.has e = true
    simp [he]
  have hwrap : (s.pendingEventCount + 1) % 2 ^ 64 = s.pendingEventCount + 1 := by
    have hlt := h.pending_lt
    omega
  unfold addLocked
  simp only [if_neg hnot, addRegistration_eq hk]
  cases succeeds with
  | false => rfl
  | true =>
    simp only [if_true, hempty, hexec, ne_eq, not_true_eq_false, and_false, if_false, hwrap]
    rw [State.put, FdContext.events_register]
    rfl

theorem CallOk.register {e : Event} {x : EventContext} (h : Consistent s) (hfd : fd < s.size)
    (he : (s.context fd).events.has e = false) (hx : x.Holds)
    (hspec : s.registry.step l =
      ({ Outcome.quiet true with registered := x.waiters },
        s.registry.enter fd e x.waiters.head?)) :
    CallOk s l { Outcome.quiet true with registered := x.waiters }
      (s.put fd ((s.context fd).register e x) (s.pendingEventCount + 1)) where
  consistent := by
    refine h.put hfd ((h.contexts fd).register hx) ?_
    rw [FdContext.events_register, EventMask.count_insert he]
    omega
  spec := by
    rw [hspec, registry_put, FdContext.registry_register]
    rfl
  balanced w := by
    have htotal := total_put (n := s.pendingEventCount + 1)
      (c := (s.context fd).register e x) (fun c => c.waiters.count w) hfd
    have hcount := FdContext.count_waiters_register (x := x) w ((h.contexts fd).of_not_has he)
    simp only [Outcome.quiet, List.count_nil]
    omega
  failed hfalse := by
    cases hfalse

theorem CallOk.of_grow {size : ℕ} (h : Consistent s) (hsize : s.size ≤ size)
    (hcall : CallOk { s with size := size } l o s') :
    CallOk s l o s' where
  consistent := hcall.consistent
  spec := hcall.spec
  balanced w := by
    have hw := hcall.balanced w
    rw [h.total_grow (by simp [FdContext.new, FdContext.waiters]) hsize] at hw
    exact hw
  failed hfalse :=
    ⟨(hcall.failed hfalse).contexts, (hcall.failed hfalse).kernel, (hcall.failed hfalse).pending⟩

end Calls

section Runs

/--
The calls in question: `addEvent` from a running fiber of a scheduler thread for an
event that is not registered, `delEvent`, `cancelEvent`, and reports for a registered
descriptor within its interest set.
-/
def InDomain (s : State) : Label → Prop
  | .addEvent fd event _ caller _ =>
    caller.scheduler.isSome ∧ caller.fiberState = .exec ∧
      (s.context fd.toNat).events.has event = false
  | .delEvent _ _ _ => True
  | .cancelEvent _ _ _ => True
  | .cancelAll _ _ => False
  | .dispatch fd report _ => ∃ reg ∈ s.kernel fd, report.within reg.events

/-- The descriptor is not negative, and the table it asks for fits an `int`. -/
def TableFits (s : State) : Label → Prop
  | .addEvent fd _ _ _ _ => 0 ≤ fd ∧ (fd.toNat < s.size ∨ 3 * fd.toNat / 2 < 2 ^ 31)
  | .delEvent fd _ _ => 0 ≤ fd
  | .cancelEvent fd _ _ => 0 ≤ fd
  | .cancelAll _ _ => True
  | .dispatch _ _ _ => True

instance (s : State) (l : Label) : Decidable (InDomain s l) := by
  cases l <;> unfold InDomain <;> infer_instance

instance (s : State) (l : Label) : Decidable (TableFits s l) := by
  cases l <;> unfold TableFits <;> infer_instance

variable {s : State}

theorem Consistent.contextFor_eq {fd : ℤ} (h : Consistent s) (hnonneg : 0 ≤ fd)
    (hfits : fd.toNat < s.size ∨ 3 * fd.toNat / 2 < 2 ^ 31) :
    ∃ size, s.size ≤ size ∧ size < 2 ^ 31 ∧ fd.toNat < size ∧
      contextFor s fd = .ok (s.ptr fd.toNat, { s with size := size }) := by
  have hint : toInt32 s.size = s.size := toInt32_of_lt h.small
  have hlarge := h.large
  unfold contextFor
  rw [if_neg (by omega), hint]
  by_cases hlt : fd.toNat < s.size
  · refine ⟨s.size, le_rfl, h.small, hlt, ?_⟩
    rw [if_pos (by omega)]
  · have hgrow : s.size ≤ 3 * fd.toNat / 2 := by omega
    refine ⟨3 * fd.toNat / 2, hgrow, by omega, by omega, ?_⟩
    rw [if_neg (by omega), contextResize_of_le hgrow]
    simp only
    rw [if_pos (by omega)]
    rfl

theorem Consistent.addEvent
    {fd : ℤ} {e : Event} {cb : Option Scheduler.Callback} {caller : Caller} {succeeds : Bool}
    (h : Consistent s) (hdom : InDomain s (.addEvent fd e cb caller succeeds))
    (hfits : TableFits s (.addEvent fd e cb caller succeeds)) :
    ∃ o s', addEvent s fd e cb caller succeeds = .ok (o, s') ∧
      CallOk s (.addEvent fd e cb caller succeeds) o s' := by
  obtain ⟨hsch, hexec, hfree⟩ := hdom
  obtain ⟨size, hsize, hsmall, hlt, hctx⟩ := h.contextFor_eq hfits.1 hfits.2
  have hgrown : Consistent { s with size := size } := h.grow hsize hsmall
  cases succeeds with
  | false =>
    refine ⟨.quiet false, { s with size := size }, ?_, ?_⟩
    · rw [IOManager.addEvent, hctx]
      exact addLocked_eq hgrown hfree hexec
    · exact CallOk.quiet hgrown ⟨rfl, rfl, rfl⟩ (fun μ hμ => h.total_grow hμ hsize) rfl
  | true =>
    have hok := CallOk.register (l := .addEvent fd e cb caller true) hgrown hlt hfree
      (Caller.context_holds hsch) rfl
    refine ⟨_, _, ?_, hok.of_grow h hsize⟩
    rw [IOManager.addEvent, hctx]
    exact addLocked_eq hgrown hfree hexec

theorem whenRegistered_of_none {fd : ℤ} {test : EventMask → Bool}
    {locked : FdPtr → Except Failure (Outcome × State)} (h : lookup s fd = .ok none) :
    whenRegistered s fd test locked = .ok (.quiet false, s) := by
  unfold whenRegistered
  rw [h]

theorem whenRegistered_of_some {fd : ℤ} {p : FdPtr} {test : EventMask → Bool}
    {locked : FdPtr → Except Failure (Outcome × State)} (h : lookup s fd = .ok (some p)) :
    whenRegistered s fd test locked =
      if test (s.ctx p).events then locked p else .ok (.quiet false, s) := by
  unfold whenRegistered
  rw [h]

theorem Consistent.lookup_eq {fd : ℤ} (h : Consistent s) (hnonneg : 0 ≤ fd) :
    lookup s fd = .ok (if fd.toNat < s.size then some (s.ptr fd.toNat) else none) := by
  have hint : toInt32 s.size = s.size := toInt32_of_lt h.small
  unfold lookup
  rw [hint]
  by_cases hlt : fd.toNat < s.size
  · rw [if_neg (by omega), if_neg (by omega), if_pos hlt]
  · rw [if_pos (by omega), if_neg hlt]

/-- The calls on one event: nothing is done when it is not registered. -/
theorem Consistent.whenRegistered {fd : ℤ} (h : Consistent s) (hnonneg : 0 ≤ fd) (e : Event)
    (locked : FdPtr → Except Failure (Outcome × State)) :
    (fd.toNat < s.size ∧ (s.context fd.toNat).events.has e = true ∧
      whenRegistered s fd (fun m => m.has e) locked = locked (s.ptr fd.toNat)) ∨
    ((s.registry fd.toNat e).isSome = false ∧
      whenRegistered s fd (fun m => m.has e) locked = .ok (.quiet false, s)) := by
  have hlookup := h.lookup_eq hnonneg
  have hregistry : (s.registry fd.toNat e).isSome = (s.context fd.toNat).events.has e :=
    (h.occupied fd.toNat).isSome_registry
  by_cases hlt : fd.toNat < s.size
  · rw [if_pos hlt] at hlookup
    rw [whenRegistered_of_some hlookup]
    by_cases hhas : (s.context fd.toNat).events.has e = true
    · left
      exact ⟨hlt, hhas, if_pos hhas⟩
    · right
      exact ⟨by rw [hregistry]; simpa using hhas, if_neg hhas⟩
  · right
    rw [if_neg hlt] at hlookup
    refine ⟨?_, whenRegistered_of_none hlookup⟩
    rw [hregistry, h.beyond _ (Nat.le_of_not_lt hlt)]
    simp [FdContext.new]

theorem waiting_single (s : State) (fd : ℕ) (e : Event) :
    s.registry.waiting fd (Registry.single e) = ((s.context fd).getContext e).waiters := by
  rw [waiting_eq, FdContext.waitersOf_single]

/-- A call on one event whose locked section resolves it. -/
theorem Consistent.eventCall {fd : ℤ} {e : Event} {succeeds : Bool} {l : Label} {o : Outcome}
    {locked : FdPtr → Except Failure (Outcome × State)} (h : Consistent s) (hnonneg : 0 ≤ fd)
    (hlocked : (s.context fd.toNat).events.has e = true →
      locked (s.ptr fd.toNat) =
        .ok (if succeeds then (o, s.resolve fd.toNat (Registry.single e)) else (.quiet false, s)))
    (hreturned : o.returned = true)
    (hregistered : o.registered = [])
    (hleft : o.woken ++ o.dropped = s.registry.waiting fd.toNat (Registry.single e))
    (hspec : s.registry.step l =
      if succeeds ∧ (s.registry fd.toNat e).isSome then
        (o, s.registry.resolve fd.toNat (Registry.single e))
      else (.quiet false, s.registry)) :
    ∃ o' s', IOManager.whenRegistered s fd (fun m => m.has e) locked = .ok (o', s') ∧
      CallOk s l o' s' := by
  rcases h.whenRegistered hnonneg e locked with ⟨hlt, hhas, heq⟩ | ⟨hnone, heq⟩
  · have hsome : (s.registry fd.toNat e).isSome = true := by
      rw [← hhas]
      exact (h.occupied fd.toNat).isSome_registry
    rw [heq, hlocked hhas]
    cases succeeds with
    | false =>
      refine ⟨_, _, rfl, CallOk.quiet h (Unchanged.refl s) (fun _ _ => rfl) ?_⟩
      simp [hspec]
    | true =>
      refine ⟨_, _, rfl, ?_⟩
      refine CallOk.resolve h hlt (EventMask.inter_single hhas) hreturned hregistered ?_ ?_
      · intro w
        rw [← List.count_append, hleft]
      · simp [hspec, hsome]
  · refine ⟨_, _, heq, CallOk.quiet h (Unchanged.refl s) (fun _ _ => rfl) ?_⟩
    simp [hspec, hnone]

theorem Consistent.delEvent {fd : ℤ} (h : Consistent s) (hnonneg : 0 ≤ fd)
    (e : Event) (succeeds : Bool) :
    ∃ o s', IOManager.delEvent s fd e succeeds = .ok (o, s') ∧
      CallOk s (.delEvent fd e succeeds) o s' := by
  unfold IOManager.delEvent
  refine h.eventCall hnonneg (fun hhas => delLocked_eq h hhas) rfl rfl ?_ ?_
  · simp [Outcome.quiet, waiting_single]
  · simp [Registry.step, waiting_single]

theorem Consistent.cancelEvent {fd : ℤ} (h : Consistent s) (hnonneg : 0 ≤ fd)
    (e : Event) (succeeds : Bool) :
    ∃ o s', IOManager.cancelEvent s fd e succeeds = .ok (o, s') ∧
      CallOk s (.cancelEvent fd e succeeds) o s' := by
  unfold IOManager.cancelEvent
  refine h.eventCall hnonneg (fun hhas => cancelLocked_eq h hhas) rfl rfl ?_ ?_
  · simp [Outcome.quiet, waiting_single]
  · simp [Registry.step, Registry.wake, waiting_single]

theorem Consistent.mask_registry (h : Consistent s) (fd : ℕ) :
    s.registry.mask fd = (s.context fd).events := by
  have hread := (h.occupied fd).isSome_registry (e := .read)
  have hwrite := (h.occupied fd).isSome_registry (e := .write)
  ext
  · exact hread
  · exact hwrite

theorem Consistent.dispatch {fd : ℕ} {report : Report} (h : Consistent s) (hlt : fd < s.size)
    (hwithin : report.within (s.context fd).events) (succeeds : Bool) :
    ∃ o s', IOManager.dispatch s (s.ptr fd) report succeeds = .ok (o, s') ∧
      CallOk s (.dispatch fd report succeeds) o s' := by
  have hsub := Report.realEvents_of_within hwithin
  rw [dispatch_eq h hwithin]
  by_cases hgo : succeeds = true ∧ report.realEvents (s.context fd).events ≠ .none
  · rw [if_pos hgo]
    refine ⟨_, _, rfl, CallOk.resolve h hlt hsub rfl rfl ?_ ?_⟩
    · simp [Outcome.quiet]
    · simp only [Registry.step, h.mask_registry, hsub, if_pos hgo]
      rfl
  · rw [if_neg hgo]
    refine ⟨_, _, rfl, CallOk.quiet h (Unchanged.refl s) (fun _ _ => rfl) ?_⟩
    simp only [Registry.step, h.mask_registry, hsub, if_neg hgo]

theorem Consistent.call {l : Label} (h : Consistent s) (hdom : InDomain s l)
    (hfits : TableFits s l) :
    ∃ o s', IOManager.call s l = some (.ok (o, s')) ∧ CallOk s l o s' := by
  cases l with
  | addEvent fd e cb caller succeeds =>
    obtain ⟨o, s', heq, hok⟩ := h.addEvent hdom hfits
    exact ⟨o, s', congrArg some heq, hok⟩
  | delEvent fd e succeeds =>
    obtain ⟨o, s', heq, hok⟩ := h.delEvent hfits e succeeds
    exact ⟨o, s', congrArg some heq, hok⟩
  | cancelEvent fd e succeeds =>
    obtain ⟨o, s', heq, hok⟩ := h.cancelEvent hfits e succeeds
    exact ⟨o, s', congrArg some heq, hok⟩
  | cancelAll fd succeeds => exact absurd hdom id
  | dispatch fd report succeeds =>
    obtain ⟨reg, hreg, hwithin⟩ := hdom
    have hkernel := h.kernel fd
    rw [Option.mem_def.mp hreg] at hkernel
    -- a registered descriptor has its context in the table
    have hne : (s.context fd).events ≠ .none := by
      intro hnone
      rw [registration, if_pos hnone] at hkernel
      cases hkernel
    rw [registration, if_neg hne, Option.some.injEq] at hkernel
    have hlt : fd < s.size := by
      by_contra hge
      exact hne (by rw [h.beyond fd (Nat.le_of_not_lt hge)]; rfl)
    rw [hkernel] at hwithin
    obtain ⟨o, s', heq, hok⟩ := h.dispatch hlt hwithin succeeds
    refine ⟨o, s', ?_, hok⟩
    simp only [IOManager.call, Option.mem_def.mp hreg, hkernel, if_pos hwithin]
    exact congrArg some heq

/-- The waiters that entered over a run are those that left and those still waiting. -/
def LedgerHolds (os : List Outcome) (s t : State) : Prop :=
  ∀ w, (os.flatMap Outcome.registered).count w + total (fun c => c.waiters.count w) s =
    (os.flatMap Outcome.woken).count w + (os.flatMap Outcome.dropped).count w +
      total (fun c => c.waiters.count w) t

theorem Consistent.run {ls : List Label} (h : Consistent s)
    (halong : system.Along (fun s l => InDomain s l ∧ TableFits s l) s ls) :
    ∃ os t, system.run s ls = some (os, t) ∧ Consistent t ∧ LedgerHolds os s t := by
  induction ls generalizing s with
  | nil => exact ⟨[], s, rfl, h, fun w => by simp⟩
  | cons l ls ih =>
    obtain ⟨⟨hdom, hfits⟩, hrest⟩ := halong
    obtain ⟨o, s', hcall, hok⟩ := h.call hdom hfits
    have hstep : system.step s l = some (o, s') := by
      simp only [system, hcall]
      rfl
    obtain ⟨os, t, hrun, ht, hledger⟩ := ih hok.consistent (hrest o s' hstep)
    refine ⟨o :: os, t, system.run_cons_eq_some.mpr ⟨o, s', os, hstep, hrun, rfl⟩, ht, ?_⟩
    intro w
    have hw := hok.balanced w
    have hl := hledger w
    simp only [List.flatMap_cons, List.count_append]
    omega

/--
For every run of the calls in question, with every `epoll_ctl` free to succeed or
fail: all calls complete, the books agree at its end, every waiter registered is
still waiting, was scheduled once or was let go once, and the next call is what
`Registry.step` says and leaves the event state alone when it reports failure.
-/
theorem events_bookkeeping (ls : List Label)
    (halong : system.Along (fun s l => InDomain s l ∧ TableFits s l) State.init ls) :
    ∃ os s, system.run State.init ls = some (os, s) ∧
      Bookkeeping s ∧
      LedgerHolds os State.init s ∧
      ∀ l, InDomain s l → TableFits s l →
        ∃ o s', call s l = some (.ok (o, s')) ∧ CallOk s l o s' := by
  obtain ⟨os, s, hrun, hs, hledger⟩ := init_consistent.run halong
  exact ⟨os, s, hrun, hs.toBookkeeping, hledger, fun l hdom hfits => hs.call hdom hfits⟩

/-- A fiber of scheduler 0 that calls `addEvent`. -/
def runningFiber (f : Scheduler.TaskId) : Caller :=
  { scheduler := some 0, fiber := f, fiberState := .exec }

/-- A fiber waits to read and to write on descriptor 70, and a report wakes both. -/
def readWriteReport : List Label :=
  [.addEvent 70 .read none (runningFiber 1) true,
    .addEvent 70 .write (some 2) (runningFiber 1) true,
    .delEvent 70 .read false,
    .dispatch 70 ⟨true, false, true, false⟩ true]

theorem events_bookkeeping_read_write :
    ∃ os s, system.run State.init readWriteReport = some (os, s) ∧
      os.flatMap Outcome.woken = [⟨some 0, .fiber (some 1)⟩, ⟨some 0, .cb (some 2)⟩] ∧
      Bookkeeping s ∧
      LedgerHolds os State.init s := by
  have halong : system.Along (fun s l => InDomain s l ∧ TableFits s l) State.init
      readWriteReport :=
    (System.exists_run State.init readWriteReport (fun _ => True) (by decide +kernel)).1
  obtain ⟨os, s, hrun, hbooks, hledger, _⟩ := events_bookkeeping readWriteReport halong
  refine ⟨os, s, hrun, ?_, hbooks, hledger⟩
  have hwoken : (system.run State.init readWriteReport).map
      (fun r => r.1.flatMap Outcome.woken) =
        some [⟨some 0, .fiber (some 1)⟩, ⟨some 0, .cb (some 2)⟩] := by
    decide +kernel
  simpa [hrun] using hwoken

/--
A descriptor so large that the table it asks for does not fit an `int`, and then a
small one, for which the table is cut to 7 entries.
-/
def overflowingTable : List Label :=
  [.addEvent 20 .read none (runningFiber 1) true,
    .addEvent 1431655766 .read none (runningFiber 1) false,
    .addEvent 5 .read none (runningFiber 1) true]

/-- The books are wrong after a table overflow, and a negative descriptor is no index. -/
theorem not_bookkeeping_overflowing_table :
    (system.Along InDomain State.init overflowingTable ∧
      ∃ os s, system.run State.init overflowingTable = some (os, s) ∧
        ¬ Bookkeeping s ∧
        s.pendingEventCount = 2 ∧ registeredCount s = 1 ∧
        (s.kernel 20).map Registration.events = some ⟨true, false⟩ ∧
        (s.context 20).events = .none) ∧
    (InDomain State.init (.delEvent (-1) .read true) ∧
      call State.init (.delEvent (-1) .read true) = some (.error .outOfBounds)) := by
  have hint : toInt32 State.init.size = 64 := toInt32_of_lt (by decide)
  refine ⟨?_, trivial, by simp [call, delEvent, whenRegistered, lookup, hint]⟩
  obtain ⟨halong, os, s, hrun, hpending, hcount, hkernel, hevents⟩ :=
    System.exists_run (M := system) (P := InDomain) State.init overflowingTable
      (fun s => s.pendingEventCount = 2 ∧ registeredCount s = 1 ∧
        (s.kernel 20).map Registration.events = some ⟨true, false⟩ ∧
        (s.context 20).events = .none) (by decide +kernel)
  refine ⟨halong, os, s, hrun, ?_, hpending, hcount, hkernel, hevents⟩
  intro hbooks
  have heq := hbooks.pending
  rw [hpending, hcount] at heq
  exact absurd heq (by decide)

end Runs

end IOManager
end Civan
