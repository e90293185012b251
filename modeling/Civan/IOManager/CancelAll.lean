import Civan.IOManager.Reachable

/-!
# Cancelling all events of a descriptor

`cancelAll` tests for `READ` and triggers `READ`, then tests for `WRITE` and
triggers `READ` once more.  In no reachable state can the second trigger succeed,
so `cancelAll` does its work exactly for descriptors with no `WRITE` registered.

The states are those reached by all five calls, from any thread.
-/

namespace Civan
namespace IOManager

open Transition
open MachineInt

section Cancel

/-- What `cancelAll` of a descriptor with registered events is to do. -/
structure CancelsAll (s : State) (fd : ℕ) (o : Outcome) (s' : State) : Prop where
  returned : o.returned = true
  events : (s'.context fd).events = .none
  contexts : ∀ e, (s'.context fd).getContext e = .empty
  interest : s'.kernel fd = none
  woken : o.woken =
    (if (s.context fd).events.read then (s.context fd).read.waiters else []) ++
      (if (s.context fd).events.write then (s.context fd).write.waiters else [])
  once : o.woken.length = (s.context fd).events.count
  pending : s'.pendingEventCount = sizeSub s.pendingEventCount (s.context fd).events.count
  others : ∀ i, i ≠ fd → s'.context i = s.context i ∧ s'.kernel i = s.kernel i

/-- `cancelAll(fd)` completes, with `epoll_ctl` succeeding, and does what it is to do. -/
def CancelAllOk (s : State) (fd : ℕ) : Prop :=
  ∃ o s', cancelAll s fd true = .ok (o, s') ∧ CancelsAll s fd o s'

variable {s : State} {fd : ℕ}

theorem lookup_natCast (s : State) (fd : ℕ) :
    lookup s fd = .ok (if (fd : ℤ) < toInt32 s.size then some (s.ptr fd) else none) := by
  unfold lookup
  by_cases hlt : (fd : ℤ) < toInt32 s.size
  · rw [if_neg (not_le.mpr hlt), if_neg (by omega), if_pos hlt, Int.toNat_natCast]
  · rw [if_pos (not_lt.mp hlt), if_neg hlt]

theorem cancelAll_eq (hevents : (s.context fd).events ≠ .none) :
    cancelAll s fd true =
      if (fd : ℤ) < toInt32 s.size then cancelAllLocked s (s.ptr fd) true
      else .ok (.quiet false, s) := by
  have hlookup := lookup_natCast s fd
  unfold cancelAll
  by_cases hlt : (fd : ℤ) < toInt32 s.size
  · rw [if_pos hlt] at hlookup ⊢
    rw [whenRegistered_of_some hlookup]
    exact if_pos (decide_eq_true hevents)
  · rw [if_neg hlt] at hlookup ⊢
    exact whenRegistered_of_none hlookup

/-- What the locked section leaves when only `READ` was registered. -/
theorem cancelsAll_cleared {kernel : ℕ → Option Registration}
    (h : (s.context fd).Ok EventContext.Occupied)
    (hdel : epollCtl s.kernel .del fd { events := .none, data := s.ptr fd } true = some kernel) :
    CancelsAll s fd
      { Outcome.quiet true with woken := (s.context fd).waitersOf (s.context fd).events }
      (State.cleared { s with kernel := kernel } (s.ptr fd) (s.context fd).events) := by
  have hkernel : kernel = Function.update s.kernel fd none := by
    simp only [epollCtl, true_and] at hdel
    split_ifs at hdel
    exact (Option.some.inj hdel).symm
  have hself : (State.cleared { s with kernel := kernel } (s.ptr fd)
      (s.context fd).events).context fd = (s.context fd).clearAll (s.context fd).events :=
    State.cleared_ctx_self
  -- the states differ at `m_fdContexts[fd]` only, which is no other descriptor's context
  have hother : ∀ i, i ≠ fd → s.ptr i ≠ s.ptr fd := by
    intro i hi heq
    exact hi (congrArg FdPtr.fd heq)
  refine ⟨rfl, ?_, ?_, ?_, rfl, ?_, rfl, ?_⟩
  · rw [hself, FdContext.events_clearAll]
    simp [EventMask.diff, EventMask.none]
  · intro e
    rw [hself, FdContext.getContext_clearAll]
    split_ifs with he
    · rfl
    · exact h.of_not_has (by simpa using he)
  · rw [State.cleared, hkernel]
    exact Function.update_self ..
  · exact h.length_waitersOf EventMask.inter_self
  · intro i hi
    refine ⟨Function.update_of_ne (hother i hi) _ _, ?_⟩
    rw [State.cleared, hkernel]
    exact Function.update_of_ne hi _ _

/--
In every reachable state and for every descriptor with registered events, when
`epoll_ctl(DEL)` succeeds `cancelAll` does its work exactly if `WRITE` is not
registered, `READ` was registered from a thread with a scheduler, and the size of the
table as an `int` is above the descriptor.
-/
theorem cancelAll_ok_iff (s : State) (fd : ℕ) (hreach : system.Reachable State.init s)
    (hevents : (s.context fd).events ≠ .none)
    (hdel : (epollCtl s.kernel .del fd { events := .none, data := s.ptr fd } true).isSome) :
    CancelAllOk s fd ↔
    (s.context fd).events.write = false ∧
      (s.context fd).read.scheduler.isSome ∧
      (fd : ℤ) < toInt32 s.size := by
  have hok : (s.context fd).Ok EventContext.Occupied :=
    (reachable_heapOk hreach (s.ptr fd)).occupied
  obtain ⟨kernel, hkernel⟩ := Option.isSome_iff_exists.mp hdel
  have hread : (s.context fd).events.write = false → (s.context fd).events.read = true := by
    intro hwrite
    by_contra hnot
    refine hevents ?_
    ext
    · simpa [EventMask.none] using hnot
    · exact hwrite
  constructor
  · rintro ⟨o, s', hcall, hcancels⟩
    rw [cancelAll_eq hevents] at hcall
    split_ifs at hcall with hlt
    · obtain ⟨hwrite, hcan, _, _⟩ := (cancelAllLocked_ok_iff hok hkernel).mp hcall
      exact ⟨hwrite, (hcan (hread hwrite)).2, hlt⟩
    · cases hcall
      exact absurd hcancels.returned (by simp [Outcome.quiet])
  · rintro ⟨hwrite, hsch, hlt⟩
    refine ⟨_, _, ?_, cancelsAll_cleared hok hkernel⟩
    rw [cancelAll_eq hevents, if_pos hlt]
    exact (cancelAllLocked_ok_iff hok hkernel).mpr ⟨hwrite, fun hr => ⟨hr, hsch⟩, rfl, rfl⟩

/-- A descriptor on which one fiber waits to read. -/
theorem cancelAll_ok_read_only :
    ∃ s, system.Reachable State.init s ∧
      (s.context 5).events = ⟨true, false⟩ ∧
      CancelAllOk s 5 := by
  obtain ⟨s, hs, hevents, hkernel, hsch, hsize⟩ :=
    System.exists_reachableWhen (M := system) (P := fun _ _ => True) State.init
      [.addEvent 5 .read none (runningFiber 1) true]
      (fun s => (s.context 5).events = ⟨true, false⟩ ∧
        (epollCtl s.kernel .del 5 { events := .none, data := s.ptr 5 } true).isSome ∧
        (s.context 5).read.scheduler.isSome ∧ ((5 : ℕ) : ℤ) < toInt32 s.size)
      (by decide +kernel)
  refine ⟨s, hs.reachable, hevents, ?_⟩
  rw [cancelAll_ok_iff s 5 hs.reachable (by rw [hevents]; decide) hkernel, hevents]
  exact ⟨rfl, hsch, hsize⟩

/-- A fiber waits to write, or one to read and one to write: the assertion fails. -/
theorem cancelAll_write_fails :
    (∃ s, system.Reachable State.init s ∧
      (s.context 5).events = ⟨false, true⟩ ∧
      failureOf (cancelAll s 5 true) = some .notRegistered ∧ ¬ CancelAllOk s 5) ∧
    (∃ s, system.Reachable State.init s ∧
      (s.context 5).events = ⟨true, true⟩ ∧
      failureOf (cancelAll s 5 true) = some .notRegistered ∧ ¬ CancelAllOk s 5) := by
  have hnot : ∀ s : State,
      failureOf (cancelAll s 5 true) = some .notRegistered → ¬ CancelAllOk s 5 := by
    rintro s hfail ⟨o, s', hcall, _⟩
    have hcall' : cancelAll s 5 true = .ok (o, s') := hcall
    rw [hcall'] at hfail
    cases hfail
  constructor
  · obtain ⟨s, hs, hevents, hfail⟩ :=
      System.exists_reachableWhen (M := system) (P := fun _ _ => True) State.init
        [.addEvent 5 .write none (runningFiber 1) true]
        (fun s => (s.context 5).events = ⟨false, true⟩ ∧
          failureOf (cancelAll s 5 true) = some .notRegistered) (by decide +kernel)
    exact ⟨s, hs.reachable, hevents, hfail, hnot s hfail⟩
  · obtain ⟨s, hs, hevents, hfail⟩ :=
      System.exists_reachableWhen (M := system) (P := fun _ _ => True) State.init
        [.addEvent 5 .read none (runningFiber 1) true,
          .addEvent 5 .write none (runningFiber 2) true]
        (fun s => (s.context 5).events = ⟨true, true⟩ ∧
          failureOf (cancelAll s 5 true) = some .notRegistered) (by decide +kernel)
    exact ⟨s, hs.reachable, hevents, hfail, hnot s hfail⟩

end Cancel

end IOManager
end Civan
