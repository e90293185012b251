import Civan.Lib.MachineInt
import Civan.TimerManager.Expiry

/-!
# The timeout of the idle loop

`idle` asks `getNextTimer` how long it may sleep, in a `uint64_t`, and cuts that to
ten seconds.  The comparison is made on the value converted to `int`, and the value
kept is converted to `int` once more when `epoll_wait` is called.  A time whose low
32 bits are negative as an `int` is not cut and reaches `epoll_wait` as a negative
number, which means no timeout at all.

A call that is interrupted is made again with the value that is there.
-/

namespace Civan
namespace IOManager

open MachineInt
open TimerManager (getNextTimer)

/-- `MAX_TIMEOUT`. -/
def maxTimeout : UInt64 :=
  10000

/-- Lines 292 to 297 of `idle`: the assignment to `next_timeout`. -/
def clampTimeout (nextTimeout : UInt64) : UInt64 :=
  if nextTimeout ≠ 0 - 1 then
    if (maxTimeout.toNat : ℤ) < toInt32 nextTimeout.toNat then maxTimeout else nextTimeout
  else
    maxTimeout

/-- The arguments that one pass of `idle` gives to `epoll_wait`, as `int`, when `n` of
the calls end with `EINTR`. -/
def epollTimeouts : ℕ → UInt64 → List ℤ
  | 0, nextTimeout => [toInt32 (clampTimeout nextTimeout).toNat]
  | n + 1, nextTimeout =>
    toInt32 (clampTimeout nextTimeout).toNat :: epollTimeouts n (clampTimeout nextTimeout)

section Clamp

theorem toInt32_maxTimeout : toInt32 maxTimeout.toNat = 10000 :=
  toInt32_of_lt (by decide)

/-- What arrives at `epoll_wait`: the low 32 bits, cut to ten seconds unless they are
negative. -/
theorem toInt32_clampTimeout (t : UInt64) :
    toInt32 (clampTimeout t).toNat =
      if t = 0 - 1 then 10000 else min 10000 (toInt32 t.toNat) := by
  have hmax : (maxTimeout.toNat : ℤ) = 10000 := rfl
  unfold clampTimeout
  by_cases hnone : t = 0 - 1
  · rw [if_neg (not_not.mpr hnone), if_pos hnone, toInt32_maxTimeout]
  · rw [if_pos hnone, if_neg hnone, hmax]
    split_ifs with hcut
    · rw [toInt32_maxTimeout, min_eq_left hcut.le]
    · rw [min_eq_right (not_lt.mp hcut)]

theorem clampTimeout_clampTimeout (t : UInt64) :
    clampTimeout (clampTimeout t) = clampTimeout t := by
  have hcut : clampTimeout maxTimeout = maxTimeout := by
    unfold clampTimeout
    rw [ite_self, ite_self]
  by_cases hsame : clampTimeout t = t
  · rw [hsame, hsame]
  · have hmax : clampTimeout t = maxTimeout := by
      unfold clampTimeout at hsame ⊢
      split_ifs at hsame ⊢ <;> first | rfl | exact absurd rfl hsame
    rw [hmax, hcut]

theorem mem_epollTimeouts {n : ℕ} {t : UInt64} {a : ℤ} :
    a ∈ epollTimeouts n t ↔ a = toInt32 (clampTimeout t).toNat := by
  induction n generalizing t with
  | zero => rw [epollTimeouts, List.mem_singleton]
  | succ n ih => rw [epollTimeouts, List.mem_cons, ih, clampTimeout_clampTimeout, or_self]

/-- The timeout is a time to wait unless bit 31 is set in a time that is not
`~0ull`; then it is at most what `getNextTimer` said. -/
theorem toInt32_clampTimeout_nonneg (t : UInt64) :
    (0 ≤ toInt32 (clampTimeout t).toNat ↔ t = 0 - 1 ∨ t.toNat % 2 ^ 32 < 2 ^ 31) ∧
      toInt32 (clampTimeout t).toNat ≤ 10000 ∧
      toInt32 (clampTimeout t).toNat ≤ t.toNat := by
  have hle := toInt32_le t.toNat
  rw [toInt32_clampTimeout]
  by_cases hnone : t = 0 - 1
  · subst hnone
    rw [if_pos rfl]
    exact ⟨iff_of_true (by decide) (Or.inl rfl), le_rfl, by decide⟩
  · rw [if_neg hnone, le_min_iff]
    refine ⟨?_, min_le_left _ _, (min_le_right _ _).trans hle⟩
    rw [toInt32_eq]
    simp only [hnone, false_or]
    split_ifs <;> omega

end Clamp

section Idle

variable {s : TimerManager.State}

/-- `getNextTimer` is at most the time to any deadline of a set in order. -/
theorem getNextTimer_le (h : s.Ordered) (now : UInt64)
    {id : TimerManager.TimerId} (hid : id ∈ s.timers) :
    (getNextTimer s now).1.toNat ≤ (s.heap id).next.toNat - now.toNat := by
  have hnext := h.pairwise_next
  unfold getNextTimer
  cases htimers : s.timers with
  | nil =>
    rw [htimers] at hid
    cases hid
  | cons first rest =>
    rw [htimers] at hid hnext
    have hfirst : (s.heap first).next.toNat ≤ (s.heap id).next.toNat := by
      rcases List.mem_cons.mp hid with rfl | hrest
      · exact le_rfl
      · exact UInt64.le_iff_toNat_le.mp ((List.pairwise_cons.mp hnext).1 id hrest)
    dsimp only
    split_ifs with hdue
    · exact Nat.zero_le _
    · have hlt : now ≤ (s.heap first).next := UInt64.le_of_lt (UInt64.not_le.mp hdue)
      rw [UInt64.toNat_sub_of_le _ _ hlt]
      omega

/--
**The idle loop.**  For every set of timers in order, every time of the clock and any
number of interruptions, what `idle` passes to `epoll_wait` is between 0 and 10000 and
at most the time to every deadline, as of the time the clock was read, if and only if
`getNextTimer` returned `~0ull` or a time whose low 32 bits are below `2 ^ 31`.
-/
theorem idle_timeout_bounded_iff (h : s.Ordered) (now : UInt64) (n : ℕ) :
    (∀ a ∈ epollTimeouts n (getNextTimer s now).1,
      0 ≤ a ∧ a ≤ 10000 ∧
      ∀ id ∈ s.timers, a ≤ ((s.heap id).next.toNat - now.toNat : ℕ)) ↔
    (getNextTimer s now).1 = 0 - 1 ∨ (getNextTimer s now).1.toNat % 2 ^ 32 < 2 ^ 31 := by
  obtain ⟨hnonneg, hmax, hle⟩ := toInt32_clampTimeout_nonneg (getNextTimer s now).1
  rw [← hnonneg]
  constructor
  · intro hall
    exact (hall _ (mem_epollTimeouts.mpr rfl)).1
  · intro hzero a ha
    rw [mem_epollTimeouts.mp ha]
    refine ⟨hzero, hmax, fun id hid => hle.trans ?_⟩
    exact_mod_cast getNextTimer_le h now hid

/-- One timer with the given deadline. -/
def timerDueAt (next : UInt64) : TimerManager.State :=
  { heap := fun _ =>
      { recurring := false, ms := next, next := next, cb := some 1, addr := 16 }
    allocated := 1
    timers := [0]
    tickled := false
    previousTime := 0 }

theorem timerDueAt_ordered (next : UInt64) : (timerDueAt next).Ordered :=
  List.pairwise_singleton _ _

/-- A timer in a minute, and two interrupted calls. -/
theorem idle_timeout_bounded_minute :
    epollTimeouts 2 (getNextTimer (timerDueAt 60000) 0).1 ≠ [] ∧
    ∀ a ∈ epollTimeouts 2 (getNextTimer (timerDueAt 60000) 0).1,
      0 ≤ a ∧ a ≤ 10000 ∧
      ∀ id ∈ (timerDueAt 60000).timers,
        a ≤ (((timerDueAt 60000).heap id).next.toNat - (0 : UInt64).toNat : ℕ) := by
  refine ⟨by decide, ?_⟩
  exact (idle_timeout_bounded_iff (timerDueAt_ordered 60000) 0 2).mpr (Or.inr (by decide))

/-- A timer in `2 ^ 31` milliseconds: `epoll_wait` gets a negative timeout. -/
theorem idle_waits_forever :
    (timerDueAt 0x80000000).Ordered ∧
    epollTimeouts 0 (getNextTimer (timerDueAt 0x80000000) 0).1 = [-0x80000000] := by
  refine ⟨timerDueAt_ordered _, ?_⟩
  decide

end Idle

end IOManager
end Civan
