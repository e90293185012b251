import Civan.TimerManager.Expiry

/-!
# Timer control

`cancel`, `refresh` and `reset` return whether they found the timer pending, that is,
in `m_timers`.  They look at `m_cb` first, and `reset` with the old period and
without `from_now` returns before it looks at anything.  So the answer is wrong in
two cases: a timer that was given an empty callback is pending and said not to be,
and a timer that has fired or was cancelled is said to be pending.

The result is for every reachable state, whatever callbacks were given, and says
that there is no other case.
-/

namespace Civan
namespace TimerManager

open Transition
open Scheduler (Callback)

section Tracking

variable {s s' : State} {id : TimerId}

theorem init_tracked (now : UInt64) :
    Tracked (State.init now) where
  ordered := List.Pairwise.nil
  addr_inj i hi := by cases hi
  armed id hcb := by cases hcb
  allocated id hid := by cases hid

theorem Tracked.fields (h : Tracked s) (hheap : s'.heap = s.heap) (htimers : s'.timers = s.timers)
    (hallocated : s'.allocated = s.allocated) :
    Tracked s' where
  toSetInvariant := h.toSetInvariant.fields hheap htimers
  armed := by
    rw [hheap, htimers]
    exact h.armed
  allocated := by
    rw [htimers, hallocated]
    exact h.allocated

theorem Tracked.addTimer
    {ms : UInt64} {cb : Option Callback} {recurring : Bool} {now : UInt64} {addr : ℕ}
    (h : Tracked s) (haddr : ∀ i ∈ s.timers, (s.heap i).addr ≠ addr) :
    Tracked (addTimer s ms cb recurring now addr).2 := by
  have hout : s.allocated ∉ s.timers :=
    fun hin => absurd (h.allocated _ hin) (Nat.lt_irrefl _)
  obtain ⟨hset, hmem⟩ := h.enter (t := .new ms cb recurring now addr) hout
    (fun j hj => (haddr j hj).symm)
  obtain ⟨hheap, htimers, hallocated⟩ := addTimerLocked_fields
    { s.write s.allocated (.new ms cb recurring now addr) with
      allocated := s.allocated + 1 } s.allocated
  refine ⟨hset.fields hheap htimers, ?_, ?_⟩
  · intro i hi
    refine (congrArg (i ∈ ·) htimers).mpr ((hmem i).mpr ?_)
    by_cases hnew : i = s.allocated
    · exact Or.inl hnew
    · have hsame : ((TimerManager.addTimer s ms cb recurring now addr).2.heap i) = s.heap i := by
        refine (congrFun hheap i).trans ?_
        exact Function.update_of_ne hnew _ _
      rw [hsame] at hi
      exact Or.inr (h.armed i hi)
  · intro i hi
    have hi : i ∈ ((s.write s.allocated
        (.new ms cb recurring now addr)).insert s.allocated).2.timers :=
      (congrArg (i ∈ ·) htimers).mp hi
    have hbound : (TimerManager.addTimer s ms cb recurring now addr).2.allocated =
        s.allocated + 1 := hallocated
    rw [hbound]
    rcases (hmem i).mp hi with rfl | hi
    · exact Nat.lt_succ_self _
    · exact Nat.lt_succ_of_lt (h.allocated i hi)

theorem Tracked.cancel (h : Tracked s) :
    Tracked { s.write id { s.heap id with cb := none } with timers := s.timers.erase id } where
  toSetInvariant :=
    (h.write (t := { s.heap id with cb := none }) rfl rfl).sublist List.erase_sublist
  armed i hi := by
    have hne : i ≠ id := by
      rintro rfl
      simp [State.write] at hi
    have hin : i ∈ s.timers := by
      apply h.armed i
      simpa [State.write, hne] using hi
    exact h.nodup.mem_erase_iff.mpr ⟨hne, hin⟩
  allocated i hi := h.allocated i (List.mem_of_mem_erase hi)

/-- A timer of the set gets a new time and goes back. -/
theorem Tracked.reinsert {t : Timer} (h : Tracked s) (hid : id ∈ s.timers)
    (haddr : t.addr = (s.heap id).addr) :
    Tracked ((State.write { s with timers := s.timers.erase id } id t).insert id).2 := by
  obtain ⟨hset, hmem⟩ := h.toSetInvariant.reinsert hid haddr
  refine ⟨hset, ?_, fun i hi => h.allocated i ((hmem i).mp hi)⟩
  intro i hi
  rw [hmem i]
  by_cases hself : i = id
  · rw [hself]
    exact hid
  · apply h.armed i
    simpa [State.write, State.insert, hself] using hi

theorem Tracked.refresh {now : UInt64} (h : Tracked s) : Tracked (refresh s id now).2 := by
  rw [h.refresh_eq]
  split_ifs with hcb
  · exact h.reinsert (h.armed id hcb) rfl
  · exact h

theorem Tracked.reset {ms : UInt64} {fromNow : Bool} {now : UInt64} (h : Tracked s) :
    Tracked (reset s id ms fromNow now).2 := by
  rw [h.reset_eq]
  split_ifs with hsame hcb
  · exact h
  · obtain ⟨hheap, htimers, hallocated⟩ := addTimerLocked_fields
      (State.write { s with timers := s.timers.erase id } id
        { s.heap id with ms := ms, next := (s.heap id).resetNext ms fromNow now }) id
    have hback := h.reinsert
      (t := { s.heap id with ms := ms, next := (s.heap id).resetNext ms fromNow now })
      (h.armed id hcb) rfl
    exact hback.fields hheap htimers hallocated
  · exact h

theorem Tracked.listExpiredCb {now : UInt64} {addr : ℕ} (h : Tracked s) :
    Tracked (listExpiredCb s now addr).2 := by
  rcases listExpiredCb_cases s now addr with
    ⟨s', heq, hheap, htimers, hallocated⟩ | ⟨it, heq⟩
  · rw [heq]
    exact h.fields hheap htimers hallocated
  · rw [heq]
    have hsplit := List.take_append_drop it s.timers
    have hnodup := h.nodup
    rw [← hsplit, List.nodup_append] at hnodup
    obtain ⟨hexpired, _, hapart⟩ := hnodup
    have hset : SetInvariant
        { s with timers := s.timers.drop it, previousTime := now } :=
      (h.sublist (List.drop_sublist _ _)).fields rfl rfl
    have haddr : ∀ i ∈ s.timers.take it ++ s.timers.drop it,
        ∀ j ∈ s.timers.take it ++ s.timers.drop it,
          (s.heap i).addr = (s.heap j).addr → i = j := by
      rw [hsplit]
      exact h.addr_inj
    obtain ⟨hdone, hmem⟩ := hset.of_handOut hexpired
      (fun i hi hin => hapart i hi i hin rfl) haddr now
    obtain ⟨_, hcount, hheap⟩ := handOut_heap
      (s := { s with timers := s.timers.drop it, previousTime := now }) hexpired now
    have hin : ∀ i, i ∈ s.timers ↔ i ∈ s.timers.take it ∨ i ∈ s.timers.drop it := by
      intro i
      rw [← List.mem_append, hsplit]
    refine ⟨hdone, ?_, ?_⟩
    · intro i hi
      rw [hheap i] at hi
      rw [hmem i]
      by_cases hexp : i ∈ s.timers.take it
      · refine Or.inr ⟨hexp, ?_⟩
        by_contra honce
        have honce : (s.heap i).recurring = false := by simpa using honce
        rw [if_pos hexp, Timer.expire_of_once honce] at hi
        cases hi
      · rw [if_neg hexp] at hi
        exact Or.inl (((hin i).mp (h.armed i hi)).resolve_left hexp)
    · intro i hi
      rw [hcount]
      apply h.allocated i
      rw [hin i]
      rcases (hmem i).mp hi with hrest | ⟨hexp, _⟩
      · exact Or.inr hrest
      · exact Or.inl hexp

theorem Tracked.call {l : Label} {o : Outcome} (h : Tracked s)
    (hcall : call s l = some (.ok (o, s'))) :
    Tracked s' := by
  cases l with
  | addTimer ms cb recurring now addr =>
    simp only [TimerManager.call] at hcall
    split_ifs at hcall with hused
    cases hcall
    push Not at hused
    exact h.addTimer hused
  | cancel i =>
    simp only [TimerManager.call, h.cancel_eq] at hcall
    split_ifs at hcall
    · cases hcall
      exact h.cancel
    · cases hcall
      exact h
  | refresh i now =>
    simp only [TimerManager.call] at hcall
    split_ifs at hcall
    cases hcall
    exact h.refresh
  | reset i ms fromNow now =>
    simp only [TimerManager.call] at hcall
    split_ifs at hcall
    cases hcall
    exact h.reset
  | getNextTimer now =>
    simp only [TimerManager.call] at hcall
    cases hcall
    rw [getNextTimer_state]
    exact h.fields rfl rfl rfl
  | listExpiredCb now addr =>
    cases hcall
    exact h.listExpiredCb

theorem reachable_tracked {start : UInt64} (hs : system.Reachable (State.init start) s) :
    Tracked s := by
  refine System.Reachable.invariant ?_ (init_tracked start) hs
  intro s l o s' h hstep
  obtain ⟨r, hcall, hr⟩ := Option.bind_eq_some_iff.mp hstep
  cases r with
  | error f => cases hr
  | ok r =>
    cases hr
    exact h.call hcall

end Tracking

section Control

/-- What the three calls should say about a timer, in one state and for given arguments. -/
structure Truthful
    (s : State) (id : TimerId) (ms : UInt64) (fromNow : Bool) (now : UInt64) : Prop where
  cancel_true_iff : ∃ r s', cancel s id = .ok (r, s') ∧ (r = true ↔ id ∈ s.timers)
  refresh_true_iff : (refresh s id now).1 = true ↔ id ∈ s.timers
  reset_true_iff : (reset s id ms fromNow now).1.1 = true ↔ id ∈ s.timers
  after_reset : (reset s id ms fromNow now).1.1 = true →
    id ∈ (reset s id ms fromNow now).2.timers ∧
    ((reset s id ms fromNow now).2.heap id).ms = ms ∧
    ((reset s id ms fromNow now).2.heap id).next =
      if fromNow then now + ms else (s.heap id).next - (s.heap id).ms + ms

/-- A pending timer that was given an empty callback. -/
def EmptyPending (s : State) (id : TimerId) : Prop :=
  id ∈ s.timers ∧ (s.heap id).cb = none

/-- `reset` with the period the timer has and without `from_now`, after the timer has
fired or was cancelled. -/
def IdleReset (s : State) (id : TimerId) (ms : UInt64) (fromNow : Bool) : Prop :=
  id ∉ s.timers ∧ ms = (s.heap id).ms ∧ fromNow = false

variable {s : State} {id : TimerId} {ms : UInt64} {fromNow : Bool} {now : UInt64}

/-- A timer that is in the set whenever it has a callback, and only then. -/
theorem Tracked.isSome_iff (h : Tracked s) (hempty : ¬ EmptyPending s id) :
    (s.heap id).cb.isSome ↔ id ∈ s.timers := by
  refine ⟨h.armed id, fun hid => ?_⟩
  by_contra hnone
  exact hempty ⟨hid, by simpa using hnone⟩

/-- A `reset` of a pending timer with a callback leaves it pending as requested. -/
theorem reset_leaves_pending (h : Tracked s) (hcb : (s.heap id).cb.isSome) :
    id ∈ (reset s id ms fromNow now).2.timers ∧
    ((reset s id ms fromNow now).2.heap id).ms = ms ∧
    ((reset s id ms fromNow now).2.heap id).next =
      if fromNow then now + ms else (s.heap id).next - (s.heap id).ms + ms := by
  have hid := h.armed id hcb
  rw [h.reset_eq]
  by_cases hsame : ms = (s.heap id).ms ∧ fromNow = false
  · obtain ⟨rfl, rfl⟩ := hsame
    rw [if_pos ⟨rfl, rfl⟩]
    refine ⟨hid, rfl, ?_⟩
    simp
  · rw [if_neg hsame, if_pos hcb]
    obtain ⟨hheap, htimers, _⟩ := addTimerLocked_fields
      (State.write { s with timers := s.timers.erase id } id
        { s.heap id with ms := ms, next := (s.heap id).resetNext ms fromNow now }) id
    obtain ⟨_, hback⟩ := h.toSetInvariant.reinsert
      (t := { s.heap id with ms := ms, next := (s.heap id).resetNext ms fromNow now }) hid rfl
    dsimp only
    rw [hheap, htimers]
    refine ⟨(hback id).mpr hid, ?_, ?_⟩
    · simp [State.write]
    · simp only [State.write, Function.update_self, Timer.resetNext]
      split_ifs <;> exact UInt64.add_comm _ _

/--
**Timer control.**  In every reachable state, for every timer and all arguments, the
results of `cancel`, `refresh` and `reset` are truthful, and the timer is as `reset`
was asked to make it, if and only if the timer is not pending with an empty callback
and `reset` is not called with unchanged arguments for a timer that is not pending.
-/
theorem timer_control_truthful_iff {start : UInt64} (hs : system.Reachable (State.init start) s)
    (id : TimerId) (ms : UInt64) (fromNow : Bool) (now : UInt64) :
    Truthful s id ms fromNow now ↔ ¬ EmptyPending s id ∧ ¬ IdleReset s id ms fromNow := by
  have h := reachable_tracked hs
  constructor
  · intro htruth
    constructor
    · rintro ⟨hid, hcb⟩
      have hfalse := htruth.refresh_true_iff.mpr hid
      rw [h.refresh_eq, if_neg (by simp [hcb])] at hfalse
      cases hfalse
    · rintro ⟨hid, hsame⟩
      refine hid (htruth.reset_true_iff.mp ?_)
      rw [h.reset_eq, if_pos hsame]
  · rintro ⟨hempty, hidle⟩
    have hiff := h.isSome_iff hempty
    have hreset : (reset s id ms fromNow now).1.1 = true ↔ id ∈ s.timers := by
      rw [h.reset_eq]
      split_ifs with hsame hcb
      · refine iff_of_true rfl ?_
        by_contra hid
        exact hidle ⟨hid, hsame⟩
      · exact iff_of_true rfl (hiff.mp hcb)
      · exact iff_of_false not_false (fun hid => hcb (hiff.mpr hid))
    refine ⟨?_, ?_, hreset, ?_⟩
    · rw [h.cancel_eq]
      split_ifs with hcb
      · exact ⟨true, _, rfl, iff_of_true rfl (hiff.mp hcb)⟩
      · exact ⟨false, _, rfl, iff_of_false Bool.false_ne_true (fun hid => hcb (hiff.mpr hid))⟩
    · rw [h.refresh_eq]
      split_ifs with hcb
      · exact iff_of_true rfl (hiff.mp hcb)
      · exact iff_of_false not_false (fun hid => hcb (hiff.mpr hid))
    · intro htrue
      exact reset_leaves_pending h (hiff.mpr (hreset.mp htrue))

/-- A pending timer is moved to a longer period. -/
theorem timer_control_truthful_pending :
    ∃ s, system.Reachable (State.init 100) s ∧ 0 ∈ s.timers ∧ Truthful s 0 20 false 105 := by
  obtain ⟨s, hs, hid, hcb⟩ := System.exists_reachableWhen
    (M := system) (P := fun _ _ => True) (State.init 100) [.addTimer 10 (some 1) false 100 16]
    (fun s => 0 ∈ s.timers ∧ (s.heap 0).cb = some 1) (by decide)
  refine ⟨s, hs.reachable, hid, ?_⟩
  refine (timer_control_truthful_iff hs.reachable 0 20 false 105).mpr ⟨?_, ?_⟩
  · rintro ⟨_, hnone⟩
    rw [hcb] at hnone
    cases hnone
  · rintro ⟨hnot, _⟩
    exact hnot hid

/-- A timer is cancelled, and `reset` with its own period returns `true`. -/
theorem reset_of_cancelled_returns_true :
    ∃ s, system.Reachable (State.init 100) s ∧ 0 < s.allocated ∧ 0 ∉ s.timers ∧
      (reset s 0 10 false 105).1.1 = true ∧ 0 ∉ (reset s 0 10 false 105).2.timers := by
  obtain ⟨s, hs, hend⟩ := System.exists_reachableWhen
    (M := system) (P := fun _ _ => True) (State.init 100)
    [.addTimer 10 (some 1) false 100 16, .cancel 0]
    (fun s => 0 < s.allocated ∧ 0 ∉ s.timers ∧
      (reset s 0 10 false 105).1.1 = true ∧ 0 ∉ (reset s 0 10 false 105).2.timers) (by decide)
  exact ⟨s, hs.reachable, hend⟩

end Control

end TimerManager
end Civan
