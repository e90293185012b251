import Civan.TimerManager.Lifecycle

/-!
# Exact expiry

`listExpiredCb` cuts `m_timers` in two.  The cut is where `lower_bound` finds a
timer made for the purpose, whose address may come before or after the addresses
of timers with the same deadline; a loop then moves it behind those.  Whatever the
address, the timers in front of the cut are the ones with `m_next <= now`.

The set is taken as any set in the order of its comparator, with timers at distinct
addresses; it may hold timers with an empty callback.
-/

namespace Civan
namespace TimerManager

open OrderedSet (Strict Sorted)
open Scheduler (Callback)

/-- The timers of the set that are due. -/
def State.due (s : State) (now : UInt64) : List TimerId :=
  s.timers.filter (fun id => (s.heap id).next ≤ now)

section Cut

variable {s : State}

theorem State.mem_due {now : UInt64} {id : TimerId} :
    id ∈ s.due now ↔ id ∈ s.timers ∧ (s.heap id).next ≤ now := by
  simp [State.due]

theorem State.Ordered.pairwise_next (h : s.Ordered) :
    s.timers.Pairwise (fun i j => (s.heap i).next ≤ (s.heap j).next) := by
  refine List.Pairwise.imp ?_ h
  intro i j hij
  rw [State.before, comparator_some] at hij
  rcases hij with hlt | ⟨heq, _⟩
  · exact UInt64.le_of_lt hlt
  · exact UInt64.le_of_eq heq

/-- What is before a timer that is below the probe is below the probe as well. -/
theorem State.Ordered.pairwise_below (h : s.Ordered) (probe : Timer) :
    s.timers.Pairwise (fun i j =>
      comparator (some (s.heap j)) (some probe) = true →
        comparator (some (s.heap i)) (some probe) = true) := by
  refine List.Pairwise.imp ?_ h
  intro i j hij hj
  rw [State.before, comparator_some] at hij
  rw [comparator_some] at hj ⊢
  simp only [UInt64.lt_iff_toNat_lt, ← UInt64.toNat_inj] at hij hj ⊢
  omega

/-- The cut of `listExpiredCb`, wherever the address of `now_timer` falls. -/
theorem State.Ordered.take_expiredEnd (h : s.Ordered) (now : UInt64) (addr : ℕ) :
    s.timers.take (expiredEnd s false now addr) = s.due now := by
  set below : TimerId → Bool :=
    fun id => comparator (some (s.heap id)) (some (.probe now addr)) with hbelow
  have hrange : s.timers.takeWhile below ++
      (s.timers.dropWhile below).takeWhile (fun id => decide ((s.heap id).next = now)) =
        s.due now := by
    refine OrderedSet.takeWhile_append_takeWhile ?_ ?_ ?_
    · intro i hi
      rw [hbelow, comparator_some] at hi
      simp only [Timer.probe, UInt64.lt_iff_toNat_lt, ← UInt64.toNat_inj] at hi
      simp only [decide_eq_true_eq, UInt64.le_iff_toNat_le]
      omega
    · intro i hi
      -- behind the lower bound no deadline is before `now`
      have hnot := OrderedSet.eq_false_of_mem_dropWhile (h.pairwise_below (.probe now addr)) hi
      rw [← Bool.not_eq_true, comparator_some] at hnot
      simp only [Timer.probe, UInt64.lt_iff_toNat_lt, ← UInt64.toNat_inj] at hnot
      simp only [decide_eq_decide, UInt64.le_iff_toNat_le, ← UInt64.toNat_inj]
      omega
    · refine List.Pairwise.imp ?_ h.pairwise_next
      intro i j hij hj
      simp only [decide_eq_true_eq] at hj ⊢
      exact UInt64.le_trans hij hj
  have hcut : expiredEnd s false now addr =
      OrderedSet.lowerBound below s.timers +
        OrderedSet.lowerBound (fun id => decide ((s.heap id).next = now))
          (s.timers.dropWhile below) := by
    rw [← OrderedSet.drop_lowerBound]
    rfl
  rw [hcut, List.take_add, OrderedSet.take_lowerBound, OrderedSet.drop_lowerBound,
    OrderedSet.take_lowerBound, hrange]

theorem State.Ordered.due_append (h : s.Ordered) (now : UInt64) :
    s.due now ++ s.timers.drop (s.due now).length = s.timers := by
  have hfront : s.due now <+: s.timers := by
    rw [← h.take_expiredEnd now 0]
    exact List.take_prefix _ _
  exact List.prefix_iff_eq_append.mp hfront

end Cut

section Loop

variable {s : State} {now : UInt64} {id : TimerId}

theorem State.addr_expire (i : TimerId) :
    ((s.expire now id).heap i).addr = (s.heap i).addr := by
  rw [s.heap_expire, Timer.expire]
  split_ifs <;> rfl

theorem State.recurring_expire (i : TimerId) :
    ((s.expire now id).heap i).recurring = (s.heap i).recurring := by
  rw [s.heap_expire, Timer.expire]
  split_ifs <;> rfl

/-- One round puts the timer back in its new place, or leaves it outside. -/
theorem SetInvariant.expire (h : SetInvariant s) (hout : id ∉ s.timers)
    (haddr : ∀ j ∈ s.timers, (s.heap id).addr ≠ (s.heap j).addr) :
    SetInvariant (s.expire now id) ∧
      ∀ i, i ∈ (s.expire now id).timers ↔
        i ∈ s.timers ∨ i = id ∧ (s.heap id).recurring = true := by
  cases hrecurring : (s.heap id).recurring with
  | false =>
    have hround : s.expire now id = s.write id { s.heap id with cb := none } := by
      rw [State.expire, if_neg (by simp [hrecurring]), Timer.expire_of_once hrecurring]
    rw [hround]
    exact ⟨h.write rfl rfl, fun i => by simp [State.write]⟩
  | true =>
    have hround : s.expire now id = ((s.write id ((s.heap id).expire now)).insert id).2 :=
      if_pos hrecurring
    have hself : ((s.heap id).expire now).addr = (s.heap id).addr := by
      rw [Timer.expire_of_recurring hrecurring]
    obtain ⟨hset, hmem⟩ := h.enter (t := (s.heap id).expire now) hout (hself ▸ haddr)
    rw [hround]
    refine ⟨hset, fun i => ?_⟩
    rw [hmem i, or_comm]
    simp

/-- The whole loop, over timers that have been taken out of the set. -/
theorem SetInvariant.of_handOut {expired : List TimerId} (h : SetInvariant s)
    (hnodup : expired.Nodup) (hout : ∀ i ∈ expired, i ∉ s.timers)
    (haddr : ∀ i ∈ expired ++ s.timers, ∀ j ∈ expired ++ s.timers,
      (s.heap i).addr = (s.heap j).addr → i = j)
    (now : UInt64) :
    SetInvariant (handOut now expired s).2 ∧
      ∀ i, i ∈ (handOut now expired s).2.timers ↔
        i ∈ s.timers ∨ i ∈ expired ∧ (s.heap i).recurring = true := by
  induction expired generalizing s with
  | nil => simpa [handOut] using h
  | cons id expired ih =>
    obtain ⟨hnot, hrest⟩ := List.nodup_cons.mp hnodup
    have hid : id ∉ s.timers := hout id List.mem_cons_self
    have hapart : ∀ j ∈ s.timers, (s.heap id).addr ≠ (s.heap j).addr := by
      intro j hj heq
      exact hid (haddr id (by simp) j (by simp [hj]) heq ▸ hj)
    obtain ⟨hset, hmem⟩ := SetInvariant.expire h hid hapart
    have hout' : ∀ i ∈ expired, i ∉ (s.expire now id).timers := by
      intro i hi hin
      rcases (hmem i).mp hin with hin | ⟨rfl, _⟩
      · exact hout i (List.mem_cons_of_mem _ hi) hin
      · exact hnot hi
    have hsub : ∀ i ∈ expired ++ (s.expire now id).timers, i ∈ id :: expired ++ s.timers := by
      intro i hi
      rw [List.mem_append, hmem i] at hi
      simp only [List.cons_append, List.mem_cons, List.mem_append]
      tauto
    have haddr' : ∀ i ∈ expired ++ (s.expire now id).timers,
        ∀ j ∈ expired ++ (s.expire now id).timers,
          ((s.expire now id).heap i).addr = ((s.expire now id).heap j).addr → i = j := by
      intro i hi j hj heq
      rw [State.addr_expire, State.addr_expire] at heq
      exact haddr i (hsub i hi) j (hsub j hj) heq
    obtain ⟨hdone, hdoneMem⟩ := ih hset hrest hout' haddr'
    rw [handOut_cons]
    refine ⟨hdone, fun i => ?_⟩
    rw [hdoneMem i, hmem i, State.recurring_expire, List.mem_cons]
    by_cases hi : i = id
    · subst hi
      simp [hnot]
    · simp [hi]

end Loop

section Expiry

variable {s : State} {now : UInt64}

theorem State.due_eq_nil (h : s.Ordered)
    {first : TimerId} {rest : List TimerId} (htimers : s.timers = first :: rest)
    (hlate : now < (s.heap first).next) :
    s.due now = [] := by
  have hnext := h.pairwise_next
  rw [htimers, List.pairwise_cons] at hnext
  unfold State.due
  rw [List.filter_eq_nil_iff, htimers]
  intro i hi
  have hle : (s.heap first).next ≤ (s.heap i).next := by
    rcases List.mem_cons.mp hi with rfl | hi
    · exact UInt64.le_refl _
    · exact hnext.1 i hi
  simp only [decide_eq_true_eq]
  exact UInt64.not_le.mpr (UInt64.lt_of_lt_of_le hlate hle)

/-- With a clock that does not go back, all ways through `listExpiredCb` are one: the
timers that are due leave the set and are handed out. -/
theorem SetInvariant.listExpiredCb_eq (h : SetInvariant s) (hclock : s.previousTime ≤ now)
    (addr : ℕ) :
    ∃ time, listExpiredCb s now addr =
      handOut now (s.due now)
        { s with timers := s.timers.drop (s.due now).length, previousTime := time } := by
  have hroll : detectClockRollover s now = (false, { s with previousTime := now }) := by
    have hnot : ¬ now < s.previousTime := UInt64.not_lt.mpr hclock
    simp [detectClockRollover, hnot]
  cases htimers : s.timers with
  | nil =>
    have hnone : s.due now = [] := by rw [State.due, htimers, List.filter_nil]
    refine ⟨s.previousTime, ?_⟩
    rw [hnone, listExpiredCb, htimers]
    cases s
    cases htimers
    rfl
  | cons first rest =>
    refine ⟨now, ?_⟩
    rw [← htimers]
    unfold listExpiredCb
    simp only [htimers, hroll]
    by_cases hlate : now < (s.heap first).next
    · rw [State.due_eq_nil h.ordered htimers hlate]
      simp [hlate, handOut, ← htimers]
    · have hcut : expiredEnd { s with previousTime := now } false now addr =
          expiredEnd s false now addr := rfl
      have htake := h.ordered.take_expiredEnd now addr
      have hdrop : s.timers.drop (expiredEnd s false now addr) =
          s.timers.drop (s.due now).length := by
        have hsplit := List.take_append_drop (expiredEnd s false now addr) s.timers
        rw [htake] at hsplit
        exact List.append_cancel_left (hsplit.trans (h.ordered.due_append now).symm)
      simp only [hlate, decide_false, Bool.and_false, Bool.false_eq_true, if_false, hcut,
        ← htimers, htake, hdrop]

theorem SetInvariant.nodup_due (h : SetInvariant s) (now : UInt64) : (s.due now).Nodup :=
  h.nodup.sublist List.filter_sublist

theorem SetInvariant.mem_drop (h : SetInvariant s) {i : TimerId} :
    i ∈ s.timers.drop (s.due now).length ↔ i ∈ s.timers ∧ i ∉ s.due now := by
  have hsplit := h.ordered.due_append now
  have hnodup := h.nodup
  rw [← hsplit, List.nodup_append] at hnodup
  have hmem : i ∈ s.timers ↔ i ∈ s.due now ∨ i ∈ s.timers.drop (s.due now).length := by
    rw [← List.mem_append, hsplit]
  rw [hmem]
  constructor
  · exact fun hi => ⟨Or.inr hi, fun hd => hnodup.2.2 i hd i hi rfl⟩
  · rintro ⟨hi | hi, hnot⟩
    · exact absurd hi hnot
    · exact hi

/-- What `listExpiredCb` does to the timers and the set. -/
theorem SetInvariant.listExpiredCb_spec (h : SetInvariant s) (hclock : s.previousTime ≤ now)
    (addr : ℕ) :
    (listExpiredCb s now addr).1 = (s.due now).map (fun i => (i, (s.heap i).cb)) ∧
    SetInvariant (listExpiredCb s now addr).2 ∧
    ∀ i,
      (listExpiredCb s now addr).2.heap i =
        (if i ∈ s.due now then (s.heap i).expire now else s.heap i) ∧
      (i ∈ (listExpiredCb s now addr).2.timers ↔
        i ∈ s.timers ∧ (i ∈ s.due now → (s.heap i).recurring = true)) := by
  obtain ⟨time, heq⟩ := h.listExpiredCb_eq hclock addr
  rw [heq]
  have hset : SetInvariant
      { s with timers := s.timers.drop (s.due now).length, previousTime := time } :=
    (h.sublist (List.drop_sublist _ _)).fields rfl rfl
  have hout : ∀ i ∈ s.due now, i ∉ s.timers.drop (s.due now).length :=
    fun i hi hin => (h.mem_drop.mp hin).2 hi
  have haddr : ∀ i ∈ s.due now ++ s.timers.drop (s.due now).length,
      ∀ j ∈ s.due now ++ s.timers.drop (s.due now).length,
        (s.heap i).addr = (s.heap j).addr → i = j := by
    rw [h.ordered.due_append now]
    exact h.addr_inj
  obtain ⟨hcbs, _, hheap⟩ := handOut_heap
    (s := { s with timers := s.timers.drop (s.due now).length, previousTime := time })
    (h.nodup_due now) now
  obtain ⟨hdone, hmem⟩ := hset.of_handOut (h.nodup_due now) hout haddr now
  refine ⟨hcbs, hdone, fun i => ⟨hheap i, ?_⟩⟩
  rw [hmem i, h.mem_drop, State.mem_due]
  tauto

/--
**Exact expiry.**  For any set in order, whatever the address of the timer made for
the search, and with a clock that does not go back: the callbacks of the timers with
`m_next <= now` are handed out, each once and in the order of `m_next`.  A timer that
is not recurring leaves the set and loses its callback, a recurring one is in the set
again, due at `now + m_ms`, and every other timer is in the set as before, with the
same fields.
-/
theorem listExpiredCb_exact {addr : ℕ} {cbs : List (TimerId × Option Callback)} {s' : State}
    (h : SetInvariant s) (hclock : s.previousTime ≤ now)
    (hfit : ∀ i ∈ s.due now, (s.heap i).recurring = true →
      now.toNat + (s.heap i).ms.toNat < 2 ^ 64)
    (hcall : listExpiredCb s now addr = (cbs, s')) :
    cbs = (s.due now).map (fun i => (i, (s.heap i).cb)) ∧
    (s.due now).Nodup ∧
    (s.due now).Pairwise (fun i j => (s.heap i).next ≤ (s.heap j).next) ∧
    (∀ i ∈ s.due now, (s.heap i).recurring = false →
      i ∉ s'.timers ∧ s'.heap i = { s.heap i with cb := none }) ∧
    (∀ i ∈ s.due now, (s.heap i).recurring = true →
      i ∈ s'.timers ∧ s'.heap i = { s.heap i with next := now + (s.heap i).ms } ∧
        (s'.heap i).next.toNat = now.toNat + (s.heap i).ms.toNat) ∧
    (∀ i, i ∉ s.due now → (i ∈ s'.timers ↔ i ∈ s.timers) ∧ s'.heap i = s.heap i) ∧
    SetInvariant s' := by
  obtain ⟨hcbs, hset, hspec⟩ := h.listExpiredCb_spec hclock addr
  rw [hcall] at hcbs hset hspec
  refine ⟨hcbs, h.nodup_due now, h.ordered.pairwise_next.sublist List.filter_sublist,
    ?_, ?_, ?_, hset⟩
  · intro i hi hrecurring
    obtain ⟨hheap, hmem⟩ := hspec i
    rw [if_pos hi, Timer.expire_of_once hrecurring] at hheap
    refine ⟨fun hin => ?_, hheap⟩
    have hagain := (hmem.mp hin).2 hi
    rw [hrecurring] at hagain
    cases hagain
  · intro i hi hrecurring
    obtain ⟨hheap, hmem⟩ := hspec i
    rw [if_pos hi, Timer.expire_of_recurring hrecurring] at hheap
    refine ⟨hmem.mpr ⟨(State.mem_due.mp hi).1, fun _ => hrecurring⟩, hheap, ?_⟩
    rw [hheap]
    change (now + (s.heap i).ms).toNat = _
    rw [UInt64.toNat_add, Nat.mod_eq_of_lt (hfit i hi hrecurring)]
  · intro i hi
    obtain ⟨hheap, hmem⟩ := hspec i
    rw [if_neg hi] at hheap
    refine ⟨hmem.trans ⟨And.left, fun hin => ⟨hin, fun hdue => absurd hdue hi⟩⟩, hheap⟩

/-- Two timers with the deadline 10 on the two sides of the address 2, one of them
recurring, and one timer that is not due. -/
def equalDeadlines : State :=
  { heap := fun id =>
      match id with
      | 0 => { recurring := true, ms := 7, next := 10, cb := some 4, addr := 1 }
      | 1 => { recurring := false, ms := 5, next := 10, cb := some 5, addr := 3 }
      | _ => { recurring := false, ms := 9, next := 30, cb := some 6, addr := 2 }
    allocated := 3
    timers := [0, 1, 2]
    tickled := false
    previousTime := 8 }

theorem equalDeadlines_setInvariant :
    SetInvariant equalDeadlines where
  ordered := by
    unfold State.Ordered OrderedSet.Sorted
    decide
  addr_inj := by decide

theorem listExpiredCb_exact_equal_deadlines :
    equalDeadlines.due 10 = [0, 1] ∧
    (listExpiredCb equalDeadlines 10 2).1 = [(0, some 4), (1, some 5)] ∧
    1 ∉ (listExpiredCb equalDeadlines 10 2).2.timers ∧
    ((listExpiredCb equalDeadlines 10 2).2.heap 0).next.toNat = 10 + 7 := by
  obtain ⟨hcbs, _, _, honce, hagain, _⟩ :=
    listExpiredCb_exact equalDeadlines_setInvariant
      (by decide : equalDeadlines.previousTime ≤ 10) (by decide) rfl
  exact ⟨by decide, hcbs, (honce 1 (by decide) rfl).1, (hagain 0 (by decide) rfl).2.2⟩

end Expiry

end TimerManager
end Civan
