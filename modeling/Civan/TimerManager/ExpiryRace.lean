import Mathlib.Data.Fintype.Basic
import Civan.Lib.Sections
import Civan.TimerManager.Invariant

/-!
# Several threads in listExpiredCb

`listExpiredCb` asks under the read lock whether `m_timers` is empty, and takes the
write lock for its body.  In between another thread may expire or cancel the last
timer; the body then looks at `*m_timers.begin()` all the same, unless the clock has
been set back.

The other calls lock once.  Of these only `cancel` can take the last timer out.
-/

namespace Civan
namespace TimerManager

open Transition Sections

/-- What ends the process. -/
inductive Fault where
  | failure (f : Failure)
  /-- `*m_timers.begin()` of an empty set, line 156. -/
  | derefEnd
deriving DecidableEq, Repr

/-- Lines 159 to 177 of `listExpiredCb`: the expired timers leave the set. -/
def expire (s : State) (rollover : Bool) (now : UInt64) (addr : ℕ) :
    List (TimerId × Option Scheduler.Callback) × State :=
  let it := expiredEnd s rollover now addr
  handOut now (s.timers.take it) { s with timers := s.timers.drop it }

/-- Lines 153 to 177 of `listExpiredCb`, under the write lock. -/
def listExpiredBody (s : State) (now : UInt64) (addr : ℕ) :
    Except Fault (List (TimerId × Option Scheduler.Callback) × State) :=
  let r := detectClockRollover s now
  if r.1 then
    .ok (expire r.2 true now addr)
  else
    match s.timers with
    | [] => .error .derefEnd
    | first :: _ =>
      if now < (s.heap first).next then .ok ([], r.2) else .ok (expire r.2 false now addr)

theorem detectClockRollover_timers (s : State) (now : UInt64) :
    (detectClockRollover s now).2.timers = s.timers := by
  rfl

/-- The test and the body in one go are `listExpiredCb`. -/
theorem listExpiredCb_eq_body (s : State) (now : UInt64) (addr : ℕ) :
    (if s.timers = [] then .ok ([], s) else listExpiredBody s now addr) =
      Except.ok (listExpiredCb s now addr) := by
  unfold listExpiredBody listExpiredCb
  cases htimers : s.timers with
  | nil => rfl
  | cons first rest =>
    cases hroll : (detectClockRollover s now).1 with
    | true => simp [hroll, htimers, expire, detectClockRollover_timers]
    | false =>
      by_cases hnow : now < (s.heap first).next
      · simp [hroll, hnow]
      · simp [hroll, hnow, htimers, expire, detectClockRollover_timers]

/-- The sections.  What the body brings from its test is `now_ms`, and the address that
`now_timer` will get. -/
def sections : Calls State Label (UInt64 × ℕ) (Option Outcome) Fault where
  first s
    | .listExpiredCb now addr =>
      if s.timers = [] then
        some (.ok (some (.expired []), s, none))
      else
        some (.ok (none, s, some (now, addr)))
    | l =>
      (call s l).map fun r =>
        match r with
        | .error f => .error (.failure f)
        | .ok (o, s') => .ok (some o, s', none)
  second s p :=
    (listExpiredBody s p.1 p.2).map fun r => (some (.expired r.1), r.2)

/-- Only `listExpiredCb` has a gap, and it comes there with a timer in the set. -/
theorem sections_gap {s x : State} {l : Label} {o : Option Outcome} {q : UInt64 × ℕ}
    (h : sections.first s l = some (.ok (o, x, some q))) :
    x.timers ≠ [] := by
  cases l with
  | listExpiredCb now addr =>
    simp only [sections] at h
    split_ifs at h with hempty
    · cases h
    · cases h
      exact hempty
  | addTimer | cancel | refresh | reset | getNextTimer =>
    simp only [sections, Option.map_eq_some_iff] at h
    obtain ⟨r, _, hr⟩ := h
    cases r with
    | error f => cases hr
    | ok r => cases hr

section Keeps

variable {s : State} {now : UInt64}

theorem addTimerLocked_timers_ne (s : State) (id : TimerId) :
    (addTimerLocked s id).2.timers ≠ [] := by
  rw [(addTimerLocked_fields s id).2.1]
  exact OrderedSet.insert_ne_nil s.before id s.timers

theorem refresh_timers_ne (htimers : s.timers ≠ []) (id : TimerId) (now : UInt64) :
    (refresh s id now).2.timers ≠ [] := by
  rw [refresh]
  split_ifs
  · exact htimers
  · cases s.find id with
    | none => exact htimers
    | some it => exact OrderedSet.insert_ne_nil _ _ _

theorem reset_timers_ne
    (htimers : s.timers ≠ []) (id : TimerId) (ms : UInt64) (fromNow : Bool) (now : UInt64) :
    (reset s id ms fromNow now).2.timers ≠ [] := by
  rw [reset]
  by_cases hsame : ms = (s.heap id).ms ∧ fromNow = false
  · rw [if_pos hsame]
    exact htimers
  · rw [if_neg hsame]
    by_cases hcb : (s.heap id).cb.isNone
    · rw [if_pos hcb]
      exact htimers
    · rw [if_neg hcb]
      cases s.find id with
      | none => exact htimers
      | some it => exact addTimerLocked_timers_ne _ _

theorem getNextTimer_timers (s : State) (now : UInt64) :
    (getNextTimer s now).2.timers = s.timers := by
  simp only [getNextTimer]
  cases htimers : s.timers with
  | nil => rfl
  | cons next rest =>
    simp only
    split_ifs
    · rfl
    · rfl

/-- A `cancel` erases one timer at most, and none if the timer has no callback. -/
theorem cancel_timers_ne {s' : State} {id : TimerId} {b : Bool} (htimers : s.timers ≠ [])
    (honly : (s.heap id).cb.isSome → s.timers.length ≠ 1) (h : cancel s id = .ok (b, s')) :
    s'.timers ≠ [] := by
  rw [cancel] at h
  split_ifs at h with hcb
  · cases hfind : (s.write id { s.heap id with cb := none }).find id with
    | none =>
      simp only [hfind] at h
      cases h
    | some it =>
      simp only [hfind] at h
      cases h
      have hlen := List.length_pos_iff.mpr htimers
      have herase := List.le_length_eraseIdx s.timers it
      have hne := honly hcb
      exact List.length_pos_iff.mp (by simp only [State.eraseAt, State.write]; omega)
  · cases h
    exact htimers

/-- The condition under which a call of one section keeps a timer in the set. -/
def Label.Spares (s : State) : Label → Prop
  | .cancel id => (s.heap id).cb.isSome → s.timers.length ≠ 1
  | _ => True

instance (s : State) :
    DecidablePred (Label.Spares s)
  | .cancel _ => inferInstanceAs (Decidable (_ → _))
  | .addTimer .. | .refresh .. | .reset .. | .getNextTimer _ | .listExpiredCb .. =>
    .isTrue trivial

theorem sections_first_timers_ne
    {x : State} {l : Label} {o : Option Outcome} {p : Option (UInt64 × ℕ)}
    (htimers : s.timers ≠ []) (hspares : l.Spares s)
    (h : sections.first s l = some (.ok (o, x, p))) :
    x.timers ≠ [] := by
  cases l with
  | listExpiredCb now addr =>
    simp only [sections, if_neg htimers] at h
    cases h
    exact htimers
  | addTimer ms cb recurring now addr =>
    simp only [sections, call] at h
    split_ifs at h
    · cases h
    · cases h
      exact addTimerLocked_timers_ne _ _
  | refresh id now =>
    simp only [sections, call] at h
    split_ifs at h
    · cases h
      exact refresh_timers_ne htimers id now
    · cases h
  | reset id ms fromNow now =>
    simp only [sections, call] at h
    split_ifs at h
    · cases h
      exact reset_timers_ne htimers id ms fromNow now
    · cases h
  | getNextTimer now =>
    simp only [sections, call] at h
    cases h
    rw [getNextTimer_timers]
    exact htimers
  | cancel id =>
    simp only [sections, call] at h
    split_ifs at h
    · cases hcancel : cancel s id with
      | error f => simp [hcancel, Except.map] at h
      | ok r =>
        simp only [hcancel, Except.map, Option.map_some] at h
        cases h
        exact cancel_timers_ne htimers hspares hcancel
    · cases h

theorem handOut_timers_ne {expired : List TimerId}
    (h : s.timers ≠ [] ∨ ∃ id ∈ expired, (s.heap id).recurring = true) :
    (handOut now expired s).2.timers ≠ [] := by
  induction expired generalizing s with
  | nil =>
    rcases h with htimers | ⟨id, hid, _⟩
    · exact htimers
    · cases hid
  | cons id expired ih =>
    simp only [handOut]
    by_cases hrec : (s.heap id).recurring = true
    · rw [if_pos hrec]
      exact ih (Or.inl (OrderedSet.insert_ne_nil _ _ _))
    · rw [if_neg hrec]
      apply ih
      rcases h with htimers | ⟨id', hid', hrec'⟩
      · exact Or.inl htimers
      · -- a recurring timer is another one, and the write is not to it
        have hne : id' ≠ id := by
          rintro rfl
          exact hrec hrec'
        refine Or.inr ⟨id', (List.mem_cons.mp hid').resolve_left hne, ?_⟩
        simp only [State.write, Function.update_of_ne hne]
        exact hrec'

/-- Without a rollover, only timers that are due expire. -/
theorem next_le_of_expired {addr : ℕ} {id : TimerId}
    (hid : id ∈ s.timers.take (expiredEnd s false now addr)) :
    (s.heap id).next ≤ now := by
  simp only [expiredEnd, Bool.false_eq_true, if_false, OrderedSet.lowerBound] at hid
  rw [List.take_add, List.mem_append,
    ← List.prefix_iff_eq_take.mp (List.takeWhile_prefix _),
    ← List.prefix_iff_eq_take.mp (List.takeWhile_prefix _)] at hid
  rcases hid with hbelow | hequal
  · have hlt := List.mem_takeWhile_imp hbelow
    by_contra hnot
    have hnext := UInt64.not_le.mp hnot
    simp [comparator, Timer.probe, hnext, UInt64.lt_asymm hnext] at hlt
  · have heq := List.mem_takeWhile_imp hequal
    exact UInt64.le_of_eq (of_decide_eq_true heq)

/-- A timer comes back, or is not due. -/
def Remains (s : State) (now : UInt64) : Prop :=
  ∃ id ∈ s.timers, (s.heap id).recurring = true ∨
    ((detectClockRollover s now).1 = false ∧ now < (s.heap id).next)

instance (s : State) (now : UInt64) :
    Decidable (Remains s now) :=
  inferInstanceAs (Decidable (∃ _ ∈ _, _))

theorem expire_timers_ne {rollover : Bool} {addr : ℕ} {id : TimerId} (hid : id ∈ s.timers)
    (h : (s.heap id).recurring = true ∨ (rollover = false ∧ now < (s.heap id).next)) :
    (expire s rollover now addr).2.timers ≠ [] := by
  apply handOut_timers_ne
  rw [← List.take_append_drop (expiredEnd s rollover now addr) s.timers, List.mem_append] at hid
  rcases hid with htake | hdrop
  · rcases h with hrec | ⟨rfl, hnext⟩
    · exact Or.inr ⟨id, htake, hrec⟩
    · exact absurd (next_le_of_expired htake) (UInt64.not_le.mpr hnext)
  · exact Or.inl (List.ne_nil_of_mem hdrop)

theorem listExpiredBody_timers_ne
    {addr : ℕ} {r : List (TimerId × Option Scheduler.Callback) × State} (hremains : Remains s now)
    (h : listExpiredBody s now addr = .ok r) :
    r.2.timers ≠ [] := by
  obtain ⟨id, hid, hstays⟩ := hremains
  have hexpire : (expire (detectClockRollover s now).2 (detectClockRollover s now).1 now
      addr).2.timers ≠ [] :=
    expire_timers_ne (s := (detectClockRollover s now).2) hid hstays
  simp only [listExpiredBody] at h
  cases hroll : (detectClockRollover s now).1 with
  | true =>
    rw [hroll] at hexpire
    simp only [hroll, if_true, Except.ok.injEq] at h
    rw [← h]
    exact hexpire
  | false =>
    rw [hroll] at hexpire
    obtain ⟨first, rest, htimers⟩ := List.exists_cons_of_ne_nil (List.ne_nil_of_mem hid)
    simp only [hroll, Bool.false_eq_true, if_false, htimers] at h
    split_ifs at h
    · rw [← Except.ok.inj h]
      exact List.ne_nil_of_mem hid
    · rw [← Except.ok.inj h]
      exact hexpire

end Keeps

section Race

variable {τ : Type} [DecidableEq τ]

/-- The threads as a transition system. -/
def threads : System (Threads τ State (UInt64 × ℕ)) (Sections.Label τ Label) (Option Outcome) :=
  Sections.system sections

/-- While another thread is between its test and its body, nobody cancels the only timer, and
no body finds all timers due and none recurring. -/
def LeavesTimer (s : Threads τ State (UInt64 × ℕ)) (l : Sections.Label τ Label) : Prop :=
  (∃ t, t ≠ l.thread ∧ (s.between t).isSome) →
    match l with
    | .first _ c => c.Spares s.shared
    | .second t => ∀ q ∈ s.between t, Remains s.shared q.1

instance [Fintype τ] (s : Threads τ State (UInt64 × ℕ)) (l : Sections.Label τ Label) :
    Decidable (LeavesTimer s l) :=
  match l with
  | .first _ _ => inferInstanceAs (Decidable (_ → Label.Spares _ _))
  | .second _ => inferInstanceAs (Decidable (_ → ∀ _ ∈ _, Remains _ _))

/-- A thread that has passed the test still finds a timer. -/
theorem outline_leavesTimer :
    Outline (τ := τ) sections LeavesTimer (fun _ => True) (fun s _ => s.timers ≠ []) where
  first := by
    intro s t a o x p _ _ hfirst
    refine ⟨trivial, ?_⟩
    intro q hq
    rw [Option.mem_def.mp hq] at hfirst
    exact sections_gap hfirst
  second := fun _ _ _ _ _ _ _ _ _ _ => trivial
  stable := by
    intro s l o s' t q hleaves hstep hne hq htimers
    have hspares := hleaves ⟨t, hne, by rw [hq]; rfl⟩
    cases l with
    | first t' c =>
      obtain ⟨_, x, p, hfirst, rfl⟩ := step_first hstep
      exact sections_first_timers_ne htimers hspares hfirst
    | second t' =>
      obtain ⟨p, x, hp, hsecond, rfl⟩ := step_second hstep
      cases hbody : listExpiredBody s.shared p.1 p.2 with
      | error e => simp [sections, hbody, Except.map] at hsecond
      | ok r =>
        simp only [sections, hbody, Except.map] at hsecond
        cases hsecond
        exact listExpiredBody_timers_ne (hspares p hp) hbody

theorem listExpiredBody_derefEnd {s : State} {now : UInt64} {addr : ℕ}
    (h : listExpiredBody s now addr = .error .derefEnd) :
    s.timers = [] := by
  simp only [listExpiredBody] at h
  split at h
  · cases h
  · cases htimers : s.timers with
    | nil => rfl
    | cons first rest =>
      simp only [htimers] at h
      split_ifs at h

/--
In runs in which, while another thread is between its test and its body, no thread cancels
the only timer or runs a body that expires all timers with none recurring, no body
dereferences `begin()` of an empty set.
-/
theorem listExpiredCb_finds_timer {now : UInt64} {s : Threads τ State (UInt64 × ℕ)}
    (hs : threads.ReachableWhen LeavesTimer (Threads.start (State.init now)) s) (t : τ) :
    fault sections s (.second t) ≠ some .derefEnd := by
  obtain ⟨_, hgap⟩ := outline_leavesTimer.reachable (holds_start trivial) hs
  intro hfault
  obtain ⟨q, hq, hsecond⟩ := fault_second hfault
  have hbody : listExpiredBody s.shared q.1 q.2 = .error .derefEnd := by
    cases hbody : listExpiredBody s.shared q.1 q.2 with
    | ok r => simp [sections, hbody, Except.map] at hsecond
    | error e => simpa [sections, hbody, Except.map] using hsecond
  exact hgap t q hq (listExpiredBody_derefEnd hbody)

/-- Two threads expire a recurring timer, which goes back into the set each time. -/
def expireRecurring : List (Sections.Label Bool Label) :=
  [.first false (.addTimer 5 (some 7) true 10 1),
    .first false (.listExpiredCb 20 2), .first true (.listExpiredCb 20 3),
    .second false]

theorem listExpiredCb_finds_timer_recurring :
    ∃ s : Threads Bool State (UInt64 × ℕ),
      threads.ReachableWhen LeavesTimer (Threads.start (State.init 10)) s ∧
      (s.between true).isSome = true ∧
      fault sections s (.second true) ≠ some .derefEnd := by
  obtain ⟨s, hs, hgap⟩ := System.exists_reachableWhen
    (M := threads) (P := LeavesTimer) (Threads.start (State.init 10)) expireRecurring
    (fun s => (s.between true).isSome = true) (by decide)
  exact ⟨s, hs, hgap, listExpiredCb_finds_timer hs true⟩

/-- Two threads expire a timer that does not recur. -/
def expireOnce : List (Sections.Label Bool Label) :=
  [.first false (.addTimer 5 (some 7) false 10 1),
    .first false (.listExpiredCb 20 2), .first true (.listExpiredCb 20 3),
    .second false]

/-- The second thread finds the set empty and dereferences `begin()`. -/
theorem listExpiredCb_derefs_end :
    ∃ s : Threads Bool State (UInt64 × ℕ),
      threads.Reachable (Threads.start (State.init 10)) s ∧
      fault sections s (.second true) = some .derefEnd := by
  obtain ⟨s, hs, hfault⟩ := System.exists_reachableWhen
    (M := threads) (P := fun _ _ => True) (Threads.start (State.init 10)) expireOnce
    (fun s => fault sections s (.second true) = some .derefEnd) (by decide)
  exact ⟨s, hs.reachable, hfault⟩

end Race

end TimerManager
end Civan
