import Civan.TimerManager.Invariant

/-!
# The life of a timer

What a timer is for, apart from the set it is kept in: it is created with a callback,
fires once or again and again, and is done when it was cancelled or, if it is not
recurring, when it fired.  Every run of the timer manager takes each timer through such
a life, and what is said about firing and cancelling is read off there.
-/

namespace Civan
namespace TimerManager

open Transition
open Scheduler (Callback)

section Life

/-- Where a timer is in its life. -/
inductive Life where
  | absent
  | armed (recurring : Bool) (cb : Callback)
  | done (recurring : Bool)
deriving DecidableEq, Repr

/-- What is seen of a timer: a callback handed out, a `cancel` that returned `true`. -/
inductive Use where
  | fired (cb : Option Callback)
  | cancelled
deriving DecidableEq, Repr

namespace Life

/-- One call and what it shows of one timer. -/
inductive Step : Life → List Use → Life → Prop
  | keep (x : Life) : Step x [] x
  | create (recurring : Bool) (cb : Callback) : Step .absent [] (.armed recurring cb)
  | fire (cb : Callback) : Step (.armed false cb) [.fired (some cb)] (.done false)
  | again (cb : Callback) : Step (.armed true cb) [.fired (some cb)] (.armed true cb)
  | cancel (recurring : Bool) (cb : Callback) :
      Step (.armed recurring cb) [.cancelled] (.done recurring)

/-- A sequence of calls and all it shows of one timer. -/
inductive Run : Life → List Use → Life → Prop
  | nil (x : Life) : Run x [] x
  | cons {x y z : Life} {us vs : List Use} (hstep : Step x us y) (hrun : Run y vs z) :
      Run x (us ++ vs) z

/-- A recurring timer; an absent one is not. -/
def recurring : Life → Bool
  | absent => false
  | armed r _ => r
  | done r => r

variable {x y : Life} {us : List Use}

/-- Nothing more is seen of a timer that is done. -/
theorem Run.done {r : Bool} (h : Run (.done r) us y) : us = [] := by
  generalize hx : Life.done r = x at h
  induction h with
  | nil => rfl
  | cons hstep _ ih =>
    subst hx
    cases hstep
    exact ih rfl

/-- A timer does not stop being recurring. -/
theorem Run.recurring (h : Run x us y) (hx : x.recurring = true) : y.recurring = true := by
  induction h with
  | nil => exact hx
  | cons hstep _ ih =>
    refine ih ?_
    cases hstep with
    | keep => exact hx
    | create => cases hx
    | fire => cases hx
    | again => rfl
    | cancel => exact hx

/-- Nothing is seen of a timer after a `cancel` that returned `true`. -/
theorem Run.nothing_after_cancel (h : Run x us y) (us₁ us₂ : List Use)
    (hsplit : us = us₁ ++ .cancelled :: us₂) :
    us₂ = [] := by
  induction h generalizing us₁ with
  | nil => simp at hsplit
  | cons hstep hrun ih =>
    cases hstep with
    | keep => exact ih us₁ hsplit
    | create => exact ih us₁ hsplit
    | fire cb =>
      rw [hrun.done] at hsplit
      cases us₁ <;> simp at hsplit
    | again cb =>
      cases us₁ with
      | nil => simp at hsplit
      | cons u us₁ => exact ih us₁ (List.cons.inj hsplit).2
    | cancel r cb =>
      rw [hrun.done] at hsplit
      cases us₁ with
      | nil => simpa using hsplit.symm
      | cons u us₁ => simp at hsplit

theorem Run.count_cancelled (h : Run x us y) : us.count .cancelled ≤ 1 := by
  by_cases hmem : Use.cancelled ∈ us
  · obtain ⟨us₁, us₂, hsplit, hnot⟩ := List.eq_append_cons_of_mem hmem
    have hnil := h.nothing_after_cancel us₁ us₂ hsplit
    rw [hsplit, hnil]
    simp [List.count_eq_zero.mpr hnot]
  · rw [List.count_eq_zero.mpr hmem]
    exact Nat.zero_le 1

/-- A timer that is not recurring fires once or is cancelled once, and not both. -/
theorem Run.length_le_one (h : Run x us y) (hy : y.recurring = false) : us.length ≤ 1 := by
  induction h with
  | nil => exact Nat.zero_le 1
  | cons hstep hrun ih =>
    cases hstep with
    | keep => exact ih hy
    | create => exact ih hy
    | fire cb =>
      rw [hrun.done]
      rfl
    | again cb =>
      rw [hrun.recurring rfl] at hy
      cases hy
    | cancel r cb =>
      rw [hrun.done]
      rfl

end Life

end Life

section Refinement

/-- Where a timer of the manager is in its life. -/
def State.life (s : State) (id : TimerId) : Life :=
  if s.allocated ≤ id then .absent
  else
    match (s.heap id).cb with
    | some cb => .armed (s.heap id).recurring cb
    | none => .done (s.heap id).recurring

/-- What an outcome shows of a timer. -/
def Outcome.uses (id : TimerId) : Outcome → List Use
  | .cancelled i true => if i = id then [.cancelled] else []
  | .expired cbs => (cbs.filter (fun c => c.1 = id)).map (fun c => .fired c.2)
  | _ => []

/-- The callback that `addTimer` is given is not empty. -/
def NonEmptyCb (_ : State) : Label → Prop
  | .addTimer _ cb _ _ _ => cb.isSome
  | _ => True

instance (s : State) (l : Label) : Decidable (NonEmptyCb s l) := by
  cases l <;> unfold NonEmptyCb <;> infer_instance

variable {s s' : State} {id : TimerId} {l : Label} {o : Outcome}

theorem TimersOk.life_armed {cb : Callback} (h : TimersOk s) (hcb : (s.heap id).cb = some cb) :
    s.life id = .armed (s.heap id).recurring cb := by
  have hlt : id < s.allocated := h.allocated id (by rw [hcb]; rfl)
  rw [State.life, if_neg (Nat.not_le.mpr hlt), hcb]

/-- The life of a timer is where its creation, its callback and its kind say. -/
theorem State.life_congr (hallocated : s'.allocated = s.allocated)
    (hcb : (s'.heap id).cb = (s.heap id).cb)
    (hrecurring : (s'.heap id).recurring = (s.heap id).recurring) :
    s'.life id = s.life id := by
  unfold State.life
  rw [hallocated, hcb, hrecurring]

theorem State.life_write {i : TimerId} {t : Timer} (hcb : t.cb = (s.heap i).cb)
    (hrecurring : t.recurring = (s.heap i).recurring) :
    (s.write i t).life id = s.life id := by
  refine State.life_congr rfl ?_ ?_
  · by_cases hid : id = i
    · subst hid
      simp [State.write, hcb]
    · simp [State.write, hid]
  · by_cases hid : id = i
    · subst hid
      simp [State.write, hrecurring]
    · simp [State.write, hid]

/-- What the loop of `listExpiredCb` makes of an expired timer. -/
def Timer.expire (now : UInt64) (t : Timer) : Timer :=
  if t.recurring then { t with next := now + t.ms } else { t with cb := none }

theorem Timer.expire_of_recurring {t : Timer} {now : UInt64} (h : t.recurring = true) :
    t.expire now = { t with next := now + t.ms } :=
  if_pos h

theorem Timer.expire_of_once {t : Timer} {now : UInt64} (h : t.recurring = false) :
    t.expire now = { t with cb := none } :=
  if_neg (by simp [h])

/-- One round of the loop. -/
def State.expire (s : State) (now : UInt64) (id : TimerId) : State :=
  if (s.heap id).recurring then ((s.write id ((s.heap id).expire now)).insert id).2
  else s.write id ((s.heap id).expire now)

theorem handOut_cons (now : UInt64) (id : TimerId) (expired : List TimerId) (s : State) :
    handOut now (id :: expired) s =
      ((id, (s.heap id).cb) :: (handOut now expired (s.expire now id)).1,
        (handOut now expired (s.expire now id)).2) := by
  simp only [handOut, State.expire, Timer.expire]
  split_ifs <;> rfl

theorem State.heap_expire (s : State) (now : UInt64) (id i : TimerId) :
    (s.expire now id).heap i = if i = id then (s.heap i).expire now else s.heap i := by
  have hwrite : (s.expire now id).heap =
      Function.update s.heap id ((s.heap id).expire now) := by
    unfold State.expire
    split_ifs <;> rfl
  rw [hwrite, Function.update_apply]
  split_ifs with hi
  · rw [hi]
  · rfl

theorem State.allocated_expire (s : State) (now : UInt64) (id : TimerId) :
    (s.expire now id).allocated = s.allocated := by
  unfold State.expire
  split_ifs <;> rfl

/-- The loop hands out every callback once and changes the expired timers only. -/
theorem handOut_heap {expired : List TimerId} (hnodup : expired.Nodup) (now : UInt64) :
    (handOut now expired s).1 = expired.map (fun i => (i, (s.heap i).cb)) ∧
      (handOut now expired s).2.allocated = s.allocated ∧
      ∀ i, (handOut now expired s).2.heap i =
        if i ∈ expired then (s.heap i).expire now else s.heap i := by
  induction expired generalizing s with
  | nil => simp [handOut]
  | cons id expired ih =>
    obtain ⟨hnot, hrest⟩ := List.nodup_cons.mp hnodup
    obtain ⟨hcbs, hcount, htimers⟩ := ih (s := s.expire now id) hrest
    rw [handOut_cons]
    refine ⟨?_, hcount.trans (s.allocated_expire now id), ?_⟩
    · rw [hcbs, List.map_cons]
      refine congrArg _ (List.map_congr_left ?_)
      intro i hi
      have hne : i ≠ id := fun heq => hnot (heq ▸ hi)
      rw [s.heap_expire, if_neg hne]
    · intro i
      rw [htimers i, s.heap_expire]
      by_cases hi : i = id
      · subst hi
        simp [hnot]
      · simp [hi]

/-- What the loop of `listExpiredCb` does to the life of the timers. -/
theorem handOut_spec {expired : List TimerId} (hnodup : expired.Nodup) (now : UInt64) :
    (handOut now expired s).1 = expired.map (fun i => (i, (s.heap i).cb)) ∧
      (handOut now expired s).2.allocated = s.allocated ∧
      ∀ i, ((handOut now expired s).2.heap i).recurring = (s.heap i).recurring ∧
        ((handOut now expired s).2.heap i).cb =
          if i ∈ expired ∧ (s.heap i).recurring = false then none else (s.heap i).cb := by
  obtain ⟨hcbs, hcount, htimers⟩ := handOut_heap (s := s) hnodup now
  refine ⟨hcbs, hcount, fun i => ?_⟩
  rw [htimers i, Timer.expire]
  cases hrecurring : (s.heap i).recurring <;> split_ifs <;> simp_all

/-- What a list of expired timers shows of one timer. -/
theorem Outcome.uses_expired {expired : List TimerId} {cb : TimerId → Option Callback}
    (hnodup : expired.Nodup) :
    (Outcome.expired (expired.map (fun i => (i, cb i)))).uses id =
      if id ∈ expired then [.fired (cb id)] else [] := by
  simp only [Outcome.uses, List.filter_map, List.map_map]
  have hfilter : expired.filter ((fun c : TimerId × Option Callback => decide (c.1 = id)) ∘
      fun i => (i, cb i)) = List.replicate (expired.count id) id := by
    rw [← List.filter_eq]
    rfl
  rw [hfilter]
  split_ifs with hmem
  · rw [List.count_eq_one_of_mem hnodup hmem]
    rfl
  · rw [List.count_eq_zero.mpr hmem]
    rfl

theorem life_addTimer
    {ms : UInt64} {cb : Option Callback} {recurring : Bool} {now : UInt64} {addr : ℕ}
    (hcb : cb.isSome) :
    Life.Step (s.life id) [] ((addTimer s ms cb recurring now addr).2.life id) := by
  obtain ⟨f, rfl⟩ := Option.isSome_iff_exists.mp hcb
  obtain ⟨hheap, _, hallocated⟩ := addTimerLocked_fields
    { s.write s.allocated (.new ms (some f) recurring now addr) with
      allocated := s.allocated + 1 } s.allocated
  have hlife : (addTimer s ms (some f) recurring now addr).2.life id =
      if id = s.allocated then .armed recurring f else s.life id := by
    unfold State.life addTimer
    dsimp only
    rw [hheap, hallocated]
    by_cases hid : id = s.allocated
    · subst hid
      simp [State.write, Timer.new]
    · have hle : s.allocated + 1 ≤ id ↔ s.allocated ≤ id :=
        ⟨Nat.le_of_succ_le, fun hle => Nat.lt_of_le_of_ne hle (Ne.symm hid)⟩
      simp [State.write, hid, hle]
  rw [hlife]
  split_ifs with hid
  · have habsent : s.life id = .absent := if_pos (Nat.le_of_eq hid.symm)
    rw [habsent]
    exact .create recurring f
  · exact .keep _

theorem TimersOk.life_cancel {i : TimerId} (h : TimersOk s) (hcb : (s.heap i).cb.isSome) :
    Life.Step (s.life id) ((Outcome.cancelled i true).uses id)
      (State.life { s.write i { s.heap i with cb := none } with
        timers := s.timers.erase i } id) := by
  obtain ⟨f, hf⟩ := Option.isSome_iff_exists.mp hcb
  by_cases hid : i = id
  · subst hid
    have hlt : i < s.allocated := h.allocated i hcb
    have hdone : State.life { s.write i { s.heap i with cb := none } with
        timers := s.timers.erase i } i = .done (s.heap i).recurring := by
      simp [State.life, State.write, hlt]
    rw [hdone, h.life_armed hf]
    simp only [Outcome.uses, if_true]
    exact .cancel _ f
  · have hsame : State.life { s.write i { s.heap i with cb := none } with
        timers := s.timers.erase i } id = s.life id := by
      refine State.life_congr rfl ?_ ?_ <;> simp [State.write, Ne.symm hid]
    rw [hsame]
    simp only [Outcome.uses, hid, if_false]
    exact .keep _

/-- A timer that is taken out, given a new time and put back goes on as before. -/
theorem State.life_reinsert {i : TimerId} {t : Timer} {timers : List TimerId}
    (hcb : t.cb = (s.heap i).cb) (hrecurring : t.recurring = (s.heap i).recurring) :
    ((State.write { s with timers := timers } i t).insert i).2.life id = s.life id :=
  State.life_write (s := { s with timers := timers }) hcb hrecurring

theorem TimersOk.life_refresh {i : TimerId} {now : UInt64} (h : TimersOk s) :
    (TimerManager.refresh s i now).2.life id = s.life id := by
  rw [h.tracked.refresh_eq]
  split_ifs
  · exact State.life_reinsert rfl rfl
  · rfl

theorem TimersOk.life_listExpiredCb {now : UInt64} {addr : ℕ} (h : TimersOk s) :
    Life.Step (s.life id) ((Outcome.expired (TimerManager.listExpiredCb s now addr).1).uses id)
      ((TimerManager.listExpiredCb s now addr).2.life id) := by
  rcases listExpiredCb_cases s now addr with
    ⟨s', heq, hheap, _, hallocated⟩ | ⟨it, heq⟩
  · rw [heq, State.life_congr hallocated (by rw [hheap]) (by rw [hheap])]
    exact .keep _
  · have hnodup : (s.timers.take it).Nodup :=
      h.nodup_timers.sublist (List.take_sublist ..)
    obtain ⟨hcbs, hcount, htimers⟩ := handOut_spec
      (s := { s with timers := s.timers.drop it, previousTime := now }) hnodup now
    obtain ⟨hkind, hcb⟩ := htimers id
    rw [heq, hcbs, Outcome.uses_expired hnodup]
    by_cases hmem : id ∈ s.timers.take it
    · have harmed := h.mem_iff.mp ((List.take_sublist ..).subset hmem)
      obtain ⟨f, hf⟩ := Option.isSome_iff_exists.mp harmed
      have hlt : id < s.allocated := h.allocated id harmed
      rw [if_pos hmem, h.life_armed hf]
      simp only [hf, hmem, true_and] at hcb ⊢
      unfold State.life
      rw [hcount, if_neg (Nat.not_le.mpr hlt), hkind, hcb]
      -- a recurring timer is armed again, any other is done
      cases (s.heap id).recurring with
      | true => exact .again f
      | false => exact .fire f
    · rw [if_neg hmem, State.life_congr hcount (by simpa [hmem] using hcb) hkind]
      exact .keep _

theorem TimersOk.life_reset {i : TimerId} {ms : UInt64} {fromNow : Bool} {now : UInt64}
    (h : TimersOk s) :
    (TimerManager.reset s i ms fromNow now).2.life id = s.life id := by
  rcases h.reset_cases ms fromNow now with hsame | ⟨_, next, hreset⟩
  · rw [hsame]
  · rw [hreset]
    obtain ⟨hheap, _, hallocated⟩ := addTimerLocked_fields
      (State.write { s with timers := s.timers.erase i } i
        { s.heap i with ms := ms, next := next }) i
    rw [State.life_congr hallocated (by rw [hheap]) (by rw [hheap])]
    exact State.life_reinsert rfl rfl

theorem TimersOk.call (h : TimersOk s) (hl : NonEmptyCb s l)
    (hcall : call s l = some (.ok (o, s'))) :
    Keeps s s' ∧ ∀ id, Life.Step (s.life id) (o.uses id) (s'.life id) := by
  cases l with
  | addTimer ms cb recurring now addr =>
    simp only [TimerManager.call] at hcall
    split_ifs at hcall with hused
    cases hcall
    push Not at hused
    exact ⟨h.addTimer hl hused, fun id => life_addTimer hl⟩
  | cancel i =>
    simp only [TimerManager.call, h.tracked.cancel_eq] at hcall
    split_ifs at hcall with hlt hcb
    · cases hcall
      exact ⟨h.cancel hcb, fun id => h.life_cancel hcb⟩
    · cases hcall
      exact ⟨⟨.refl, h.toRegistered⟩, fun id => .keep _⟩
  | refresh i now =>
    simp only [TimerManager.call] at hcall
    split_ifs at hcall
    cases hcall
    exact ⟨h.refresh, fun id => h.life_refresh ▸ .keep _⟩
  | reset i ms fromNow now =>
    simp only [TimerManager.call] at hcall
    split_ifs at hcall
    cases hcall
    exact ⟨h.reset, fun id => h.life_reset ▸ .keep _⟩
  | getNextTimer now =>
    simp only [TimerManager.call] at hcall
    cases hcall
    refine ⟨h.getNextTimer, fun id => ?_⟩
    rw [getNextTimer_state]
    exact .keep _
  | listExpiredCb now addr =>
    cases hcall
    exact ⟨h.listExpiredCb, fun id => h.life_listExpiredCb⟩

end Refinement

section Runs

variable {s t : State} {id : TimerId} {os : List Outcome}

theorem init_timersOk (now : UInt64) : TimersOk (State.init now) where
  armed_iff := by simp [State.init, Timer.probe]
  disjoint := by simp
  nodup := List.nodup_nil
  addr_inj := by simp [State.init, Timer.probe]
  allocated := by simp [State.init, Timer.probe]
  ordered := List.Pairwise.nil

theorem TimersOk.run {ls : List Label} (h : TimersOk s) (halong : system.Along NonEmptyCb s ls)
    (hrun : system.run s ls = some (os, t)) :
    TimersOk t ∧ ∀ id, Life.Run (s.life id) (os.flatMap (Outcome.uses id)) (t.life id) := by
  induction ls generalizing s os with
  | nil =>
    simp only [System.run_nil, Option.some.injEq, Prod.mk.injEq] at hrun
    obtain ⟨rfl, rfl⟩ := hrun
    exact ⟨h, fun id => .nil _⟩
  | cons l ls ih =>
    obtain ⟨o, s', os', hstep, hrest, rfl⟩ := system.run_cons_eq_some.mp hrun
    obtain ⟨r, hr, hopt⟩ := Option.bind_eq_some_iff.mp hstep
    cases r with
    | error f => cases hopt
    | ok x =>
      cases hopt
      obtain ⟨hkeeps, hlife⟩ := h.call halong.1 hr
      obtain ⟨ht, hlives⟩ := ih (h.of_keeps hkeeps) (halong.2 _ _ hstep) hrest
      exact ⟨ht, fun id => .cons (hlife id) (hlives id)⟩

/-- `m_timers` and the timers in it. -/
structure SetOk (s : State) : Prop where
  mem_iff : ∀ id, id ∈ s.timers ↔ (s.heap id).cb.isSome
  once : s.timers.Nodup
  sorted : s.timers.Pairwise (fun i j =>
    (s.heap i).next < (s.heap j).next ∨
      (s.heap i).next = (s.heap j).next ∧ (s.heap i).addr < (s.heap j).addr)
  find : ∀ id, (s.heap id).cb.isSome → ∃ it, s.find id = some it ∧ s.timers[it]? = some id

theorem TimersOk.setOk (h : TimersOk s) :
    SetOk s where
  mem_iff _ := h.mem_iff
  once := h.nodup_timers
  sorted := h.ordered.imp (fun hbefore => (comparator_some _ _).mp hbefore)
  find id hcb := by
    obtain ⟨it, hfind, hget, _⟩ := h.tracked.find_eq (h.mem_iff.mpr hcb)
    exact ⟨it, hfind, hget⟩

/-- What may be seen of a timer over a whole run. -/
structure UsedOk (us : List Use) (recurring : Bool) : Prop where
  cancelled_once : us.count .cancelled ≤ 1
  cancelled_last : ∀ us₁ us₂, us = us₁ ++ .cancelled :: us₂ → us₂ = []
  fired_once : recurring = false → us.length ≤ 1

theorem State.life_recurring (hid : id < s.allocated) :
    (s.life id).recurring = (s.heap id).recurring := by
  rw [State.life, if_neg (Nat.not_le.mpr hid)]
  cases (s.heap id).cb <;> rfl

/--
After any calls, at any times of the clock, with no empty callback given to `addTimer`:
the set holds exactly the timers with a callback, each once, sorted by `m_next` and
address, so that `find` succeeds for them and no call erases `end()`; the next call
assigns `m_next` only to timers outside the set; and of each timer at most one `cancel`
returned `true`, nothing was handed out after it, and if it is not recurring its callback
was handed out at most once.
-/
theorem timers_fire_at_most_once (now : UInt64) (ls : List Label)
    (halong : system.Along NonEmptyCb (State.init now) ls)
    (hrun : system.run (State.init now) ls = some (os, s)) :
    SetOk s ∧
      (∀ l f, call s l ≠ some (.error f)) ∧
      (∀ l o s', NonEmptyCb s l → call s l = some (.ok (o, s')) → Edits s s') ∧
      ∀ id < s.allocated, UsedOk (os.flatMap (Outcome.uses id)) (s.heap id).recurring := by
  obtain ⟨hs, hlives⟩ := (init_timersOk now).run halong hrun
  refine ⟨hs.setOk, hs.call_ne_error, ?_, ?_⟩
  · intro l o s' hl hcall
    exact (hs.call hl hcall).1.1
  · intro id hid
    have hlife := hlives id
    refine ⟨hlife.count_cancelled, hlife.nothing_after_cancel, ?_⟩
    intro hone
    rw [← State.life_recurring hid] at hone
    exact hlife.length_le_one hone

/--
A timer that fires once and a recurring one; the clock goes back by more than an hour,
and both are cancelled afterwards, one in vain.
-/
def clockGoesBack : List Label :=
  [.addTimer 10 (some 1) false 5000000 16,
    .addTimer 10 (some 2) true 5000000 32,
    .refresh 0 5000003,
    .reset 1 20 false 5000003,
    .listExpiredCb 5000012 48,
    .listExpiredCb 100 48,
    .cancel 0,
    .cancel 1]

theorem timers_fire_at_most_once_clock_goes_back :
    ∃ os s, system.run (State.init 5000000) clockGoesBack = some (os, s) ∧
      os.flatMap (Outcome.uses 0) = [.fired (some 1)] ∧
      os.flatMap (Outcome.uses 1) = [.fired (some 2), .cancelled] ∧
      SetOk s ∧
      UsedOk (os.flatMap (Outcome.uses 0)) false := by
  obtain ⟨halong, os, s, hrun, hid, hkind⟩ :=
    System.exists_run (M := system) (P := NonEmptyCb) (State.init 5000000) clockGoesBack
      (fun s => 0 < s.allocated ∧ (s.heap 0).recurring = false) (by decide +kernel)
  obtain ⟨hset, _, _, huses⟩ := timers_fire_at_most_once 5000000 clockGoesBack halong hrun
  have hshown : (system.run (State.init 5000000) clockGoesBack).map
      (fun r => (r.1.flatMap (Outcome.uses 0), r.1.flatMap (Outcome.uses 1))) =
        some ([.fired (some 1)], [.fired (some 2), .cancelled]) := by
    decide +kernel
  rw [hrun, Option.map_some, Option.some.injEq, Prod.mk.injEq] at hshown
  exact ⟨os, s, hrun, hshown.1, hshown.2, hset, hkind ▸ huses 0 hid⟩

end Runs

end TimerManager
end Civan
