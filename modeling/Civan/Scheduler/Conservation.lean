import Mathlib.Data.Finset.Card
import Civan.Lib.TicketQueue
import Civan.Scheduler.WellFormed

/-!
# No entry of the queue is lost

For the queue and for `m_activeThreadCount` a step of the scheduler is one of four
things: entries are pushed, a worker takes an entry, a worker releases the entry it
took, or neither changes.  A record of pushes and takes is kept beside the scheduler,
in which every accepted entry has its own ticket; it says where each entry went, and what
the worker that took it then had in `ft`.
-/

namespace Civan
namespace Scheduler

open Transition
open MachineInt
open TicketQueue (History)

section Scan

/-- An entry that the scan of a thread does not go past. -/
def FiberAndThread.eligible
    (self : ThreadId) (stateOf : TaskId → FiberState) (e : FiberAndThread) : Bool :=
  (decide (e.thread = -1) || decide (e.thread = self)) &&
    !e.fiber.any (fun f => stateOf f == .exec)

variable {fibers : List FiberAndThread}

/-- The scan takes the first eligible entry and leaves all others in place. -/
theorem takeEntry_eq {n : ℕ} (self : ThreadId) (stateOf : TaskId → FiberState)
    (h : QueueWellFormed n fibers) :
    ∃ tickleMe, takeEntry self stateOf fibers =
      some
        { taken := fibers.find? (FiberAndThread.eligible self stateOf)
          rest := fibers.eraseIdx (fibers.findIdx (FiberAndThread.eligible self stateOf))
          tickleMe := tickleMe } := by
  induction fibers with
  | nil => exact ⟨false, rfl⟩
  | cons e es ih =>
    have hnull := (h e List.mem_cons_self).nonNull
    obtain ⟨tickleMe, hrest⟩ := ih (fun e' he' => h e' (List.mem_cons_of_mem e he'))
    -- an entry that is skipped stays at the head of what is left
    have hskip : ∀ tickle, e.eligible self stateOf = false →
        ∃ b, (takeEntry self stateOf es).map (Scan.skip e tickle) =
          some
            { taken := (e :: es).find? (FiberAndThread.eligible self stateOf)
              rest := (e :: es).eraseIdx
                ((e :: es).findIdx (FiberAndThread.eligible self stateOf))
              tickleMe := b } := by
      intro tickle hnot
      refine ⟨tickle || tickleMe, ?_⟩
      rw [hrest]
      simp [Scan.skip, List.findIdx_cons, hnot]
    rw [takeEntry]
    split_ifs with hthread hnull' hexec
    · refine hskip true ?_
      simp [FiberAndThread.eligible, hthread]
    · simp [hnull] at hnull'
    · refine hskip false ?_
      simp only [FiberAndThread.eligible, hexec]
      simp
    · have heligible : e.eligible self stateOf = true := by
        simp only [FiberAndThread.eligible, Bool.and_eq_true, Bool.or_eq_true,
          decide_eq_true_eq, Bool.not_eq_true']
        refine ⟨?_, by simpa using hexec⟩
        by_contra hnot
        push Not at hnot
        exact hthread hnot
      exact ⟨false, by simp [List.findIdx_cons, heligible]⟩

/-- Splitting a list at the first element with a property. -/
theorem eraseIdx_findIdx {α : Type} {p : α → Bool} {xs : List α} {a : α}
    (hfind : xs.find? p = some a) :
    ∃ front back, xs = front ++ a :: back ∧ xs.eraseIdx (xs.findIdx p) = front ++ back ∧
      p a = true ∧ ∀ b ∈ front, p b = false := by
  obtain ⟨ha, front, back, rfl, hfront⟩ := List.find?_eq_some_iff_append.mp hfind
  have hnot : ∀ b ∈ front, p b = false := by
    intro b hb
    simpa using hfront b hb
  have hidx : (front ++ a :: back).findIdx p = front.length := by
    rw [List.findIdx_append, List.findIdx_eq_length_of_false hnot, if_neg (by omega),
      List.findIdx_cons, ha]
    simp
  refine ⟨front, back, rfl, ?_, ha, hnot⟩
  rw [hidx, List.eraseIdx_append_of_length_le (Nat.le_refl _)]
  simp

/-- The place of the first entry that thread `t` can take. -/
def State.place (s : State) (t : ThreadId) : ℕ :=
  s.fibers.findIdx (FiberAndThread.eligible t (fun f => (s.fiber (.task f)).state))

variable {s : State} {t : ThreadId} {r : Scan} {e : FiberAndThread}

theorem WellFormed.scan_eq (hwf : WellFormed s)
    (hscan : takeEntry t (fun f => (s.fiber (.task f)).state) s.fibers = some r) :
    r.taken = s.fibers.find?
        (FiberAndThread.eligible t (fun f => (s.fiber (.task f)).state)) ∧
      r.rest = s.fibers.eraseIdx (s.place t) := by
  obtain ⟨tickleMe, heq⟩ := takeEntry_eq t (fun f => (s.fiber (.task f)).state) hwf.queue
  rw [heq, Option.some.injEq] at hscan
  rw [← hscan]
  exact ⟨rfl, rfl⟩

theorem WellFormed.scan_none (hwf : WellFormed s)
    (hscan : takeEntry t (fun f => (s.fiber (.task f)).state) s.fibers = some r)
    (htaken : r.taken = none) :
    ∀ e ∈ s.fibers, ¬ e.eligible t (fun f => (s.fiber (.task f)).state) = true := by
  rw [(hwf.scan_eq hscan).1] at htaken
  exact List.find?_eq_none.mp htaken

theorem WellFormed.scan_split (hwf : WellFormed s)
    (hscan : takeEntry t (fun f => (s.fiber (.task f)).state) s.fibers = some r)
    (htaken : r.taken = some e) :
    ∃ front back, s.fibers = front ++ e :: back ∧ r.rest = front ++ back ∧
      e.eligible t (fun f => (s.fiber (.task f)).state) = true ∧
      ∀ e' ∈ front, e'.eligible t (fun f => (s.fiber (.task f)).state) = false := by
  obtain ⟨hfind, hrest⟩ := hwf.scan_eq hscan
  rw [htaken] at hfind
  rw [hrest]
  exact eraseIdx_findIdx hfind.symm

end Scan

section Effects

/-- What a step does to the queue and to who holds an entry. -/
inductive Effect where
  | none
  | push (es : List FiberAndThread)
  | take (thread : ThreadId) (place : ℕ)
  | release (thread : ThreadId)
deriving DecidableEq, Repr

/-- The entry that `scheduleNoLock` appends, unless it is null. -/
def accepted (fb : FiberOrCb) (thread : ThreadId) : List FiberAndThread :=
  [FiberAndThread.of fb thread].filter FiberAndThread.nonNull

/-- The effect of the next step of a worker's own code. -/
def State.workerEffect (s : State) (t : ThreadId) : Effect :=
  match (s.worker t).pc with
  | .scan => if s.place t < s.fibers.length then .take t (s.place t) else .none
  | .drop => .release t
  | .slice (.entry f) .requeue => .push (accepted (.fiber (some f)) (-1))
  | .slice (.callback f) .requeue => .push (accepted (.fiber (some f)) (-1))
  | .slice (.entry _) .release => .release t
  | .slice (.callback _) .release => .release t
  | _ => .none

/-- The effect of a step. -/
def State.effect (s : State) : Label → Effect
  | .schedule fb thread => .push (accepted fb thread)
  | .scheduleAll fbs => .push (fbs.flatMap (fun fb => accepted fb (-1)))
  | .advance t => s.workerEffect t
  | _ => .none

/-- The worker has taken an entry and not yet lowered `m_activeThreadCount`. -/
def Worker.holding (w : Worker) : Bool :=
  match w.pc with
  | .dispatch => w.isActive
  | .spawn | .drop => true
  | .slice (.entry _) stage | .slice (.callback _) stage =>
    stage.inside || decide (stage = .release)
  | _ => false

/-- The entry that the worker is busy with is `e`: it is in `ft`, or it was a callback, which
has been moved to a fiber of its own. -/
def Worker.Holds (w : Worker) (e : FiberAndThread) : Prop :=
  match w.pc with
  | .dispatch | .drop => w.ft = e
  | .spawn => w.ft = e ∧ e.cb.isSome
  | .slice (.entry f) _ => w.ft = e ∧ e.fiber = some f
  | .slice (.callback c) _ => w.cbFiber = some c ∧ e.cb.isSome
  | _ => False

/-- The workers that hold an entry. -/
def State.holders (s : State) : Finset ThreadId :=
  s.threadIds.toFinset.filter (fun t => (s.worker t).holding = true)

theorem scheduleNoLock_eq (fibers : List FiberAndThread) (fb : FiberOrCb) (thread : ThreadId) :
    (scheduleNoLock fibers fb thread).2 = fibers ++ accepted fb thread := by
  unfold scheduleNoLock accepted
  dsimp only
  split_ifs with hnull
  · simp [hnull]
  · simp [hnull]

theorem scheduleAllNoLock_eq (fibers : List FiberAndThread) (fbs : List FiberOrCb) :
    (scheduleAllNoLock fibers fbs).2 = fibers ++ fbs.flatMap (fun fb => accepted fb (-1)) := by
  induction fbs generalizing fibers with
  | nil => simp [scheduleAllNoLock]
  | cons fb fbs ih =>
    simp only [scheduleAllNoLock, ih, scheduleNoLock_eq, List.flatMap_cons, List.append_assoc]

variable {s s' : State} {t : ThreadId} {w : Worker}

/-- What `s'` is after the effect. -/
def Effect.Does (s : State) : Effect → State → Prop
  | .none, s' =>
    s'.fibers = s.fibers ∧ s'.activeThreadCount = s.activeThreadCount ∧ s'.holders = s.holders
  | .push es, s' =>
    s'.fibers = s.fibers ++ es ∧ s'.activeThreadCount = s.activeThreadCount ∧
      s'.holders = s.holders
  | .take t i, s' =>
    (∃ e, s.fibers[i]? = some e ∧ (s'.worker t).ft = e ∧ (s'.worker t).Holds e) ∧
      s'.fibers = s.fibers.eraseIdx i ∧
      s'.activeThreadCount = (s.activeThreadCount + 1) % 2 ^ 64 ∧
      t ∉ s.holders ∧ s'.holders = insert t s.holders
  | .release t, s' =>
    s'.fibers = s.fibers ∧ s'.activeThreadCount = sizeSub s.activeThreadCount 1 ∧
      t ∈ s.holders ∧ s'.holders = s.holders.erase t

/-- `is_active` is false until an entry is taken, and then `ft` is not empty. -/
structure Worker.ActiveOk (w : Worker) : Prop where
  scan : w.pc = .scan → w.isActive = false
  dispatch : w.pc = .dispatch → w.isActive = false → w.ft = .empty

theorem Worker.activeOk_of_ne (hscan : w.pc ≠ .scan) (hdispatch : w.pc ≠ .dispatch) :
    w.ActiveOk :=
  ⟨fun hpc => absurd hpc hscan, fun hpc => absurd hpc hdispatch⟩

theorem Worker.activeOk_start : Worker.start.ActiveOk :=
  Worker.activeOk_of_ne (by simp [start]) (by simp [start])

/-- Only the worker that moves can start or stop holding an entry. -/
theorem mem_holders_of_update (hworker : s'.worker = Function.update s.worker t w)
    (hids : s'.threadIds = s.threadIds) (u : ThreadId) :
    u ∈ s'.holders ↔ if u = t then u ∈ s.threadIds ∧ w.holding = true else u ∈ s.holders := by
  simp only [State.holders, Finset.mem_filter, List.mem_toFinset, hids, hworker]
  by_cases hu : u = t
  · simp [hu]
  · simp [hu]

theorem holders_eq_of_update (hworker : s'.worker = Function.update s.worker t w)
    (hids : s'.threadIds = s.threadIds) (hholding : w.holding = (s.worker t).holding) :
    s'.holders = s.holders := by
  ext u
  rw [mem_holders_of_update hworker hids]
  split_ifs with hu
  · subst hu
    rw [hholding, State.holders, Finset.mem_filter, List.mem_toFinset]
  · rfl

/-- An effect of the workers there are, with `is_active` in order after it.  Who goes on
holding an entry holds the same one. -/
structure Performs (s : State) (e : Effect) (s' : State) : Prop where
  does : e.Does s s'
  activeOk : ∀ t, (s'.worker t).ActiveOk
  ids : s'.threadIds = s.threadIds
  keeps : ∀ u ∈ s.holders, u ∈ s'.holders → ∀ e, (s.worker u).Holds e → (s'.worker u).Holds e

theorem keeps_of_update (hworker : s'.worker = Function.update s.worker t w)
    (hids : s'.threadIds = s.threadIds)
    (hself : t ∈ s.holders → w.holding = true → ∀ e, (s.worker t).Holds e → w.Holds e) :
    ∀ u ∈ s.holders, u ∈ s'.holders → ∀ e, (s.worker u).Holds e → (s'.worker u).Holds e := by
  intro u hu hu' e he
  rw [mem_holders_of_update hworker hids] at hu'
  rw [hworker]
  by_cases hut : u = t
  · subst hut
    rw [if_pos rfl] at hu'
    rw [Function.update_self]
    exact hself hu hu'.2 e he
  · rw [Function.update_of_ne hut]
    exact he

theorem activeOk_of_update (hok : ∀ u, (s.worker u).ActiveOk)
    (hworker : s'.worker = Function.update s.worker t w) (hw : w.ActiveOk) (u : ThreadId) :
    (s'.worker u).ActiveOk := by
  rw [hworker]
  by_cases hu : u = t
  · rw [hu, Function.update_self]
    exact hw
  · rw [Function.update_of_ne hu]
    exact hok u

theorem Performs.stay (hok : ∀ u, (s.worker u).ActiveOk)
    (hworker : s'.worker = Function.update s.worker t w) (hids : s'.threadIds = s.threadIds)
    (hfibers : s'.fibers = s.fibers) (hactive : s'.activeThreadCount = s.activeThreadCount)
    (hholding : w.holding = (s.worker t).holding)
    (hholds : w.holding = true → ∀ e, (s.worker t).Holds e → w.Holds e) (hw : w.ActiveOk) :
    Performs s .none s' :=
  ⟨⟨hfibers, hactive, holders_eq_of_update hworker hids hholding⟩,
    activeOk_of_update hok hworker hw, hids, keeps_of_update hworker hids fun _ => hholds⟩

theorem Performs.take {i : ℕ} {e : FiberAndThread} (hok : ∀ u, (s.worker u).ActiveOk)
    (ht : t ∈ s.threadIds) (hi : s.fibers[i]? = some e)
    (hworker : s'.worker = Function.update s.worker t w) (hids : s'.threadIds = s.threadIds)
    (hfibers : s'.fibers = s.fibers.eraseIdx i)
    (hactive : s'.activeThreadCount = (s.activeThreadCount + 1) % 2 ^ 64)
    (hbefore : (s.worker t).holding = false) (hafter : w.holding = true)
    (hholds : w.ft = e ∧ w.Holds e) (hw : w.ActiveOk) :
    Performs s (.take t i) s' := by
  have hnot : t ∉ s.holders := by simp [State.holders, hbefore]
  refine ⟨⟨⟨e, hi, ?_⟩, hfibers, hactive, hnot, ?_⟩, activeOk_of_update hok hworker hw, hids,
    keeps_of_update hworker hids fun hmem => absurd hmem hnot⟩
  · rw [hworker, Function.update_self]
    exact hholds
  · ext u
    rw [mem_holders_of_update hworker hids, Finset.mem_insert]
    split_ifs with hu
    · simp [hu, ht, hafter]
    · simp [hu]

theorem Performs.release (hok : ∀ u, (s.worker u).ActiveOk) (ht : t ∈ s.threadIds)
    (hworker : s'.worker = Function.update s.worker t w) (hids : s'.threadIds = s.threadIds)
    (hfibers : s'.fibers = s.fibers)
    (hactive : s'.activeThreadCount = sizeSub s.activeThreadCount 1)
    (hbefore : (s.worker t).holding = true) (hafter : w.holding = false) (hw : w.ActiveOk) :
    Performs s (.release t) s' := by
  refine ⟨⟨hfibers, hactive, ?_, ?_⟩, activeOk_of_update hok hworker hw, hids,
    keeps_of_update hworker hids fun _ hholding => absurd hholding (by simp [hafter])⟩
  · rw [State.holders, Finset.mem_filter, List.mem_toFinset]
    exact ⟨ht, hbefore⟩
  · ext u
    rw [mem_holders_of_update hworker hids, Finset.mem_erase]
    split_ifs with hu
    · simp [hu, hafter]
    · simp [hu]

/-- A worker in a slice holds an entry until it has lowered the counter. -/
theorem Worker.holding_slice {site : Site} {stage : Stage} (hpc : w.pc = .slice site stage) :
    w.holding = (decide (site ≠ .idle) && (stage.inside || decide (stage = .release))) := by
  cases site <;> simp [Worker.holding, hpc]

/-- Within a slice the entry is the same at every stage. -/
theorem Worker.holds_slice {w' : Worker} {site : Site} {stage stage' : Stage} {e : FiberAndThread}
    (hpc : w.pc = .slice site stage) (hw' : w' = { w with pc := .slice site stage' })
    (he : w.Holds e) :
    w'.Holds e := by
  subst hw'
  cases site with
  | entry f | callback f =>
    simp only [Worker.Holds, hpc] at he ⊢
    exact he
  | idle => simp [Worker.Holds, hpc] at he

theorem Worker.holding_endSite (w : Worker) (site : Site) :
    (w.endSite site).holding = false := by
  cases site <;> rfl

theorem Worker.activeOk_endSite (w : Worker) (site : Site) : (w.endSite site).ActiveOk := by
  cases site <;> exact Worker.activeOk_of_ne (by simp [endSite]) (by simp [endSite])

end Effects

section Steps

variable {s s' : State} {t : ThreadId} {o : Event}

theorem workerEffect_slice {site : Site} {stage : Stage}
    (hpc : (s.worker t).pc = .slice site stage)
    (hrelease : stage ≠ .release) (hrequeue : stage ≠ .requeue) :
    s.workerEffect t = .none := by
  cases site <;> cases stage <;> simp_all [State.workerEffect]

theorem workerEffect_idle {stage : Stage} (hpc : (s.worker t).pc = .slice .idle stage) :
    s.workerEffect t = .none := by
  cases stage <;> simp [State.workerEffect, hpc]

theorem workerEffect_release {site : Site}
    (hpc : (s.worker t).pc = .slice site .release) (hsite : site ≠ .idle) :
    s.workerEffect t = .release t := by
  cases site with
  | idle => exact absurd rfl hsite
  | entry f => simp [State.workerEffect, hpc]
  | callback f => simp [State.workerEffect, hpc]

theorem workerEffect_requeue {site : Site} {f : TaskId}
    (hpc : (s.worker t).pc = .slice site .requeue)
    (hsite : site = .entry f ∨ site = .callback f) :
    s.workerEffect t = .push (accepted (.fiber (some f)) (-1)) := by
  rcases hsite with rfl | rfl
  · simp [State.workerEffect, hpc]
  · simp [State.workerEffect, hpc]

/-- Within `run` only the code after a slice pushes an entry. -/
theorem workerEffect_push {es : List FiberAndThread} (hpush : s.workerEffect t = .push es) :
    ∃ site f, (s.worker t).pc = .slice site .requeue ∧ site.fiber t = .task f ∧
      es = accepted (.fiber (some f)) (-1) := by
  simp only [State.workerEffect] at hpush
  split at hpush
  · split_ifs at hpush
  · cases hpush
  · rename_i f hpc
    cases hpush
    exact ⟨_, f, hpc, rfl, rfl⟩
  · rename_i f hpc
    cases hpush
    exact ⟨_, f, hpc, rfl, rfl⟩
  all_goals cases hpush

theorem performs_slice {site : Site} {stage : Stage} (hok : ∀ u, (s.worker u).ActiveOk)
    (ht : t ∈ s.threadIds) (hpc : (s.worker t).pc = .slice site stage)
    (hslice : SliceStep s t site stage o s') :
    Performs s (s.workerEffect t) s' := by
  have hbefore := Worker.holding_slice hpc
  -- a stage that moves on within the slice, before or after the counter was lowered
  have hgo : ∀ {s₁ : State} (stage' : Stage),
      s₁.worker = Function.update s.worker t { s.worker t with pc := .slice site stage' } →
      s₁.threadIds = s.threadIds → s₁.fibers = s.fibers →
      s₁.activeThreadCount = s.activeThreadCount →
      (site = .idle ∨ (stage'.inside || decide (stage' = .release)) =
        (stage.inside || decide (stage = .release))) →
      Performs s .none s₁ := by
    intro s₁ stage' hworker hids hfibers hactive hsame
    refine Performs.stay hok hworker hids hfibers hactive ?_
      (fun _ _ => Worker.holds_slice hpc rfl) (Worker.activeOk_of_ne (by simp) (by simp))
    rw [hbefore]
    refine (Worker.holding_slice rfl).trans ?_
    rcases hsame with rfl | hsame
    · simp
    · rw [hsame]
  have hleave : ∀ {s₁ : State},
      s₁.worker = Function.update s.worker t ((s.worker t).endSite site) →
      s₁.threadIds = s.threadIds → s₁.fibers = s.fibers →
      s₁.activeThreadCount = s.activeThreadCount →
      (stage.inside || decide (stage = .release)) = false →
      Performs s .none s₁ := by
    intro s₁ hworker hids hfibers hactive hdone
    refine Performs.stay hok hworker hids hfibers hactive ?_ ?_ (Worker.activeOk_endSite _ _)
    · rw [Worker.holding_endSite, hbefore, hdone, Bool.and_false]
    · simp [Worker.holding_endSite]
  cases hslice with
  | failsNotExec | failsNeverGetHere =>
    rw [workerEffect_slice hpc (by simp) (by simp)]
    exact ⟨⟨rfl, rfl, rfl⟩, hok, rfl, fun _ _ _ _ => id⟩
  | assertNotExec | setExec | restore | save | switch | testReady | testNotReady
  | testNotDone =>
    rw [workerEffect_slice hpc (by simp) (by simp)]
    exact hgo _ rfl rfl rfl rfl (Or.inr rfl)
  | testDone | setHold =>
    rw [workerEffect_slice hpc (by simp) (by simp)]
    exact hleave rfl rfl rfl rfl rfl
  | wakes hsite =>
    rw [workerEffect_idle (hsite ▸ hpc)]
    exact hgo .testDone rfl rfl rfl rfl (Or.inl hsite)
  | release hsite =>
    rw [workerEffect_release hpc hsite]
    refine Performs.release hok ht rfl rfl rfl rfl ?_ ?_
      (Worker.activeOk_of_ne (by simp) (by simp))
    · simp [hbefore, hsite]
    · exact (Worker.holding_slice rfl).trans (by simp [Stage.inside])
  | requeue f hsite =>
    rw [workerEffect_requeue hpc hsite]
    refine ⟨⟨scheduleNoLock_eq s.fibers (.fiber (some f)) (-1), rfl, ?_⟩,
      activeOk_of_update hok rfl (Worker.activeOk_endSite _ _), rfl,
      keeps_of_update rfl rfl (by simp [Worker.holding_endSite])⟩
    refine holders_eq_of_update rfl rfl ?_
    rw [Worker.holding_endSite, hbefore]
    simp [Stage.inside]

theorem performs_finds {r : Scan} {e : FiberAndThread} (hwf : WellFormed s)
    (hok : ∀ u, (s.worker u).ActiveOk) (ht : t ∈ s.threadIds) (hpc : (s.worker t).pc = .scan)
    (hscan : takeEntry t (fun f => (s.fiber (.task f)).state) s.fibers = some r)
    (htaken : r.taken = some e) :
    Performs s (s.workerEffect t)
      ({ s.acquire with fibers := r.rest }.setWorker t
        { s.worker t with pc := .dispatch, ft := e, isActive := true }) := by
  obtain ⟨hfind, hrest⟩ := hwf.scan_eq hscan
  rw [htaken] at hfind
  have hplace : s.place t < s.fibers.length := by
    rw [State.place, List.findIdx_lt_length]
    exact ⟨e, List.mem_of_find?_eq_some hfind.symm, List.find?_some hfind.symm⟩
  have hget : s.fibers[s.place t]? = some e := by
    rw [hfind, State.place, List.find?_eq_getElem?_findIdx]
  have hbefore : (s.worker t).holding = false := by simp [Worker.holding, hpc]
  simp only [State.workerEffect, hpc, if_pos hplace]
  exact Performs.take hok ht hget rfl rfl hrest rfl hbefore rfl ⟨rfl, rfl⟩ ⟨by simp, by simp⟩

theorem performs_findsNone {r : Scan} (hwf : WellFormed s) (hok : ∀ u, (s.worker u).ActiveOk)
    (hpc : (s.worker t).pc = .scan)
    (hscan : takeEntry t (fun f => (s.fiber (.task f)).state) s.fibers = some r)
    (htaken : r.taken = none) :
    Performs s (s.workerEffect t) (s.setWorker t { s.worker t with pc := .dispatch }) := by
  have hplace : ¬ s.place t < s.fibers.length := by
    rw [State.place, List.findIdx_lt_length]
    rintro ⟨e, he, heligible⟩
    exact hwf.scan_none hscan htaken e he heligible
  simp only [State.workerEffect, hpc, if_neg hplace]
  refine Performs.stay hok rfl rfl rfl rfl ?_ (by simp [Worker.Holds, hpc])
    ⟨by simp, fun _ _ => (hwf.worker t).scan_empty hpc⟩
  simp [Worker.holding, hpc, (hok t).scan hpc]

/-- The branches on what was taken keep hold of it, if anything was taken. -/
theorem holding_dispatch {w : Worker} (hok : w.ActiveOk) (hpc : w.pc = .dispatch) :
    Worker.holding { w with pc := dispatch s w } = w.holding := by
  have hbefore : w.holding = w.isActive := by simp [Worker.holding, hpc]
  rw [hbefore]
  cases hactive : w.isActive with
  | false =>
    have hempty := hok.dispatch hpc hactive
    simp [dispatch, hempty, FiberAndThread.empty, hactive, Worker.holding]
  | true =>
    unfold dispatch
    dsimp only
    simp only [hactive, if_true]
    split
    · split_ifs <;> rfl
    · split_ifs <;> rfl

theorem holds_dispatch {w : Worker} {e : FiberAndThread} (hpc : w.pc = .dispatch)
    (hholding : Worker.holding { w with pc := dispatch s w } = true) (he : w.Holds e) :
    Worker.Holds { w with pc := dispatch s w } e := by
  simp only [Worker.Holds, hpc] at he
  subst he
  rcases dispatch_cases s w with ⟨f, hf, _, hd⟩ | ⟨hcb, hd⟩ | hd | hd
  · simp only [Worker.Holds, hd, hf, and_self]
  · simp only [Worker.Holds, hd, hcb, and_self]
  · simp only [Worker.Holds, hd]
  · simp [Worker.holding, hd] at hholding

theorem performs_advance (hwf : WellFormed s) (hok : ∀ u, (s.worker u).ActiveOk)
    (ht : t ∈ s.threadIds) (hworker : WorkerStep s t o s') :
    Performs s (s.workerEffect t) s' := by
  cases hworker with
  | failsEntryNonNull _ hscan => exact absurd hscan hwf.takeEntry_ne_none
  | finds hpc hscan htaken => exact performs_finds hwf hok ht hpc hscan htaken
  | findsNone hpc hscan htaken => exact performs_findsNone hwf hok hpc hscan htaken
  | dispatch hpc =>
    have hnone : s.workerEffect t = .none := by simp [State.workerEffect, hpc]
    rw [hnone]
    refine Performs.stay hok rfl rfl rfl rfl (holding_dispatch (hok t) hpc)
      (fun hholding _ => holds_dispatch hpc hholding) ?_
    rcases dispatch_cases s (s.worker t) with ⟨f, _, _, hd⟩ | ⟨_, hd⟩ | hd | hd <;>
      exact Worker.activeOk_of_ne (by simp [hd]) (by simp [hd])
  | spawn hpc =>
    have hnone : s.workerEffect t = .none := by simp [State.workerEffect, hpc]
    rw [hnone, hwf.spawn_eq hpc]
    refine Performs.stay hok rfl rfl rfl rfl ?_ ?_ (Worker.activeOk_of_ne (by simp) (by simp))
    · simp [Worker.holding, hpc, Stage.inside]
    · intro _ e he
      simp only [Worker.Holds, hpc] at he
      exact ⟨rfl, he.2⟩
  | drop hpc =>
    simp only [State.workerEffect, hpc]
    refine Performs.release hok ht rfl rfl rfl rfl ?_ ?_
      (Worker.activeOk_of_ne (by simp) (by simp))
    · simp [Worker.holding, hpc]
    · simp [Worker.holding]
  | exit hpc | idleTest hpc | idleEnter hpc =>
    have hnone : s.workerEffect t = .none := by simp [State.workerEffect, hpc]
    rw [hnone]
    exact Performs.stay hok rfl rfl rfl rfl (by simp [Worker.holding, hpc])
      (by simp [Worker.Holds, hpc]) (Worker.activeOk_of_ne (by simp) (by simp))
  | slice hpc hslice => exact performs_slice hok ht hpc hslice

/-- Every step has the effect it is said to have. -/
theorem performs_step {l : Label} (hwf : WellFormed s) (hok : ∀ u, (s.worker u).ActiveOk)
    (hstep : step s l = some (o, s')) :
    Performs s (s.effect l) s' := by
  cases processStep_of_step hstep with
  | newFiber | setAutoStops | setStopping => exact ⟨⟨rfl, rfl, rfl⟩, hok, rfl, fun _ _ _ _ => id⟩
  | schedule => exact ⟨⟨scheduleNoLock_eq s.fibers _ _, rfl, rfl⟩, hok, rfl, fun _ _ _ _ => id⟩
  | scheduleAll =>
    exact ⟨⟨scheduleAllNoLock_eq s.fibers _, rfl, rfl⟩, hok, rfl, fun _ _ _ _ => id⟩
  | leaves _ hpc =>
    exact Performs.stay hok rfl rfl rfl rfl (by simp [Worker.holding, hpc])
      (by simp [Worker.Holds, hpc]) (Worker.activeOk_of_ne (by simp) (by simp))
  | loops _ hpc =>
    exact Performs.stay hok rfl rfl rfl rfl (by simp [Worker.holding, hpc])
      (by simp [Worker.Holds, hpc]) ⟨fun _ => rfl, by simp⟩
  | advance ht hworker => exact performs_advance hwf hok ht hworker
  | @endSlice _ site how _ hpc =>
    refine Performs.stay hok rfl rfl rfl rfl ?_ (fun _ _ => Worker.holds_slice hpc rfl)
      (Worker.activeOk_of_ne (by simp) (by simp))
    rw [Worker.holding_slice hpc]
    cases site <;> rfl

end Steps

section Conservation

/-- The record of the entries; of a take, the worker and what it then has in `ft`. -/
abbrev Tickets := History FiberAndThread (ThreadId × FiberAndThread)

/-- The record after an effect that has led to the state `s'`. -/
def record (h : Tickets) (s' : State) : Effect → Tickets
  | .push es => h.push es
  | .take t i => h.take i (t, (s'.worker t).ft)
  | _ => h

/-- The scheduler with a record of the entries of its queue. -/
def recorded : System (State × Tickets) Label Event where
  step x l := (step x.1 l).map (fun r => (r.1, (r.2, record x.2 r.2 (x.1.effect l))))

/-- Who may take an entry. -/
def FiberAndThread.isFor (e : FiberAndThread) (t : ThreadId) : Prop :=
  e.thread = -1 ∨ e.thread = t

/-- The record, the queue, the workers and the counter agree: an entry went to a worker it is
for, which got that entry, and who holds an entry is busy with the one it took last. -/
structure Conserved (s : State) (h : Tickets) : Prop where
  record : h.Ok
  queue : h.Shows s.fibers
  taken : History.TakenBy (fun e x => e.isFor x.1 ∧ x.2 = e) h
  held : ∀ t ∈ s.holders, ∃ k e, h.last (fun x => x.1 = t) = some (k, (t, e)) ∧
    (s.worker t).Holds e
  active : s.activeThreadCount = s.holders.card

/-- What one step relies on. -/
structure Conserving (s : State) (h : Tickets) : Prop
    extends Conserved s h where
  wellFormed : WellFormed s
  activeOk : ∀ t, (s.worker t).ActiveOk
  fits : s.threadIds.toFinset.card < 2 ^ 64

variable {s s' : State} {h : Tickets} {t : ThreadId} {o : Event} {l : Label}

/-- The place found by the scan is that of the first eligible entry. -/
theorem eligible_place {e : FiberAndThread} (he : s.fibers[s.place t]? = some e) :
    e.eligible t (fun f => (s.fiber (.task f)).state) = true := by
  obtain ⟨hplace, rfl⟩ := List.getElem?_eq_some_iff.mp he
  exact List.findIdx_getElem

theorem FiberAndThread.isFor_of_eligible {e : FiberAndThread} {stateOf : TaskId → FiberState}
    (he : e.eligible t stateOf = true) :
    e.isFor t := by
  simp only [FiberAndThread.eligible, Bool.and_eq_true, Bool.or_eq_true, decide_eq_true_eq] at he
  exact he.1

theorem effect_take {i : ℕ} (heffect : s.effect l = .take t i) :
    l = .advance t ∧ (s.worker t).pc = .scan ∧ i = s.place t := by
  cases l with
  | advance u =>
    simp only [State.effect, State.workerEffect] at heffect
    split at heffect <;> try cases heffect
    rename_i hpc
    split_ifs at heffect
    cases heffect
    exact ⟨rfl, hpc, rfl⟩
  | newFiber | schedule | scheduleAll | setAutoStops | setStopping | testStopping | endSlice =>
    cases heffect

/-- After a take the worker is busy with its new entry, and the others with theirs. -/
theorem held_take {i : ℕ} {e : FiberAndThread} (hqueue : h.Shows s.fibers)
    (hi : i < s.fibers.length) (hft : (s'.worker t).ft = e) (hholds : (s'.worker t).Holds e)
    (hothers : ∀ u ∈ s'.holders, u ≠ t →
      ∃ k e, h.last (fun x => x.1 = u) = some (k, (u, e)) ∧ (s'.worker u).Holds e) :
    ∀ u ∈ s'.holders, ∃ k e,
      (h.take i (t, (s'.worker t).ft)).last (fun x => x.1 = u) = some (k, (u, e)) ∧
        (s'.worker u).Holds e := by
  intro u hu
  obtain ⟨k, hlast⟩ := History.last_take hqueue (t := (t, (s'.worker t).ft)) hi fun x => x.1 = u
  by_cases hut : u = t
  · subst hut
    refine ⟨k, e, ?_, hholds⟩
    rw [hlast, hft]
    simp
  · obtain ⟨k', e', hlast', he'⟩ := hothers u hu hut
    refine ⟨k', e', ?_, he'⟩
    rw [hlast, hlast']
    simp [Ne.symm hut]

theorem Conserving.step (hc : Conserving s h) (hstep : step s l = some (o, s')) :
    Conserving s' (Scheduler.record h s' (s.effect l)) := by
  obtain ⟨hdoes, hok, hids, hkeeps⟩ := performs_step hc.wellFormed hc.activeOk hstep
  -- who held an entry before holds the same one
  have hheld : ∀ u ∈ s.holders, u ∈ s'.holders →
      ∃ k e, h.last (fun x => x.1 = u) = some (k, (u, e)) ∧ (s'.worker u).Holds e := by
    intro u hu hu'
    obtain ⟨k, e, hlast, he⟩ := hc.held u hu
    exact ⟨k, e, hlast, hkeeps u hu hu' e he⟩
  have hbooks : Conserved s' (Scheduler.record h s' (s.effect l)) := by
    cases heffect : s.effect l with
    | none =>
      rw [heffect] at hdoes
      obtain ⟨hfibers, hactive, hholders⟩ := hdoes
      refine ⟨hc.record, ?_, hc.taken, fun u hu => hheld u (hholders ▸ hu) hu, ?_⟩
      · rw [hfibers]
        exact hc.queue
      · rw [hactive, hholders]
        exact hc.active
    | push es =>
      rw [heffect] at hdoes
      obtain ⟨hfibers, hactive, hholders⟩ := hdoes
      refine ⟨hc.record.push es, ?_, hc.taken.push es,
        fun u hu => hheld u (hholders ▸ hu) hu, ?_⟩
      · rw [hfibers]
        exact hc.queue.push hc.record es
      · rw [hactive, hholders]
        exact hc.active
    | take t i =>
      rw [heffect] at hdoes
      obtain ⟨⟨e, he, hft, hholds⟩, hfibers, hactive, hnot, hholders⟩ := hdoes
      obtain ⟨_, _, rfl⟩ := effect_take heffect
      have hi := (List.getElem?_eq_some_iff.mp he).1
      have heligible := eligible_place he
      have hcard : s'.holders.card = s.holders.card + 1 := by
        rw [hholders, Finset.card_insert_of_notMem hnot]
      have hle : s'.holders.card ≤ s.threadIds.toFinset.card := by
        rw [← hids]
        exact Finset.card_filter_le _ _
      refine ⟨hc.record.take _ _, ?_,
        hc.taken.take hc.queue he ⟨FiberAndThread.isFor_of_eligible heligible, hft⟩, ?_, ?_⟩
      · rw [hfibers]
        exact hc.queue.take hi _
      · refine held_take hc.queue hi hft hholds fun u hu hut => hheld u ?_ hu
        exact (Finset.mem_insert.mp (hholders ▸ hu)).resolve_left hut
      · have hfits := hc.fits
        rw [hactive, hc.active, ← hcard, Nat.mod_eq_of_lt (by omega)]
    | release t =>
      rw [heffect] at hdoes
      obtain ⟨hfibers, hactive, hmem, hholders⟩ := hdoes
      refine ⟨hc.record, ?_, hc.taken,
        fun u hu => hheld u (Finset.mem_of_mem_erase (hholders ▸ hu)) hu, ?_⟩
      · rw [hfibers]
        exact hc.queue
      · have hpos : 0 < s.holders.card := Finset.card_pos.mpr ⟨t, hmem⟩
        rw [hactive, hc.active, hholders, Finset.card_erase_of_mem hmem,
          sizeSub_of_le (by omega)]
  exact ⟨hbooks, hc.wellFormed.step hstep, hok, by rw [hids]; exact hc.fits⟩

theorem started_conserving {threadIds : List ThreadId}
    (hfits : threadIds.toFinset.card < 2 ^ 64) :
    Conserving (State.started threadIds) History.empty where
  record := History.empty_ok
  queue := History.empty_shows
  taken := History.empty_takenBy
  held := by
    simp [State.started, State.holders, Worker.start, Worker.holding]
  active := by
    simp [State.started, State.holders, Worker.start, Worker.holding]
  wellFormed := started_wellFormed threadIds
  activeOk _ := Worker.activeOk_start
  fits := hfits

/-- Thread numbers are of type `int`, so there are fewer than `2 ^ 64` of them. -/
theorem card_threadIds_lt {threadIds : List ThreadId}
    (hint : ∀ t ∈ threadIds, -2 ^ 31 ≤ t ∧ t < 2 ^ 31) :
    threadIds.toFinset.card < 2 ^ 64 := by
  have hsub : threadIds.toFinset ⊆ Finset.Ico (-2 ^ 31 : ℤ) (2 ^ 31) := by
    intro t ht
    exact Finset.mem_Ico.mpr (hint t (List.mem_toFinset.mp ht))
  have hcard := Finset.card_le_card hsub
  rw [Int.card_Ico] at hcard
  omega

theorem reachable_conserving {threadIds : List ThreadId}
    (hint : ∀ t ∈ threadIds, -2 ^ 31 ≤ t ∧ t < 2 ^ 31)
    (hreach : recorded.Reachable (State.started threadIds, History.empty) (s, h)) :
    Conserving s h := by
  refine System.Reachable.invariant (I := fun x => Conserving x.1 x.2) ?_
    (started_conserving (card_threadIds_lt hint)) hreach
  rintro ⟨s₁, h₁⟩ l o ⟨s₂, h₂⟩ hc hstep
  obtain ⟨⟨o', s'⟩, hs, heq⟩ := Option.map_eq_some_iff.mp hstep
  rw [Prod.mk.injEq, Prod.mk.injEq] at heq
  obtain ⟨_, rfl, rfl⟩ := heq
  exact hc.step hs

/-- The entry that a scan takes is the first that its thread can take, and the worker has it. -/
theorem scanned_first {e : FiberAndThread} {b : Bool} (hwf : WellFormed s)
    (hstep : step s l = some (.scanned t (some e) b, s')) :
    ((s'.worker t).ft = e ∧ (s'.worker t).holding = true) ∧
    ∃ front back, s.fibers = front ++ e :: back ∧ s'.fibers = front ++ back ∧
      e.eligible t (fun f => (s.fiber (.task f)).state) = true ∧
      ∀ e' ∈ front, e'.eligible t (fun f => (s.fiber (.task f)).state) = false := by
  cases processStep_of_step hstep with
  | advance _ hworker =>
    cases hworker with
    | finds _ hscan htaken =>
      refine ⟨?_, hwf.scan_split hscan htaken⟩
      simp [State.setWorker, Worker.holding]
    | slice _ hslice => cases hslice

/--
For any number of workers and every interleaving: every accepted entry is once in the
queue or was taken once, by one worker, which then had this entry in `ft` and is busy with
it until it lowers the counter; an entry for a thread is taken by that thread only; the
next scan that takes an entry takes the first one its worker can take; and
`m_activeThreadCount` is the number of workers that hold an entry, so it is positive
whenever one of them is about to lower it and `0` when none holds an entry.
-/
theorem queue_conservation (threadIds : List ThreadId)
    (hint : ∀ t ∈ threadIds, -2 ^ 31 ≤ t ∧ t < 2 ^ 31)
    (hreach : recorded.Reachable (State.started threadIds, History.empty) (s, h)) :
    Conserved s h ∧
      (∀ l t e b s', step s l = some (.scanned t (some e) b, s') →
        ((s'.worker t).ft = e ∧ (s'.worker t).holding = true) ∧
        ∃ front back, s.fibers = front ++ e :: back ∧ s'.fibers = front ++ back ∧
          e.eligible t (fun f => (s.fiber (.task f)).state) = true ∧
          ∀ e' ∈ front, e'.eligible t (fun f => (s.fiber (.task f)).state) = false) ∧
      (∀ t ∈ s.threadIds, (s.worker t).holding = true → 0 < s.activeThreadCount) ∧
      ((∀ t ∈ s.threadIds, (s.worker t).holding = false) → s.activeThreadCount = 0) := by
  have hc := reachable_conserving hint hreach
  refine ⟨hc.toConserved, ?_, ?_, ?_⟩
  · intro l t e b s' hstep
    exact scanned_first hc.wellFormed hstep
  · intro t ht hholding
    rw [hc.active]
    refine Finset.card_pos.mpr ⟨t, ?_⟩
    simp [State.holders, ht, hholding]
  · intro hnone
    rw [hc.active, Finset.card_eq_zero]
    refine Finset.filter_eq_empty_iff.mpr ?_
    intro t ht
    simp [hnone t (List.mem_toFinset.mp ht)]

/--
Two callbacks for any thread and one for thread 2 are queued; thread 2 takes the first
entry, and thread 1 goes past the one for thread 2.
-/
def twoWorkersTake : List Label :=
  [.scheduleAll [.cb (some 7)], .schedule (.cb (some 8)) 2, .schedule (.cb (some 9)) (-1),
    .testStopping 2 true, .advance 2, .testStopping 1 true, .advance 1]

theorem queue_conservation_two_workers :
    ∃ s h, recorded.Reachable (State.started [1, 2], History.empty) (s, h) ∧
      h.taken = [(2, 1, ⟨none, some 9, -1⟩), (0, 2, ⟨none, some 7, -1⟩)] ∧
      s.fibers = [{ fiber := none, cb := some 8, thread := 2 }] ∧
      s.activeThreadCount = 2 ∧
      Conserved s h := by
  obtain ⟨⟨s, h⟩, hreach, htaken, hfibers, hactive⟩ :=
    System.exists_reachableWhen (M := recorded) (P := fun _ _ => True)
      (State.started [1, 2], History.empty) twoWorkersTake
      (fun x => x.2.taken = [(2, 1, ⟨none, some 9, -1⟩), (0, 2, ⟨none, some 7, -1⟩)] ∧
        x.1.fibers = [{ fiber := none, cb := some 8, thread := 2 }] ∧
        x.1.activeThreadCount = 2)
      (by decide +kernel)
  refine ⟨s, h, hreach.reachable, htaken, hfibers, hactive, ?_⟩
  exact (queue_conservation [1, 2] (by decide) hreach.reachable).1

end Conservation

end Scheduler
end Civan
