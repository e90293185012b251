import Civan.Scheduler.Affinity
import Civan.Scheduler.FiberExclusion
import Civan.Scheduler.Stopping
import Civan.Scheduler.WakeUp

/-!
# What the callers have to keep to

The conditions under which the workers exclude each other, keep to a thread, stop and wake
up are about steps of the workers.  Here they follow from what the callers do.  A fiber is
scheduled only after a worker has left it; no fiber yields as `READY`; the tasks of a
single worker schedule everything themselves.
-/

namespace Civan
namespace Scheduler

open Transition

section Ready

variable {s s' : State} {l : Label} {o : Event} {t : ThreadId} {f : TaskId}

/-- No fiber calls `YieldToReady()`. -/
def NeverReady (_ : State) (l : Label) : Prop :=
  ∀ t, l ≠ .endSlice t .yieldToReady

/-- No fiber is `READY`, and no worker puts one back. -/
structure Unready (s : State) : Prop where
  state : ∀ f, (s.fiber f).state ≠ .ready
  worker : ∀ t site, (s.worker t).pc ≠ .slice site .requeue

theorem Unready.update {w : Worker} (h : Unready s)
    (hstate : ∀ f, (s'.fiber f).state = (s.fiber f).state ∨ (s'.fiber f).state ≠ .ready)
    (hworker : s'.worker = Function.update s.worker t w)
    (hw : ∀ site, w.pc ≠ .slice site .requeue) :
    Unready s' := by
  constructor
  · intro f
    rcases hstate f with hsame | hnot
    · rw [hsame]
      exact h.state f
    · exact hnot
  · intro u site
    rw [hworker]
    by_cases hu : u = t
    · rw [hu, Function.update_self]
      exact hw site
    · rw [Function.update_of_ne hu]
      exact h.worker u site

theorem state_setFiber (g : FiberRef) {x : Fiber} (hx : x.state ≠ .ready) (f : FiberRef) :
    ((s.setFiber g x).fiber f).state = (s.fiber f).state ∨
      ((s.setFiber g x).fiber f).state ≠ .ready := by
  by_cases hf : f = g
  · subst hf
    simp only [State.setFiber, Function.update_self]
    exact Or.inr hx
  · exact Or.inl (by rw [setFiber_fiber_of_ne _ hf])

theorem Unready.slice {site : Site} {stage : Stage} (h : Unready s)
    (hpc : (s.worker t).pc = .slice site stage) (hslice : SliceStep s t site stage o s') :
    Unready s' := by
  have hend : ∀ g, ((s.worker t).endSite site).pc ≠ .slice g .requeue := by
    intro g
    simp [Worker.endSite_pc]
  cases hslice with
  | failsNotExec | failsNeverGetHere => exact ⟨h.state, h.worker⟩
  | assertNotExec | switch | wakes | release | testNotReady | testNotDone =>
    exact h.update (fun _ => Or.inl rfl) rfl (by simp)
  | setExec => exact h.update (state_setFiber _ (by simp)) rfl (by simp)
  | restore | save => exact h.update (state_setFiber _ (h.state _)) rfl (by simp)
  | testReady hready => exact absurd hready (h.state _)
  | testDone => exact h.update (fun _ => Or.inl rfl) rfl hend
  | requeue => exact absurd hpc (h.worker t site)
  | setHold => exact h.update (state_setFiber _ (by simp)) rfl hend

theorem Unready.step (h : Unready s) (hwf : WellFormed s) (hnever : NeverReady s l)
    (hstep : step s l = some (o, s')) :
    Unready s' := by
  have hnew : (Fiber.new).state ≠ .ready := by decide
  cases processStep_of_step hstep with
  | newFiber =>
    refine ⟨fun f => ?_, h.worker⟩
    rcases state_setFiber (s := s) (.task s.taskCount) hnew f with hsame | hnot
    · exact hsame ▸ h.state f
    · exact hnot
  | schedule | scheduleAll | setAutoStops | setStopping => exact ⟨h.state, h.worker⟩
  | leaves | loops => exact h.update (fun _ => Or.inl rfl) rfl (by simp)
  | @endSlice t site how =>
    refine h.update (state_setFiber _ ?_) rfl (by simp)
    cases how with
    | yieldToReady => exact absurd rfl (hnever t)
    | swapOut => exact h.state _
    | yieldToHold | returned | threw => simp [SliceEnd.leave]
  | @advance t _ _ _ hworker =>
    cases hworker with
    | failsEntryNonNull => exact ⟨h.state, h.worker⟩
    | finds | findsNone | drop | exit | idleTest | idleEnter =>
      exact h.update (fun _ => Or.inl rfl) rfl (by simp)
    | dispatch =>
      refine h.update (fun _ => Or.inl rfl) rfl ?_
      intro site
      rcases dispatch_cases s (s.worker t) with ⟨_, _, _, hd⟩ | ⟨_, hd⟩ | hd | hd <;>
        simp [hd]
    | spawn hpc =>
      rw [hwf.spawn_eq hpc]
      exact h.update (state_setFiber _ hnew) rfl (by simp)
    | slice hpc hslice => exact h.slice hpc hslice

theorem started_unready (threadIds : List ThreadId) : Unready (State.started threadIds) := by
  refine ⟨fun f => ?_, fun t site => ?_⟩
  · cases f <;> simp [State.started, Fiber.new]
  · simp [State.started, Worker.start]

theorem reachable_unready {threadIds : List ThreadId}
    (hreach : system.ReachableWhen NeverReady (State.started threadIds) s) :
    WellFormed s ∧ Unready s := by
  refine hreach.invariant (I := fun s => WellFormed s ∧ Unready s) ?_
    ⟨started_wellFormed threadIds, started_unready threadIds⟩
  rintro s l o s' ⟨hwf, h⟩ hnever hstep
  exact ⟨hwf.step hstep, h.step hwf hnever hstep⟩

/-- If no fiber yields as `READY`, then `stopping()` says that there is no work left. -/
theorem quiescent_of_neverReady {threadIds : List ThreadId}
    (hint : ∀ t ∈ threadIds, -2 ^ 31 ≤ t ∧ t < 2 ^ 31)
    (hreach : system.ReachableWhen NeverReady (State.started threadIds) s)
    (hstop : s.stopping = true) :
    Quiescent s := by
  refine quiescent_of_stopping hint hreach.reachable hstop ?_
  rintro t _ f ⟨hready, _⟩
  exact (reachable_unready hreach).2.state _ hready

/-- The fiber `f` is scheduled for thread `t` only. -/
def ScheduledFor (f : TaskId) (t : ThreadId) : Label → Prop
  | .schedule fb u => fb = .fiber (some f) → u = t
  | .scheduleAll fbs => .fiber (some f) ∉ fbs
  | _ => True

/-- Every entry of `f` is for `t`, since nobody puts `f` back for any thread. -/
structure Stays (f : TaskId) (t : ThreadId) (s : State) : Prop where
  pinned : Pinned f t s
  unready : Unready s
  queue : ∀ e ∈ s.fibers, e.fiber = some f → e.thread = t

theorem Stays.takenAtHome (h : Stays f t s) (ht : t ≠ -1) (hfor : ScheduledFor f t l) :
    TakenAtHome f t s l := by
  cases l with
  | schedule fb u => exact fun hfb => Or.inl (hfor hfb)
  | advance u =>
    intro e he hf hany
    exact absurd ((h.queue e (mem_takes he).2.1 hf).symm.trans hany) ht
  | newFiber | scheduleAll | setAutoStops | setStopping | testStopping | endSlice => trivial

theorem Stays.step (h : Stays f t s) (ht : t ≠ -1) (hfor : ScheduledFor f t l)
    (hnever : NeverReady s l) (hstep : step s l = some (o, s')) :
    Stays f t s' := by
  have hwf := h.pinned.wellFormed
  refine ⟨h.pinned.step (h.takenAtHome ht hfor) hstep, h.unready.step hwf hnever hstep, ?_⟩
  intro e he hf
  rcases mem_fibers_of_step hwf h.pinned.activeOk hstep he with hold | hpush
  · exact h.queue e hold hf
  · cases hpush with
    | @schedule fb thread heq =>
      subst heq
      cases fb with
      | fiber g => exact hfor (congrArg FiberOrCb.fiber hf)
      | cb c => cases hf
    | @scheduleAll fbs fb hmem heq =>
      subst heq
      cases fb with
      | fiber g =>
        have hg : g = some f := hf
        exact absurd (hg ▸ hmem) hfor
      | cb c => cases hf
    | @requeue u site _ hpc => exact absurd hpc (h.unready.worker u site)

/-- A fiber that is scheduled for one thread only is executed by that thread only, if no
fiber yields as `READY`. -/
theorem pinned_slices_of_neverReady {threadIds : List ThreadId} {s₀ : State}
    {ls : List Label} {os : List Event} (ht : t ≠ -1) (hnew : s₀.Unscheduled f)
    (hreach : system.ReachableWhen NeverReady (State.started threadIds) s₀)
    (hknown : f < s₀.taskCount) (hrun : system.run s₀ ls = some (os, s))
    (halong : system.Along (fun s l => ScheduledFor f t l ∧ NeverReady s l) s₀ ls) :
    ∀ u, .resumed u (.task f) ∈ os → u = t := by
  have hstart : Stays f t s₀ := by
    obtain ⟨hwf, hok⟩ := reachable_activeOk hreach.reachable
    refine ⟨hnew.pinned hwf hok hknown t, (reachable_unready hreach).2, ?_⟩
    intro e he hf
    exact absurd hf (hnew.queue e he)
  intro u hu
  refine system.run_outputs (I := Stays f t)
    (Q := fun o => ∀ u, o = .resumed u (.task f) → u = t) ?_ hstart halong hrun _ hu u rfl
  rintro s l o s' h ⟨hfor, hnever⟩ hstep
  exact ⟨h.step ht hfor hnever hstep, h.pinned.resumed hstep⟩

end Ready

section Once

variable {s s' : State} {l : Label} {o : Event} {t u : ThreadId} {f : TaskId}

/-- The fibers that have an entry in the queue. -/
def queued (fibers : List FiberAndThread) : List TaskId :=
  fibers.filterMap FiberAndThread.fiber

/-- A call of `schedule()` is given no fiber twice, and only fibers that are not queued and
that no worker is on. -/
def WokenWhenLeft (s : State) (l : Label) : Prop :=
  l.mover = none → ∀ es, s.effect l = .push es →
    (queued es).Nodup ∧ ∀ f ∈ queued es, s.Unscheduled f

/-- A fiber has one entry, or one worker, or neither. -/
structure Single (s : State) : Prop where
  wellFormed : WellFormed s
  activeOk : ∀ t, (s.worker t).ActiveOk
  nodup : (queued s.fibers).Nodup
  apart : ∀ f ∈ queued s.fibers, ∀ t, (s.worker t).on t ≠ some (.task f)
  unique : ∀ t u f, (s.worker t).on t = some (.task f) → (s.worker u).on u = some (.task f) →
    t = u

theorem mem_queued {e : FiberAndThread} (he : e ∈ s.fibers) (hf : e.fiber = some f) :
    f ∈ queued s.fibers :=
  List.mem_filterMap.mpr ⟨e, he, hf⟩

theorem WellFormed.on_known (hwf : WellFormed s) (hon : (s.worker t).on t = some (.task f)) :
    f < s.taskCount := by
  unfold Worker.on at hon
  split at hon
  · obtain ⟨g, hg, heq⟩ := Option.map_eq_some_iff.mp hon
    cases heq
    exact (hwf.worker t).ft_known f hg
  · rename_i site stage hpc
    have hknown := (hwf.worker t).site_known site stage hpc
    cases site <;> cases hon
    · exact hknown
    · exact hknown
  · cases hon

/-- A worker comes to a fiber that no worker is on. -/
theorem Single.not_on_of_comes (h : Single s)
    (hcomes : (∃ e ∈ s.takes u, e.fiber = some f) ∨ f = s.taskCount) (t : ThreadId) :
    (s.worker t).on t ≠ some (.task f) := by
  rcases hcomes with ⟨e, he, hf⟩ | rfl
  · exact h.apart f (mem_queued (mem_takes he).2.1 hf) t
  · intro hon
    exact absurd (h.wellFormed.on_known hon) (lt_irrefl _)

theorem Single.takesUnclaimed (h : Single s) : TakesUnclaimed s l := by
  cases l with
  | advance t =>
    intro f hf u _ _ hclaimed
    have hmem : f ∈ queued s.fibers := by
      simp only [State.taking, Option.mem_def] at hf
      split_ifs at hf
      obtain ⟨e, htaken, hfe⟩ := Option.bind_eq_some_iff.mp hf
      obtain ⟨r, hscan, hr⟩ := Option.bind_eq_some_iff.mp htaken
      rw [(h.wellFormed.scan_eq hscan).1] at hr
      exact mem_queued (List.mem_of_find?_eq_some hr) hfe
    refine h.apart f hmem u ?_
    unfold Worker.claimed at hclaimed
    unfold Worker.on
    split at hclaimed <;> simp_all
  | newFiber | schedule | scheduleAll | setAutoStops | setStopping | testStopping | endSlice =>
    trivial

/-- The worker that puts a fiber back is on it before the step and not after it. -/
theorem step_requeued {es : List FiberAndThread} (hstep : step s (.advance t) = some (o, s'))
    (hpush : s.effect (.advance t) = .push es) :
    ∃ f, queued es = [f] ∧ (s.worker t).on t = some (.task f) ∧ (s'.worker t).on t = none := by
  obtain ⟨site, f, hpc, hsite, rfl⟩ := workerEffect_push hpush
  refine ⟨f, rfl, by simp [Worker.on, hpc, hsite], ?_⟩
  cases processStep_of_step hstep with
  | advance _ hworker =>
    cases hworker.sliceStep hpc with
    | requeue =>
      simp only [State.setWorker, Function.update_self]
      simp [Worker.on, Worker.endSite_pc]

/-- What is pushed was not queued, and afterwards no worker is on it. -/
theorem Single.pushed {es : List FiberAndThread} (h : Single s) (hwoken : WokenWhenLeft s l)
    (hstep : step s l = some (o, s')) (hpush : s.effect l = .push es) :
    (queued es).Nodup ∧ ∀ f ∈ queued es,
      f ∉ queued s.fibers ∧ ∀ t, (s'.worker t).on t ≠ some (.task f) := by
  by_cases hmover : l.mover = none
  · obtain ⟨hnodup, hleft⟩ := hwoken hmover es hpush
    refine ⟨hnodup, fun f hf => ⟨?_, ?_⟩⟩
    · intro hmem
      obtain ⟨e, he, hfe⟩ := List.mem_filterMap.mp hmem
      exact (hleft f hf).queue e he hfe
    · rw [step_still hstep hmover]
      exact (hleft f hf).worker
  · cases l with
    | advance u =>
      obtain ⟨g, hes, hbefore, hafter⟩ := step_requeued hstep hpush
      rw [hes]
      refine ⟨List.nodup_singleton g, fun f hf => ?_⟩
      cases List.mem_singleton.mp hf
      refine ⟨fun hmem => h.apart g hmem u hbefore, fun t ht => ?_⟩
      by_cases htu : t = u
      · rw [htu, hafter] at ht
        cases ht
      · cases processStep_of_step hstep with
        | advance _ hworker =>
          rw [hworker.worker_of_ne h.wellFormed htu] at ht
          exact htu (h.unique t u g ht hbefore)
    | schedule | scheduleAll | newFiber | setAutoStops | setStopping => exact absurd rfl hmover
    | testStopping | endSlice => cases hpush

/-- A worker comes to a queued fiber by taking its entry. -/
theorem Single.takes_of_on (h : Single s) (hstep : step s l = some (o, s'))
    (hf : f ∈ queued s.fibers) (hon : (s'.worker t).on t = some (.task f)) :
    l = .advance t ∧ ∃ e ∈ s.takes t, e.fiber = some f := by
  rcases (step_on h.wellFormed hstep).2 t f hon with hold | ⟨hl, htakes | hnew⟩
  · exact absurd hold (h.apart f hf t)
  · exact ⟨hl, htakes⟩
  · obtain ⟨e, he, hfe⟩ := List.mem_filterMap.mp hf
    exact absurd hnew ((h.wellFormed.queue e he).known f hfe).ne

theorem Single.taken {e : FiberAndThread} (h : Single s) (he : e ∈ s.takes t)
    (hf : e.fiber = some f) :
    s.effect (.advance t) = .take t (s.place t) ∧ f ∉ queued (s.fibers.eraseIdx (s.place t)) := by
  have hpc := (mem_takes he).1
  rw [takes_scan hpc] at he
  constructor
  · have hplace : s.place t < s.fibers.length :=
      List.findIdx_lt_length_of_exists ⟨e, List.mem_of_find?_eq_some he, List.find?_some he⟩
    simp [State.effect, State.workerEffect, hpc, hplace]
  · obtain ⟨front, back, hsplit, herase, _⟩ := eraseIdx_findIdx he
    have hnodup := h.nodup
    rw [hsplit, queued, List.filterMap_append, List.filterMap_cons_some hf,
      List.nodup_middle] at hnodup
    rw [State.place, herase, queued, List.filterMap_append]
    exact (List.nodup_cons.mp hnodup).1

theorem Single.step (h : Single s) (hwoken : WokenWhenLeft s l)
    (hstep : step s l = some (o, s')) :
    Single s' := by
  have hwf := h.wellFormed
  obtain ⟨hdoes, hok, _⟩ := performs_step hwf h.activeOk hstep
  refine ⟨hwf.step hstep, hok, ?_, ?_, ?_⟩
  · cases heffect : s.effect l with
    | none | release =>
      rw [heffect] at hdoes
      rw [hdoes.1]
      exact h.nodup
    | take t i =>
      rw [heffect] at hdoes
      rw [hdoes.2.1]
      exact h.nodup.sublist ((List.eraseIdx_sublist s.fibers i).filterMap _)
    | push es =>
      rw [heffect] at hdoes
      obtain ⟨hnodup, hnew⟩ := h.pushed hwoken hstep heffect
      rw [hdoes.1, queued, List.filterMap_append]
      exact h.nodup.append hnodup fun f hold hf => (hnew f hf).1 hold
  · intro f hf t hon
    have htaken : f ∈ queued s.fibers → s.effect l = .take t (s.place t) ∧
        f ∉ queued (s.fibers.eraseIdx (s.place t)) := by
      intro hmem
      obtain ⟨rfl, e, he, hfe⟩ := h.takes_of_on hstep hmem hon
      exact h.taken he hfe
    cases heffect : s.effect l with
    | none | release =>
      rw [heffect] at hdoes
      rw [hdoes.1] at hf
      exact absurd (heffect.symm.trans (htaken hf).1) (by simp)
    | take u i =>
      rw [heffect] at hdoes
      rw [hdoes.2.1] at hf
      obtain ⟨htake, hnot⟩ := htaken (((List.eraseIdx_sublist s.fibers i).filterMap _).subset hf)
      rw [heffect] at htake
      cases htake
      exact hnot hf
    | push es =>
      rw [heffect] at hdoes
      rw [hdoes.1, queued, List.filterMap_append] at hf
      rcases List.mem_append.mp hf with hold | hnew
      · exact absurd (heffect.symm.trans (htaken hold).1) (by simp)
      · exact ((h.pushed hwoken hstep heffect).2 f hnew).2 t hon
  · obtain ⟨_, hon⟩ := step_on hwf hstep
    intro t u f ht hu
    rcases hon t f ht with hold | ⟨hl, hcomes⟩
    · rcases hon u f hu with hold' | ⟨_, hcomes⟩
      · exact h.unique t u f hold hold'
      · exact absurd hold (h.not_on_of_comes hcomes t)
    · rcases hon u f hu with hold | ⟨hl', _⟩
      · exact absurd hold (h.not_on_of_comes hcomes u)
      · rw [hl] at hl'
        cases hl'
        rfl

/-- A fiber that is scheduled only after it was left is executed by one worker at a time,
and from a saved context. -/
theorem swapSafe_of_wokenWhenLeft {threadIds : List ThreadId}
    (hreach : system.ReachableWhen WokenWhenLeft (State.started threadIds) s) :
    SwapSafe s := by
  have hinv : Single s ∧ ClaimsOk s := by
    refine hreach.invariant (I := fun s => Single s ∧ ClaimsOk s) ?_ ⟨?_, ?_⟩
    · rintro s l o s' ⟨hsingle, hclaims⟩ hwoken hstep
      exact ⟨hsingle.step hwoken hstep,
        hclaims.step hsingle.wellFormed hsingle.takesUnclaimed hstep⟩
    · refine ⟨started_wellFormed threadIds, fun _ => Worker.activeOk_start, .nil, ?_, ?_⟩
      · intro f hf
        cases hf
      · intro t u f ht
        cases ht
    · exact started_claimsOk threadIds
  exact hinv.2.swapSafe

end Once

section OneWorker

variable {p p' : Pool} {t : ThreadId} {o : Event}

/-- `schedule()` is called from the code of the tasks that worker `t` runs. -/
def Pool.FromTasks (t : ThreadId) (p : Pool) : PoolLabel → Prop
  | .sched (.schedule _ _) | .sched (.scheduleAll _) => (p.sched.worker t).pc.inUserCode = true
  | _ => True

/-- The worker is alone, and asleep only if there is nothing it could run. -/
structure Pool.Alone (t : ThreadId) (p : Pool) : Prop where
  inv : p.Inv
  ids : p.sched.threadIds = [t]
  idle : (p.sched.worker t).fallingAsleep (p.wait t) = true →
    ∀ e ∈ p.sched.fibers, e.thread = -1 → ¬ p.sched.Runnable e

theorem Pool.Alone.someAsleep (h : p.Alone t) :
    p.SomeAsleep ↔ (p.sched.worker t).fallingAsleep (p.wait t) = true := by
  simp [Pool.SomeAsleep, h.ids]

theorem Pool.Alone.awake_of_push {l : Label} {s' : State} {es : List FiberAndThread}
    (h : p.Alone t) (hfrom : p.FromTasks t (.sched l))
    (hstep : Scheduler.step p.sched l = some (o, s')) (hpush : p.sched.effect l = .push es) :
    ¬ p.SomeAsleep := by
  have huser : (p.sched.worker t).pc.inUserCode = true → ¬ p.SomeAsleep := by
    rw [h.someAsleep]
    intro huser
    unfold Pc.inUserCode at huser
    split at huser <;> simp_all [Worker.fallingAsleep]
  cases l with
  | schedule | scheduleAll => exact huser hfrom
  | advance u =>
    obtain ⟨site, _, hpc, _⟩ := workerEffect_push hpush
    cases processStep_of_step hstep with
    | advance hu =>
      rw [h.ids, List.mem_singleton] at hu
      rw [h.someAsleep, ← hu]
      simp [Worker.fallingAsleep, hpc]
  | newFiber | setAutoStops | setStopping | testStopping | endSlice => cases hpush

theorem Pool.Alone.awake_of_frees {l : Label} {s' : State} {u : ThreadId} {f : TaskId}
    (h : p.Alone t) (hstep : Scheduler.step p.sched l = some (o, s'))
    (hfrees : p.sched.frees l = some (u, f)) :
    ¬ p.SomeAsleep := by
  have hu : u = t := by
    have hmem := (step_frees hstep hfrees .before).1
    rwa [h.ids, List.mem_singleton] at hmem
  subst hu
  rw [h.someAsleep]
  unfold State.frees at hfrees
  split at hfrees
  · split at hfrees <;> simp_all [Worker.fallingAsleep]
  · split at hfrees <;> simp_all [Worker.fallingAsleep]
  · cases hfrees

theorem Pool.Alone.tickleSuffices {l : PoolLabel} (h : p.Alone t) (hfrom : p.FromTasks t l)
    (hstep : p.step l = some (o, p')) :
    p.TickleSuffices l := by
  cases l with
  | sched l =>
    have hs := (Pool.step_sched hstep).1
    refine ⟨fun new hnew hasleep => ?_, fun tf hfrees hasleep => ?_⟩
    · simp only [State.queues, Option.mem_def] at hnew
      split at hnew
      · rename_i es heffect
        exact absurd hasleep (h.awake_of_push hfrom hs heffect)
      · cases hnew
    · exact absurd hasleep (h.awake_of_frees hs hfrees)
  | tickle =>
    rintro _ hasleep ⟨e, he, hany, hrun⟩
    exact absurd hrun (h.idle (h.someAsleep.mp hasleep) e he hany)
  | callTickle | epollWait | wake | timeout => trivial

/-- A worker that goes to sleep has found nothing, and sleeps until there is something. -/
theorem Pool.Alone.idle_sched {l : Label} (h : p.Alone t) (hfrom : p.FromTasks t (.sched l))
    (hstep : Scheduler.step p.sched l = some (o, p'.sched)) (hwait : p'.wait = p.waitAfter l)
    (hasleep : (p'.sched.worker t).fallingAsleep (p'.wait t) = true) :
    ∀ e ∈ p'.sched.fibers, e.thread = -1 → ¬ p'.sched.Runnable e := by
  have hwf := h.inv.wellFormed
  have hids := (performs_step hwf h.inv.activeOk hstep).ids
  have hasleep' : p'.SomeAsleep := ⟨t, by simp [hids, h.ids], hasleep⟩
  by_cases hscan : ∃ u, l = .advance u ∧ (p.sched.worker u).pc = .scan
  · obtain ⟨u, rfl, hpc⟩ := hscan
    intro e he hany hrun
    cases processStep_of_step hstep with
    | advance hu hworker =>
      rw [h.ids, List.mem_singleton] at hu
      subst hu
      generalize hsched : p'.sched = s' at *
      cases hworker with
      | failsEntryNonNull _ hscan => exact absurd hscan hwf.takeEntry_ne_none
      | finds => simp [State.setWorker, Worker.fallingAsleep] at hasleep
      | findsNone _ hscan htaken =>
        exact hwf.scan_none hscan htaken e he
          (FiberAndThread.eligible_iff.mpr ⟨Or.inl hany, hrun⟩)
      | dispatch hpc' | spawn hpc' | drop hpc' | exit hpc' | idleTest hpc' | idleEnter hpc'
      | slice hpc' =>
        rw [hpc] at hpc'
        cases hpc'
  · have hnot : ∀ u, l = .advance u → (p.sched.worker u).pc ≠ .scan :=
      fun u hl hpc => hscan ⟨u, hl, hpc⟩
    intro e he hany hrun
    rcases h.inv.moves_of_step hstep hwait hnot with hempty | ⟨u, hmoves⟩
    · rw [hempty] at he
      cases he
    · have hbefore := hmoves.someAsleep hasleep'
      have hdoes := (performs_step hwf h.inv.activeOk hstep).does
      have hsame : e ∈ p.sched.fibers := by
        cases heffect : p.sched.effect l with
        | none | release =>
          rw [heffect] at hdoes
          exact hdoes.1 ▸ he
        | push es => exact absurd hbefore (h.awake_of_push hfrom hstep heffect)
        | take u i => exact absurd (effect_take heffect).2.1 (hnot u (effect_take heffect).1)
      rcases runnable_of_step hwf hstep hsame hrun with hrun | ⟨u, f, hfrees, _⟩
      · exact h.idle (h.someAsleep.mp hbefore) e hsame hany hrun
      · exact h.awake_of_frees hstep hfrees hbefore

theorem Pool.Alone.step {l : PoolLabel} (h : p.Alone t) (hfrom : p.FromTasks t l)
    (hstep : p.step l = some (o, p')) :
    p'.Alone t := by
  have hinv := h.inv.step (h.tickleSuffices hfrom hstep) hstep
  have hawake : ∀ u, p.Idles u .blocked →
      (p.sched.worker t).fallingAsleep (Function.update p.wait u .after t) = false := by
    rintro u ⟨hu, hpc, _⟩
    rw [h.ids, List.mem_singleton] at hu
    subst hu
    simp [Worker.fallingAsleep, hpc]
  cases l with
  | sched l =>
    obtain ⟨hs, hwait, _, _⟩ := Pool.step_sched hstep
    have hids := (performs_step h.inv.wellFormed h.inv.activeOk hs).ids
    exact ⟨hinv, hids.trans h.ids, h.idle_sched hfrom hs hwait⟩
  | callTickle =>
    cases hstep
    exact ⟨hinv, h.ids, h.idle⟩
  | tickle =>
    simp only [Pool.step] at hstep
    split_ifs at hstep <;> cases hstep <;> exact ⟨hinv, h.ids, h.idle⟩
  | epollWait u =>
    simp only [Pool.step] at hstep
    split_ifs at hstep with hidles
    cases hstep
    obtain ⟨hu, hpc, hbefore⟩ := hidles
    rw [h.ids, List.mem_singleton] at hu
    subst hu
    refine ⟨hinv, h.ids, fun _ => h.idle ?_⟩
    simp [Worker.fallingAsleep, hpc, hbefore]
  | wake u =>
    simp only [Pool.step] at hstep
    split_ifs at hstep with hidles
    cases hstep
    exact ⟨hinv, h.ids, fun hasleep => absurd hasleep (by simp [hawake u hidles.1])⟩
  | timeout u =>
    simp only [Pool.step] at hstep
    split_ifs at hstep with hidles
    cases hstep
    exact ⟨hinv, h.ids, fun hasleep => absurd hasleep (by simp [hawake u hidles])⟩

/-- A single worker whose tasks make all the calls of `schedule()` misses none of them. -/
theorem no_lost_wakeUp_of_fromTasks
    (hreach : Pool.system.ReachableWhen (Pool.FromTasks t) (Pool.started [t]) p) :
    ¬ p.LostWakeUp := by
  have halone : p.Alone t := by
    refine hreach.invariant (fun _ _ _ _ h hfrom hstep => h.step hfrom hstep)
      ⟨started_inv [t], rfl, ?_⟩
    intro _ e he
    cases he
  exact halone.inv.not_lostWakeUp

end OneWorker

end Scheduler
end Civan
