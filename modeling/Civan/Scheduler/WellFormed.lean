import Civan.Scheduler.Steps

/-!
# What holds in every state of the scheduler

Facts that no interleaving can break: queue entries hold a fiber or a callback,
every fiber that is queued or held exists, `cb_fiber` is set only while `run` is
at its callback branch, and threads that are no workers never move.  Two of the
four assertions of the modelled code follow: line 185 of scheduler.cc and line 79
of fiber.cc never fail.
-/

namespace Civan
namespace Scheduler

open Transition

section Queue

/-- A queue entry for one of the first `n` tasks, or for a callback. -/
structure FiberAndThread.WellFormed (n : ℕ) (e : FiberAndThread) : Prop where
  nonNull : e.nonNull = true
  known : ∀ f, e.fiber = some f → f < n

theorem FiberAndThread.WellFormed.mono {n m : ℕ} {e : FiberAndThread}
    (h : e.WellFormed n) (hnm : n ≤ m) :
    e.WellFormed m :=
  ⟨h.nonNull, fun f hf => lt_of_lt_of_le (h.known f hf) hnm⟩

/-- Every entry of the queue is well formed. -/
def QueueWellFormed (n : ℕ) (fibers : List FiberAndThread) : Prop :=
  ∀ e ∈ fibers, e.WellFormed n

theorem takeEntry_cons {self : ThreadId} {stateOf : TaskId → FiberState}
    {e : FiberAndThread} {es : List FiberAndThread} {r : Scan}
    (h : takeEntry self stateOf (e :: es) = some r) :
    (∃ tickle r', takeEntry self stateOf es = some r' ∧ r = r'.skip e tickle) ∨
      (r = { taken := some e, rest := es, tickleMe := false } ∧
        ∀ f, e.fiber = some f → stateOf f ≠ .exec) := by
  have hskip : ∀ tickle, (takeEntry self stateOf es).map (Scan.skip e tickle) = some r →
      ∃ tickle r', takeEntry self stateOf es = some r' ∧ r = r'.skip e tickle := by
    intro tickle hmap
    obtain ⟨r', hr', rfl⟩ := Option.map_eq_some_iff.mp hmap
    exact ⟨tickle, r', hr', rfl⟩
  rw [takeEntry] at h
  split_ifs at h with hthread hnull hexec
  · exact Or.inl (hskip true h)
  · exact Or.inl (hskip false h)
  · cases h
    refine Or.inr ⟨rfl, ?_⟩
    intro f hf
    simpa [hf] using hexec

/-- What the scan takes was queued for this thread, with a fiber not in `EXEC`. -/
theorem takeEntry_taken {self : ThreadId} {stateOf : TaskId → FiberState}
    {fibers : List FiberAndThread} {r : Scan} {e : FiberAndThread}
    (h : takeEntry self stateOf fibers = some r) (he : r.taken = some e) :
    e ∈ fibers ∧ ∀ f, e.fiber = some f → stateOf f ≠ .exec := by
  induction fibers generalizing r with
  | nil =>
    simp only [takeEntry, Option.some.injEq] at h
    subst h
    simp at he
  | cons e' es ih =>
    rcases takeEntry_cons h with ⟨tickle, r', hr', rfl⟩ | ⟨rfl, hexec⟩
    · obtain ⟨hmem, hexec⟩ := ih hr' he
      exact ⟨List.mem_cons_of_mem e' hmem, hexec⟩
    · cases he
      exact ⟨List.mem_cons_self, hexec⟩

theorem takeEntry_rest_subset {self : ThreadId} {stateOf : TaskId → FiberState}
    {fibers : List FiberAndThread} {r : Scan} (h : takeEntry self stateOf fibers = some r) :
    r.rest ⊆ fibers := by
  induction fibers generalizing r with
  | nil =>
    simp only [takeEntry, Option.some.injEq] at h
    subst h
    simp
  | cons e' es ih =>
    rcases takeEntry_cons h with ⟨tickle, r', hr', rfl⟩ | ⟨rfl, _⟩
    · exact List.cons_subset_cons e' (ih hr')
    · exact List.subset_cons_self e' es

/-- The assertion on line 185 holds for a well-formed queue. -/
theorem takeEntry_isSome (self : ThreadId) (stateOf : TaskId → FiberState)
    {n : ℕ} {fibers : List FiberAndThread} (h : QueueWellFormed n fibers) :
    (takeEntry self stateOf fibers).isSome := by
  induction fibers with
  | nil => rfl
  | cons e es ih =>
    have hrest := ih (fun e' he' => h e' (List.mem_cons_of_mem e he'))
    have hnull := (h e List.mem_cons_self).nonNull
    rw [takeEntry]
    split_ifs with hthread hnull' hexec
    · simpa using hrest
    · simp [hnull] at hnull'
    · simpa using hrest
    · rfl

theorem scheduleNoLock_wellFormed {s : State} {fibers : List FiberAndThread}
    {fb : FiberOrCb} {thread : ThreadId} (h : QueueWellFormed s.taskCount fibers)
    (hknown : fb.known s = true) :
    QueueWellFormed s.taskCount (scheduleNoLock fibers fb thread).2 := by
  simp only [scheduleNoLock]
  split_ifs with hnull
  · intro e he
    rcases List.mem_append.mp he with he | he
    · exact h e he
    · rw [List.mem_singleton.mp he]
      refine ⟨hnull, ?_⟩
      intro f hf
      cases fb with
      | fiber g =>
        simp only [FiberAndThread.of] at hf
        subst hf
        simpa [FiberOrCb.known] using hknown
      | cb c => simp [FiberAndThread.of] at hf
  · exact h

theorem scheduleAllNoLock_wellFormed
    {s : State} {fibers : List FiberAndThread} {fbs : List FiberOrCb}
    (h : QueueWellFormed s.taskCount fibers) (hknown : fbs.all (FiberOrCb.known s) = true) :
    QueueWellFormed s.taskCount (scheduleAllNoLock fibers fbs).2 := by
  induction fbs generalizing fibers with
  | nil => exact h
  | cons fb fbs ih =>
    rw [List.all_cons, Bool.and_eq_true] at hknown
    exact ih (scheduleNoLock_wellFormed h hknown.1) hknown.2

end Queue

section Worker

/-- The fiber of the call site is one of the first `n` tasks, or the idle fiber. -/
def Site.Known (n : ℕ) : Site → Prop
  | .entry f => f < n
  | .callback f => f < n
  | .idle => True

/-- The local variables of `run` are consistent. -/
structure Worker.WellFormed (n : ℕ) (w : Worker) : Prop where
  ft_known : ∀ f, w.ft.fiber = some f → f < n
  site_known : ∀ site stage, w.pc = .slice site stage → site.Known n
  cbFiber_none : (∀ f stage, w.pc ≠ .slice (.callback f) stage) → w.cbFiber = none
  scan_empty : w.pc = .scan → w.ft = .empty

theorem Site.Known.mono {n m : ℕ} {site : Site} (h : site.Known n) (hnm : n ≤ m) :
    site.Known m := by
  cases site with
  | entry f => exact lt_of_lt_of_le h hnm
  | callback f => exact lt_of_lt_of_le h hnm
  | idle => trivial

theorem Worker.WellFormed.mono {n m : ℕ} {w : Worker} (h : w.WellFormed n) (hnm : n ≤ m) :
    w.WellFormed m where
  ft_known f hf := lt_of_lt_of_le (h.ft_known f hf) hnm
  site_known site stage hpc := (h.site_known site stage hpc).mono hnm
  cbFiber_none := h.cbFiber_none
  scan_empty := h.scan_empty

theorem Worker.start_wellFormed (n : ℕ) :
    Worker.start.WellFormed n where
  ft_known f hf := by simp [Worker.start, FiberAndThread.empty] at hf
  site_known site stage hpc := by simp [Worker.start] at hpc
  cbFiber_none _ := rfl
  scan_empty _ := rfl

theorem Worker.WellFormed.stage {n : ℕ} {w : Worker} {site : Site} {stage : Stage}
    (h : w.WellFormed n) (hpc : w.pc = .slice site stage) (stage' : Stage) :
    Worker.WellFormed n { w with pc := .slice site stage' } where
  ft_known := h.ft_known
  site_known site' _ hpc' := by
    simp only [Pc.slice.injEq] at hpc'
    rw [← hpc'.1]
    exact h.site_known site stage hpc
  cbFiber_none hne := by
    refine h.cbFiber_none ?_
    intro f stage₁ hpc₁
    rw [hpc, Pc.slice.injEq] at hpc₁
    exact hne f stage' (by rw [hpc₁.1])
  scan_empty := by simp

theorem Worker.WellFormed.goto {n : ℕ} {w : Worker} {pc : Pc} (h : w.WellFormed n)
    (hfrom : ∀ site stage, w.pc ≠ .slice site stage) (hscan : pc ≠ .scan)
    (hto : ∀ site stage, pc = .slice site stage → site.Known n ∧ ∀ f, site ≠ .callback f) :
    Worker.WellFormed n { w with pc := pc } where
  ft_known := h.ft_known
  site_known site stage hpc := (hto site stage hpc).1
  cbFiber_none _ := h.cbFiber_none (fun f stage => hfrom (.callback f) stage)
  scan_empty hpc := absurd hpc hscan

theorem Worker.WellFormed.endSite {n : ℕ} {w : Worker} {site : Site} {stage : Stage}
    (h : w.WellFormed n) (hpc : w.pc = .slice site stage) :
    (w.endSite site).WellFormed n := by
  have hcb : (∀ f, site ≠ .callback f) → w.cbFiber = none := by
    intro hsite
    refine h.cbFiber_none ?_
    intro f stage' hpc'
    rw [hpc, Pc.slice.injEq] at hpc'
    exact hsite f hpc'.1
  cases site with
  | entry f =>
    exact ⟨by simp [Worker.endSite, FiberAndThread.empty], by simp [Worker.endSite],
      fun _ => hcb (by simp), by simp [Worker.endSite]⟩
  | callback f =>
    exact ⟨h.ft_known, by simp [Worker.endSite], fun _ => rfl, by simp [Worker.endSite]⟩
  | idle =>
    exact ⟨h.ft_known, by simp [Worker.endSite], fun _ => hcb (by simp),
      by simp [Worker.endSite]⟩

end Worker

section States

/-- The invariant of every interleaving. -/
structure WellFormed (s : State) : Prop where
  queue : QueueWellFormed s.taskCount s.fibers
  worker : ∀ t, (s.worker t).WellFormed s.taskCount
  outside : ∀ t, t ∉ s.threadIds → s.worker t = Worker.start
  asserts : s.aborted ≠ some .entryNonNull ∧ s.aborted ≠ some .resettable

theorem started_wellFormed (threadIds : List ThreadId) :
    WellFormed (State.started threadIds) where
  queue := by simp [QueueWellFormed, State.started]
  worker _ := Worker.start_wellFormed 0
  outside _ _ := rfl
  asserts := by simp [State.started]

theorem WellFormed.move {s s' : State} {t : ThreadId} {w : Worker} (h : WellFormed s)
    (ht : t ∈ s.threadIds) (hworker : s'.worker = Function.update s.worker t w)
    (hids : s'.threadIds = s.threadIds) (haborted : s'.aborted = s.aborted)
    (hcount : s.taskCount ≤ s'.taskCount) (hqueue : QueueWellFormed s'.taskCount s'.fibers)
    (hw : w.WellFormed s'.taskCount) :
    WellFormed s' where
  queue := hqueue
  worker u := by
    rw [hworker]
    by_cases hu : u = t
    · rw [hu, Function.update_self]
      exact hw
    · rw [Function.update_of_ne hu]
      exact (h.worker u).mono hcount
  outside u hu := by
    rw [hids] at hu
    have hne : u ≠ t := fun heq => hu (heq ▸ ht)
    rw [hworker, Function.update_of_ne hne]
    exact h.outside u hu
  asserts := by
    rw [haborted]
    exact h.asserts

theorem WellFormed.setWorker {s : State} {t : ThreadId} {w : Worker} (h : WellFormed s)
    (ht : t ∈ s.threadIds) (hw : w.WellFormed s.taskCount) :
    WellFormed (s.setWorker t w) :=
  h.move ht rfl rfl rfl le_rfl h.queue hw

theorem WellFormed.setFiber {s : State} (h : WellFormed s) (f : FiberRef) (x : Fiber) :
    WellFormed (s.setFiber f x) :=
  ⟨h.queue, h.worker, h.outside, h.asserts⟩

theorem WellFormed.abort {s : State} {a : Assertion} (h : WellFormed s)
    (ha : a = .notExec ∨ a = .neverGetHere) :
    WellFormed (s.abort a) where
  queue := h.queue
  worker := h.worker
  outside := h.outside
  asserts := by
    rcases ha with rfl | rfl <;> simp [State.abort]

theorem WellFormed.setFibers {s : State} {fibers : List FiberAndThread} (h : WellFormed s)
    (hqueue : QueueWellFormed s.taskCount fibers) :
    WellFormed { s with fibers := fibers } :=
  ⟨hqueue, h.worker, h.outside, h.asserts⟩

theorem WellFormed.newFiber {s : State} (h : WellFormed s) :
    WellFormed s.newFiber where
  queue e he := (h.queue e he).mono (Nat.le_succ _)
  worker t := (h.worker t).mono (Nat.le_succ _)
  outside := h.outside
  asserts := h.asserts

theorem WellFormed.slice {s s' : State} {t : ThreadId} {site : Site} {stage : Stage} {o : Event}
    (h : WellFormed s) (ht : t ∈ s.threadIds) (hpc : (s.worker t).pc = .slice site stage)
    (hslice : SliceStep s t site stage o s') :
    WellFormed s' := by
  have hstage := (h.worker t).stage hpc
  have hend := (h.worker t).endSite hpc
  have hsite := (h.worker t).site_known site stage hpc
  -- only `requeue` touches the queue
  cases hslice with
  | failsNotExec => exact h.abort (Or.inl rfl)
  | failsNeverGetHere => exact h.abort (Or.inr rfl)
  | assertNotExec => exact h.setWorker ht (hstage _)
  | setExec => exact (h.setFiber _ _).setWorker ht (hstage _)
  | restore => exact (h.setFiber _ _).setWorker ht (hstage _)
  | save => exact (h.setFiber _ _).setWorker ht (hstage _)
  | switch => exact h.setWorker ht (hstage _)
  | wakes => exact h.move ht rfl rfl rfl le_rfl h.queue (hstage _)
  | release => exact h.move ht rfl rfl rfl le_rfl h.queue (hstage _)
  | testReady => exact h.setWorker ht (hstage _)
  | testNotReady => exact h.setWorker ht (hstage _)
  | testDone => exact h.setWorker ht hend
  | testNotDone => exact h.setWorker ht (hstage _)
  | setHold => exact (h.setFiber _ _).setWorker ht hend
  | requeue f hf =>
    have hknown : f < s.taskCount := by rcases hf with rfl | rfl <;> exact hsite
    refine (h.setFibers (scheduleNoLock_wellFormed h.queue ?_)).setWorker ht hend
    simpa [FiberOrCb.known] using hknown

/-- The branch on what was taken: a slice of the fiber taken, or no fiber at all. -/
theorem dispatch_cases (s : State) (w : Worker) :
    (∃ f, w.ft.fiber = some f ∧ (s.fiber (.task f)).isDone = false ∧
      dispatch s w = .slice (.entry f) .assertNotExec) ∨
    (w.ft.cb.isSome = true ∧ dispatch s w = .spawn) ∨ dispatch s w = .drop ∨
      dispatch s w = .idleTest := by
  unfold dispatch
  cases hf : w.ft.fiber with
  | none =>
    right
    dsimp only
    split_ifs with hcb <;> simp [hcb]
  | some f =>
    by_cases hdone : (s.fiber (.task f)).isDone = true
    · right
      simp only [if_pos hdone]
      split_ifs with hcb <;> simp [hcb]
    · left
      exact ⟨f, rfl, by simpa using hdone, if_neg hdone⟩

/-- A callback is always run on a new fiber. -/
theorem WellFormed.spawn_eq {s : State} {t : ThreadId} (h : WellFormed s)
    (hpc : (s.worker t).pc = .spawn) :
    spawn s t (s.worker t) =
      s.newFiber.setWorker t
        { s.worker t with
          pc := .slice (.callback s.taskCount) .assertNotExec
          ft := .empty
          cbFiber := some s.taskCount } := by
  have hcb : (s.worker t).cbFiber = none := (h.worker t).cbFiber_none (by simp [hpc])
  simp only [spawn, hcb]

/-- No entry of the queue fails the assertion of the scan. -/
theorem WellFormed.takeEntry_ne_none {s : State} {t : ThreadId} (h : WellFormed s) :
    takeEntry t (fun f => (s.fiber (.task f)).state) s.fibers ≠ none :=
  Option.isSome_iff_ne_none.mp (takeEntry_isSome t _ h.queue)

theorem WellFormed.advance {s s' : State} {t : ThreadId} {o : Event} (h : WellFormed s)
    (ht : t ∈ s.threadIds) (hworker : WorkerStep s t o s') :
    WellFormed s' := by
  have hw := h.worker t
  cases hworker with
  | failsEntryNonNull _ hscan => exact absurd hscan h.takeEntry_ne_none
  | findsNone hpc => exact h.setWorker ht (hw.goto (by simp [hpc]) (by simp) (by simp))
  | finds hpc hscan htaken =>
    have he := h.queue _ (takeEntry_taken hscan htaken).1
    refine h.move ht rfl rfl rfl le_rfl ?_ ⟨he.known, by simp, ?_, by simp⟩
    · exact fun e he => h.queue e (takeEntry_rest_subset hscan he)
    · exact fun _ => hw.cbFiber_none (by simp [hpc])
  | dispatch hpc =>
    rcases dispatch_cases s (s.worker t) with ⟨f, hf, _, hd⟩ | ⟨_, hd⟩ | hd | hd <;> rw [hd]
    · refine h.setWorker ht (hw.goto (by simp [hpc]) (by simp) ?_)
      intro site stage hslice
      rw [Pc.slice.injEq] at hslice
      rw [← hslice.1]
      exact ⟨hw.ft_known f hf, by simp⟩
    all_goals exact h.setWorker ht (hw.goto (by simp [hpc]) (by simp) (by simp))
  | spawn hpc =>
    rw [h.spawn_eq hpc]
    refine h.newFiber.setWorker ht ⟨?_, ?_, ?_, by simp⟩
    · simp [FiberAndThread.empty]
    · intro site stage hslice
      simp only [Pc.slice.injEq] at hslice
      rw [← hslice.1]
      exact Nat.lt_succ_self _
    · intro hne
      exact absurd rfl (hne s.taskCount .assertNotExec)
  | drop hpc =>
    exact h.move ht rfl rfl rfl le_rfl h.queue (hw.goto (by simp [hpc]) (by simp) (by simp))
  | exit hpc => exact h.setWorker ht (hw.goto (by simp [hpc]) (by simp) (by simp))
  | idleTest hpc => exact h.setWorker ht (hw.goto (by simp [hpc]) (by simp) (by simp))
  | idleEnter hpc =>
    refine h.move ht rfl rfl rfl le_rfl h.queue (hw.goto (by simp [hpc]) (by simp) ?_)
    intro site stage hslice
    simp only [Pc.slice.injEq] at hslice
    rw [← hslice.1]
    exact ⟨trivial, by simp⟩
  | slice hpc hslice => exact h.slice ht hpc hslice

theorem WellFormed.step {s s' : State} {l : Label} {o : Event} (h : WellFormed s)
    (hstep : step s l = some (o, s')) :
    WellFormed s' := by
  cases processStep_of_step hstep with
  | newFiber => exact h.newFiber
  | schedule hknown => exact h.setFibers (scheduleNoLock_wellFormed h.queue hknown)
  | scheduleAll hknown => exact h.setFibers (scheduleAllNoLock_wellFormed h.queue hknown)
  | setAutoStops => exact ⟨h.queue, h.worker, h.outside, h.asserts⟩
  | setStopping => exact ⟨h.queue, h.worker, h.outside, h.asserts⟩
  | leaves ht hpc => exact h.setWorker ht ((h.worker _).goto (by simp [hpc]) (by simp) (by simp))
  | loops ht hpc =>
    refine h.setWorker ht ⟨by simp [FiberAndThread.empty], by simp, ?_, fun _ => rfl⟩
    exact fun _ => (h.worker _).cbFiber_none (by simp [hpc])
  | advance ht hworker => exact h.advance ht hworker
  | endSlice how ht hpc => exact (h.setFiber _ _).setWorker ht ((h.worker _).stage hpc _)

end States

section Steps

variable {s s' : State} {l : Label} {o : Event}

/-- The stages that a worker's own code goes to from a stage, within the slice. -/
def Stage.nexts : Stage → List Stage
  | .assertNotExec => [.setExec]
  | .setExec => [.restore]
  | .restore => [.running]
  | .save => [.switch]
  | .switch => [.release]
  | .release => [.testReady, .testDone]
  | .testReady => [.requeue, .testDone]
  | .testDone => [.setHold]
  | .running | .requeue | .setHold => []

/-- One step of a slice moves its worker alone: to a next stage or out of the slice,
unless the process ends. -/
theorem SliceStep.moves {t : ThreadId} {site : Site} {stage : Stage}
    (hslice : SliceStep s t site stage o s') :
    s'.taskCount = s.taskCount ∧ ∃ w, s'.worker = Function.update s.worker t w ∧
      (w = s.worker t ∨
        (∃ stage' ∈ stage.nexts, w = { s.worker t with pc := .slice site stage' }) ∨
        w = (s.worker t).endSite site) := by
  have hstay := (Function.update_eq_self t s.worker).symm
  cases hslice with
  | failsNotExec | failsNeverGetHere => exact ⟨rfl, _, hstay, Or.inl rfl⟩
  | testDone | requeue | setHold => exact ⟨rfl, _, rfl, Or.inr (Or.inr rfl)⟩
  | assertNotExec | setExec | restore | save | switch | wakes | release | testReady
  | testNotReady | testNotDone =>
    exact ⟨rfl, _, rfl, Or.inr (Or.inl ⟨_, by simp [Stage.nexts], rfl⟩)⟩

theorem WorkerStep.worker_of_ne {t u : ThreadId} (hwf : WellFormed s)
    (hworker : WorkerStep s t o s') (hu : u ≠ t) :
    s'.worker u = s.worker u := by
  cases hworker with
  | failsEntryNonNull => rfl
  | finds | findsNone | dispatch | drop | exit | idleTest | idleEnter =>
    exact Function.update_of_ne hu _ _
  | spawn hpc =>
    rw [hwf.spawn_eq hpc]
    exact Function.update_of_ne hu _ _
  | slice hpc hslice =>
    obtain ⟨_, w, hupdate, _⟩ := hslice.moves
    rw [hupdate, Function.update_of_ne hu]

theorem step_advance {t : ThreadId} (halive : s.aborted = none) (ht : t ∈ s.threadIds) :
    step s (.advance t) = advance s t := by
  simp [step, halive, ht]

/-- Only a worker that continues a fiber shows it. -/
theorem resumed_advance {u : ThreadId} {g : FiberRef}
    (hstep : step s l = some (.resumed u g, s')) :
    u ∈ s.threadIds ∧ ∃ site, (s.worker u).pc = .slice site .restore ∧ g = site.fiber u := by
  cases processStep_of_step hstep with
  | advance ht hworker =>
    cases hworker with
    | slice hpc hslice =>
      cases hslice with
      | failsNeverGetHere => exact ⟨ht, _, hpc, rfl⟩
      | restore => exact ⟨ht, _, hpc, rfl⟩

/-- What `stopping()` has looked at. -/
theorem stopping_eq_true (hstop : s.stopping = true) :
    s.fibers = [] ∧ s.activeThreadCount = 0 := by
  simp only [State.stopping, Bool.and_eq_true, List.isEmpty_iff, beq_iff_eq] at hstop
  exact ⟨hstop.1.2, hstop.2⟩

/-- The worker that a step is about. -/
def Label.mover : Label → Option ThreadId
  | .testStopping t _ => some t
  | .advance t => some t
  | .endSlice t _ => some t
  | _ => none

theorem step_still (hstep : step s l = some (o, s')) (hmover : l.mover = none) :
    s'.worker = s.worker := by
  cases processStep_of_step hstep with
  | newFiber | schedule | scheduleAll | setAutoStops | setStopping => rfl
  | leaves | loops | advance | endSlice => cases hmover

end Steps

end Scheduler
end Civan
