import Civan.Scheduler.TicklePipe

/-!
# When no wake-up is lost

The invariant counts: while some worker is asleep or falling asleep, every entry
that can be run has a worker of its own that is on its way to a scan, except for
one that a byte or a call of `tickle()` stands for.  A push, a fiber that leaves
`EXEC` and a call of `tickle()` can break it, and the last section has two runs in
which they do.
-/

namespace Civan
namespace Scheduler

open Transition

section Invariant

/-- While a worker is asleep, every entry that can be run has a worker on its way to a
scan, except for one if a tickle is on its way. -/
def Pool.Covered (p : Pool) : Prop :=
  p.SomeAsleep →
  (∃ e ∈ p.sched.fibers, e.thread = -1 ∧ p.sched.Runnable e) →
    p.sched.fibers.countP (fun e => decide (p.sched.Runnable e)) ≤ p.coming.card + p.tickled

/-- What holds after every step that meets the condition. -/
structure Pool.Inv (p : Pool) : Prop where
  wellFormed : WellFormed p.sched
  activeOk : ∀ t, (p.sched.worker t).ActiveOk
  waits : ∀ t, p.wait t ≠ .before → (p.sched.worker t).pc = .slice .idle .running
  covered : p.Covered

variable {p p' : Pool} {t : ThreadId} {o : Event}

theorem Pool.Inv.not_lostWakeUp (h : p.Inv) : ¬ p.LostWakeUp := by
  rintro ⟨⟨e, he, hany, hrun⟩, ⟨t, ht, hblocked⟩, hpipe, hpending, hothers⟩
  have hpc : ∀ u, p.wait u = .blocked → (p.sched.worker u).pc = .slice .idle .running :=
    fun u hu => h.waits u (by rw [hu]; decide)
  have hasleep : p.SomeAsleep := by
    refine ⟨t, ht, ?_⟩
    simp [Worker.fallingAsleep, hpc t hblocked, hblocked]
  have hle := h.covered hasleep ⟨e, he, hany, hrun⟩
  -- no worker is on its way to a scan
  have hcoming : p.coming = ∅ := by
    refine Finset.filter_eq_empty_iff.mpr ?_
    intro u hu hscan
    rcases hothers u (List.mem_toFinset.mp hu) with hwait | huser
    · simp [Worker.comesToScan, hpc u hwait, hwait] at hscan
    · unfold Pc.inUserCode at huser
      unfold Worker.comesToScan at hscan
      split at huser <;> simp_all [Stage.ended, Stage.inside]
  have htickled : p.tickled = 0 := by simp [Pool.tickled, hpipe, hpending]
  have hpos : 0 < p.sched.fibers.countP (fun e => decide (p.sched.Runnable e)) :=
    List.countP_pos_iff.mpr ⟨e, he, by simpa using hrun⟩
  rw [hcoming, htickled, Finset.card_empty] at hle
  omega

/-- Only worker `t` moves, and it makes progress. -/
structure Pool.Moves (p p' : Pool) (t : ThreadId) : Prop where
  threadIds : p'.sched.threadIds = p.sched.threadIds
  others : ∀ u, u ≠ t → p'.sched.worker u = p.sched.worker u ∧ p'.wait u = p.wait u
  progress : (p.sched.worker t).Progress (p.wait t) (p'.sched.worker t) (p'.wait t)

theorem Pool.Moves.progress_all (h : p.Moves p' t) (u : ThreadId) :
    (p.sched.worker u).Progress (p.wait u) (p'.sched.worker u) (p'.wait u) := by
  by_cases hu : u = t
  · rw [hu]
    exact h.progress
  · rw [(h.others u hu).1, (h.others u hu).2]
    exact Worker.Progress.refl _ _

theorem Pool.Moves.someAsleep (h : p.Moves p' t) (hasleep : p'.SomeAsleep) : p.SomeAsleep := by
  obtain ⟨u, hu, hu'⟩ := hasleep
  exact ⟨u, h.threadIds ▸ hu, (h.progress_all u).asleep hu'⟩

theorem Pool.Moves.coming_subset (h : p.Moves p' t) : p.coming ⊆ p'.coming := by
  intro u hu
  rw [Pool.coming, Finset.mem_filter] at hu ⊢
  rw [h.threadIds]
  exact ⟨hu.1, (h.progress_all u).coming hu.2⟩

theorem tickles_scheduled {fibers : List FiberAndThread} {fb : FiberOrCb} {thread : ThreadId}
    (hempty : fibers = []) :
    (Event.scheduled (scheduleNoLock fibers fb thread).1).tickles = 1 := by
  rw [hempty]
  rfl

/-- A push leaves the fibers alone, and asks for a tickle if the queue was empty. -/
theorem step_push {s s' : State} {l : Label} {es : List FiberAndThread}
    (hstep : step s l = some (o, s')) (hpush : s.effect l = .push es) :
    s'.fiber = s.fiber ∧ s'.fibers = s.fibers ++ es ∧
      (s.fibers = [] → es ≠ [] → o.tickles = 1) := by
  cases processStep_of_step hstep with
  | newFiber | setAutoStops | setStopping | leaves | loops | endSlice => cases hpush
  | schedule =>
    cases hpush
    exact ⟨rfl, scheduleNoLock_eq s.fibers _ _, fun hempty _ => tickles_scheduled hempty⟩
  | @scheduleAll fbs =>
    cases hpush
    refine ⟨rfl, scheduleAllNoLock_eq s.fibers fbs, ?_⟩
    intro hempty hne
    cases fbs with
    | nil => simp at hne
    | cons fb fbs => simp [scheduleAllNoLock, scheduleNoLock, hempty, Event.tickles]
  | advance _ hworker =>
    obtain ⟨site, _, hpc, _⟩ := workerEffect_push hpush
    cases hworker.sliceStep hpc with
    | requeue f hsite =>
      rw [State.effect, workerEffect_requeue hpc hsite] at hpush
      cases hpush
      exact ⟨rfl, scheduleNoLock_eq s.fibers (.fiber (some f)) (-1),
        fun hempty _ => tickles_scheduled hempty⟩

theorem step_frees {s s' : State} {l : Label} {f : TaskId} (hstep : step s l = some (o, s'))
    (hfrees : s.frees l = some (t, f)) (phase : WaitPhase) :
    t ∈ s.threadIds ∧ (s'.worker t).comesToScan phase = true := by
  rcases frees_cases hfrees with ⟨rfl, site, hpc⟩ | ⟨how, rfl⟩
  · cases processStep_of_step hstep with
    | advance ht hworker =>
      cases hworker.sliceStep hpc with
      | setHold =>
        refine ⟨ht, ?_⟩
        simp only [State.setWorker, Function.update_self]
        exact (Worker.comesToScan_loop (Worker.endSite_pc _ site) phase).1
  · cases processStep_of_step hstep with
    | endSlice _ ht =>
      refine ⟨ht, ?_⟩
      simp [State.setWorker, Worker.comesToScan, Stage.ended]

/-- What can be run after a step that queues and takes nothing. -/
theorem runnable_of_step {s s' : State} {l : Label} {e : FiberAndThread} (hwf : WellFormed s)
    (hstep : step s l = some (o, s')) (he : e ∈ s.fibers) (hrun : s'.Runnable e) :
    s.Runnable e ∨ ∃ t f, s.frees l = some (t, f) ∧ e.fiber = some f := by
  by_contra hnot
  push Not at hnot
  obtain ⟨hnotrun, hnone⟩ := hnot
  simp only [State.Runnable, not_forall, not_not] at hnotrun
  obtain ⟨f, hf, hexec⟩ := hnotrun
  rcases step_exec hwf hstep ((hwf.queue e he).known f hf) hexec with hexec' | ⟨t, hfrees⟩
  · exact hrun f hf hexec'
  · exact hnone t f hfrees hf

/-- The queue stays; at most one fiber leaves `EXEC`. -/
theorem Pool.Inv.covered_same {l : Label} (h : p.Inv) (hP : p.TickleSuffices (.sched l))
    (hstep : Scheduler.step p.sched l = some (o, p'.sched)) (hmoves : p.Moves p' t)
    (hfibers : p'.sched.fibers = p.sched.fibers) (hasleep : p.SomeAsleep)
    (hcoming : p.coming.card ≤ p'.coming.card) (htickled : p.tickled ≤ p'.tickled)
    (hany : ∃ e ∈ p'.sched.fibers, e.thread = -1 ∧ p'.sched.Runnable e) :
    p'.sched.fibers.countP (fun e => decide (p'.sched.Runnable e)) ≤
      p'.coming.card + p'.tickled := by
  rw [hfibers] at hany ⊢
  obtain ⟨e, he, hthread, hrun⟩ := hany
  have hbefore := fun e he hrun => runnable_of_step (e := e) h.wellFormed hstep he hrun
  cases hfrees : p.sched.frees l with
  | none =>
    have hsame : ∀ e ∈ p.sched.fibers, p'.sched.Runnable e → p.sched.Runnable e := by
      intro e he hrun
      refine (hbefore e he hrun).resolve_right ?_
      rintro ⟨u, f, hu, _⟩
      simp [hfrees] at hu
    have hle := h.covered hasleep ⟨e, he, hthread, hsame e he hrun⟩
    refine (List.countP_mono_left ?_).trans (hle.trans (Nat.add_le_add hcoming htickled))
    intro e he
    simpa using hsame e he
  | some tf =>
    obtain ⟨u, f⟩ := tf
    have hfree : ∀ e ∈ p.sched.fibers, p'.sched.Runnable e →
        p.sched.Runnable e ∨ e.fiber = some f := by
      intro e he hrun
      refine (hbefore e he hrun).imp_right ?_
      rintro ⟨u', f', hu', hf'⟩
      rw [hfrees, Option.some.injEq, Prod.mk.injEq] at hu'
      rw [hf', hu'.2]
    have hroom := hP.2 (u, f) hfrees hasleep ⟨e, he, hthread, hfree e he hrun⟩
    -- the worker that frees the fiber will scan
    have hinsert : insert u p.coming ⊆ p'.coming := by
      obtain ⟨hu, hscan⟩ := step_frees hstep hfrees (p'.wait u)
      refine Finset.insert_subset ?_ hmoves.coming_subset
      rw [Pool.coming, Finset.mem_filter, List.mem_toFinset, hmoves.threadIds]
      exact ⟨hu, hscan⟩
    refine (List.countP_mono_left ?_).trans
      (hroom.trans (Nat.add_le_add (Finset.card_le_card hinsert) htickled))
    intro e he
    simpa using hfree e he

/-- A step without a scan, in which the worker that moves makes progress. -/
theorem Pool.Inv.covered_step {l : Label} (h : p.Inv) (hP : p.TickleSuffices (.sched l))
    (hstep : Scheduler.step p.sched l = some (o, p'.sched)) (hmoves : p.Moves p' t)
    (htickles : p'.pendingTickles = p.pendingTickles + o.tickles) (hpipe : p'.pipe = p.pipe)
    (htake : ∀ u i, p.sched.effect l ≠ .take u i) :
    p'.Covered := by
  intro hasleep' hany
  have hasleep : p.SomeAsleep := hmoves.someAsleep hasleep'
  have hcoming : p.coming.card ≤ p'.coming.card := Finset.card_le_card hmoves.coming_subset
  have htickled : p.tickled ≤ p'.tickled := by
    unfold Pool.tickled
    split_ifs <;> omega
  have hdoes := (performs_step h.wellFormed h.activeOk hstep).does
  cases heffect : p.sched.effect l with
  | take u i => exact absurd heffect (htake u i)
  | push es =>
    obtain ⟨hfiber, hfibers, hneed⟩ := step_push hstep heffect
    have hroom := hP.1 es (by simp [State.queues, heffect]) hasleep
    have hsame : p'.sched.Runnable = p.sched.Runnable := by
      funext e
      rw [State.Runnable, State.Runnable, hfiber]
    simp only [hsame, hfibers] at hany ⊢
    refine (hroom hany).trans (Nat.add_le_add hcoming ?_)
    split_ifs with hempty
    · obtain ⟨e, he, _⟩ := hany
      rw [hempty, List.nil_append] at he
      have hone := hneed hempty (List.ne_nil_of_mem he)
      rw [Pool.tickled, if_pos (Or.inl (by omega))]
    · exact htickled
  | none =>
    rw [heffect] at hdoes
    exact h.covered_same hP hstep hmoves hdoes.1 hasleep hcoming htickled hany
  | release u =>
    rw [heffect] at hdoes
    exact h.covered_same hP hstep hmoves hdoes.1 hasleep hcoming htickled hany

theorem FiberAndThread.eligible_iff {s : State} {e : FiberAndThread} :
    e.eligible t (fun f => (s.fiber (.task f)).state) = true ↔
      (e.thread = -1 ∨ e.thread = t) ∧ s.Runnable e := by
  cases hf : e.fiber <;> simp [eligible, State.Runnable, hf]

/-- A worker takes an entry and is off to run it. -/
theorem Pool.Inv.covered_finds {r : Scan} {e : FiberAndThread} (h : p.Inv)
    (hscan : takeEntry t (fun f => (p.sched.fiber (.task f)).state) p.sched.fibers = some r)
    (htaken : r.taken = some e)
    (hsched : p'.sched = { p.sched.acquire with fibers := r.rest }.setWorker t
      { p.sched.worker t with pc := .dispatch, ft := e, isActive := true })
    (hwait : p'.wait = p.wait)
    (htickled : p.tickled ≤ p'.tickled) :
    p'.Covered := by
  obtain ⟨front, back, hsplit, hrest, heligible, _⟩ := h.wellFormed.scan_split hscan htaken
  have hrun := (FiberAndThread.eligible_iff.mp heligible).2
  have hfibers : p'.sched.fibers = front ++ back := by
    rw [hsched]
    exact hrest
  have hids : p'.sched.threadIds = p.sched.threadIds := by
    rw [hsched]
    rfl
  have hsame : p'.sched.Runnable = p.sched.Runnable := by
    rw [hsched]
    rfl
  have hothers : ∀ u, u ≠ t → p'.sched.worker u = p.sched.worker u := by
    intro u hu
    rw [hsched]
    exact Function.update_of_ne hu _ _
  -- the worker that scanned is awake
  have hawake : (p'.sched.worker t).fallingAsleep (p'.wait t) = false := by
    rw [hsched]
    simp [State.setWorker, Worker.fallingAsleep]
  rintro ⟨u, hu, hasleep⟩ hany
  have hut : u ≠ t := by
    rintro rfl
    simp [hawake] at hasleep
  rw [hids] at hu
  rw [hothers u hut, hwait] at hasleep
  simp only [hfibers, hsame] at hany ⊢
  obtain ⟨e', he', hthread, hrun'⟩ := hany
  have hmem : e' ∈ p.sched.fibers := by
    rw [hsplit]
    refine List.mem_append.mpr ((List.mem_append.mp he').imp_right ?_)
    exact List.mem_cons_of_mem e
  have hle := h.covered ⟨u, hu, hasleep⟩ ⟨e', hmem, hthread, hrun'⟩
  rw [hsplit, List.countP_append, List.countP_cons_of_pos (by simpa using hrun)] at hle
  have hcoming : p.coming.erase t ⊆ p'.coming := by
    intro v hv
    rw [Finset.mem_erase, Pool.coming, Finset.mem_filter] at hv
    rw [Pool.coming, Finset.mem_filter, hids, hothers v hv.1, hwait]
    exact hv.2
  have hcard : p.coming.card - 1 ≤ p'.coming.card :=
    Finset.pred_card_le_card_erase.trans (Finset.card_le_card hcoming)
  rw [List.countP_append]
  omega

/-- A worker scans: it takes an entry, or goes to sleep because no entry for any worker can
be run. -/
theorem Pool.Inv.covered_scan (h : p.Inv) (hpc : (p.sched.worker t).pc = .scan)
    (hworker : WorkerStep p.sched t o p'.sched) (hwait : p'.wait = p.wait)
    (htickled : p.tickled ≤ p'.tickled) :
    p'.Covered := by
  generalize hsched : p'.sched = s' at hworker
  cases hworker with
  | failsEntryNonNull _ hscan => exact absurd hscan h.wellFormed.takeEntry_ne_none
  | finds _ hscan htaken => exact h.covered_finds hscan htaken hsched hwait htickled
  | findsNone _ hscan htaken =>
    rintro _ ⟨e, he, hthread, hrun⟩
    rw [hsched] at he hrun
    exact absurd (FiberAndThread.eligible_iff.mpr ⟨Or.inl hthread, hrun⟩)
      (h.wellFormed.scan_none hscan htaken e he)
  | dispatch hpc' | spawn hpc' | drop hpc' | exit hpc' | idleTest hpc' | idleEnter hpc'
  | slice hpc' =>
    rw [hpc] at hpc'
    cases hpc'

/-- Except for a scan, the worker that moves makes progress, or it leaves `run` because the
queue is empty. -/
theorem Pool.Inv.moves_of_step {l : Label} (h : p.Inv)
    (hstep : Scheduler.step p.sched l = some (o, p'.sched)) (hwait : p'.wait = p.waitAfter l)
    (hscan : ∀ t, l = .advance t → (p.sched.worker t).pc ≠ .scan) :
    p'.sched.fibers = [] ∨ ∃ t, p.Moves p' t := by
  have hids := (performs_step h.wellFormed h.activeOk hstep).ids
  have hprocess := processStep_of_step hstep
  generalize hsched : p'.sched = s' at hprocess
  cases hprocess with
  | newFiber | schedule | scheduleAll | setAutoStops | setStopping =>
    have hworker := step_still hstep rfl
    refine Or.inr ⟨0, hids, ?_, ?_⟩
    · intro u _
      rw [hworker, hwait]
      exact ⟨rfl, rfl⟩
    · rw [hworker, hwait]
      exact Worker.Progress.refl _ _
  | @advance t _ _ _ hworker =>
    rw [← hsched] at hworker
    obtain ⟨w', hupdate, hprogress⟩ := hworker.progress h.wellFormed (hscan t rfl)
    refine Or.inr ⟨t, hids, ?_, ?_⟩
    · intro u hu
      rw [hupdate, Function.update_of_ne hu, hwait]
      exact ⟨rfl, rfl⟩
    · rw [hupdate, Function.update_self, hwait]
      exact hprogress _
  | leaves _ _ hstop => exact Or.inl (stopping_eq_true hstop).1
  | @loops t =>
    refine Or.inr ⟨t, hids, ?_, ?_⟩
    · intro u hu
      rw [hsched, hwait]
      exact ⟨Function.update_of_ne hu _ _, rfl⟩
    · rw [hsched]
      refine Worker.progress_of_comesToScan ?_ ?_
      · simp [State.setWorker, Worker.comesToScan]
      · simp [State.setWorker, Worker.fallingAsleep]
  | @endSlice t site =>
    refine Or.inr ⟨t, hids, ?_, ?_⟩
    · intro u hu
      rw [hsched, hwait]
      exact ⟨Function.update_of_ne hu _ _, Function.update_of_ne hu _ _⟩
    · rw [hsched]
      have hend := Worker.comesToScan_ended
        (w := { p.sched.worker t with pc := .slice site .save }) rfl
        (by decide) (p'.wait t)
      refine Worker.progress_of_comesToScan ?_ ?_
      · simpa [State.setWorker] using hend.1
      · simpa [State.setWorker] using hend.2

/-- A worker whose idle fiber is in `epoll_wait` stays there until its slice ends. -/
theorem Pool.Inv.waits_step {l : Label} {s' : State} (h : p.Inv)
    (hstep : Scheduler.step p.sched l = some (o, s'))
    (u : ThreadId) (hu : p.waitAfter l u ≠ .before) :
    (s'.worker u).pc = .slice .idle .running := by
  cases processStep_of_step hstep with
  | newFiber | schedule | scheduleAll | setAutoStops | setStopping => exact h.waits u hu
  | @leaves t _ _ hloop | @loops t _ _ hloop =>
    have hpc := h.waits u hu
    have hut : u ≠ t := by
      rintro rfl
      simp [hpc] at hloop
    simpa [State.setWorker, hut] using hpc
  | @advance t _ _ _ hworker =>
    have hpc := h.waits u hu
    have hut : u ≠ t := by
      rintro rfl
      cases hworker.sliceStep hpc
    rw [hworker.worker_of_ne h.wellFormed hut]
    exact hpc
  | @endSlice t =>
    have hut : u ≠ t := by
      rintro rfl
      simp [Pool.waitAfter] at hu
    have hpc : (p.sched.worker u).pc = .slice .idle .running := by
      refine h.waits u ?_
      simpa [Pool.waitAfter, hut] using hu
    simpa [State.setWorker, State.setFiber, hut] using hpc

theorem Pool.Inv.covered_sched {l : Label} (h : p.Inv) (hP : p.TickleSuffices (.sched l))
    (hstep : Scheduler.step p.sched l = some (o, p'.sched)) (hwait : p'.wait = p.waitAfter l)
    (htickles : p'.pendingTickles = p.pendingTickles + o.tickles) (hpipe : p'.pipe = p.pipe) :
    p'.Covered := by
  by_cases hscan : ∃ t, l = .advance t ∧ (p.sched.worker t).pc = .scan
  · obtain ⟨t, rfl, hpc⟩ := hscan
    cases processStep_of_step hstep with
    | advance _ hworker =>
      refine h.covered_scan hpc hworker hwait ?_
      unfold Pool.tickled
      split_ifs <;> omega
  · have hnot : ∀ t, l = .advance t → (p.sched.worker t).pc ≠ .scan :=
      fun t hl hpc => hscan ⟨t, hl, hpc⟩
    rcases h.moves_of_step hstep hwait hnot with hempty | ⟨t, hmoves⟩
    · rintro _ ⟨e, he, _⟩
      rw [hempty] at he
      cases he
    · refine h.covered_step hP hstep hmoves htickles hpipe ?_
      intro u i htake
      obtain ⟨hl, hpc, _⟩ := effect_take htake
      exact hnot u hl hpc

/-- One worker changes its place at `epoll_wait`; the scheduler does not move. -/
theorem Pool.Inv.setWait {phase : WaitPhase} (h : p.Inv)
    (hpc : (p.sched.worker t).pc = .slice .idle .running) (hsched : p'.sched = p.sched)
    (hwait : p'.wait = Function.update p.wait t phase) (hcovered : p'.Covered) :
    p'.Inv := by
  refine ⟨hsched ▸ h.wellFormed, hsched ▸ h.activeOk, ?_, hcovered⟩
  intro u hu
  rw [hsched]
  by_cases hut : u = t
  · rw [hut]
    exact hpc
  · rw [hwait, Function.update_of_ne hut] at hu
    exact h.waits u hu

/-- A worker that returns from `epoll_wait` stands for what its byte stood for. -/
theorem Pool.Inv.covered_return (h : p.Inv) (hidles : p.Idles t .blocked)
    (hsched : p'.sched = p.sched) (hwait : p'.wait = Function.update p.wait t .after) :
    p'.Covered := by
  obtain ⟨ht, hpc, hblocked⟩ := hidles
  have hscan : t ∈ p'.coming := by
    rw [Pool.coming, Finset.mem_filter, hsched, hwait]
    refine ⟨List.mem_toFinset.mpr ht, ?_⟩
    simp [Worker.comesToScan, hpc]
  have hnot : t ∉ p.coming := by
    rw [Pool.coming, Finset.mem_filter]
    simp [Worker.comesToScan, hpc, hblocked]
  have hsubset : insert t p.coming ⊆ p'.coming := by
    refine Finset.insert_subset hscan ?_
    intro u hu
    have hut : u ≠ t := fun heq => hnot (heq ▸ hu)
    rw [Pool.coming, Finset.mem_filter] at hu ⊢
    rw [hsched, hwait, Function.update_of_ne hut]
    exact hu
  have hcard := Finset.card_le_card hsubset
  rw [Finset.card_insert_of_notMem hnot] at hcard
  intro _ hany
  have hasleep : p.SomeAsleep := by
    refine ⟨t, ht, ?_⟩
    simp [Worker.fallingAsleep, hpc, hblocked]
  rw [hsched] at hany ⊢
  have hle := h.covered hasleep hany
  have htickled : p.tickled ≤ 1 := by
    unfold Pool.tickled
    split_ifs <;> omega
  omega

theorem started_inv (threadIds : List ThreadId) : (Pool.started threadIds).Inv := by
  refine ⟨started_wellFormed threadIds, ?_, ?_, ?_⟩
  · intro t
    exact Worker.activeOk_start
  · intro t ht
    exact absurd rfl ht
  · rintro _ ⟨e, he, _⟩
    cases he

theorem Pool.step_sched {l : Label} (hstep : p.step (.sched l) = some (o, p')) :
    Scheduler.step p.sched l = some (o, p'.sched) ∧ p'.wait = p.waitAfter l ∧
      p'.pendingTickles = p.pendingTickles + o.tickles ∧ p'.pipe = p.pipe := by
  simp only [Pool.step] at hstep
  split_ifs at hstep
  split at hstep
  · cases hstep
  · rename_i o' s' hs
    cases hstep
    exact ⟨hs, rfl, rfl, rfl⟩

theorem Pool.Inv.step {l : PoolLabel} (h : p.Inv) (hP : p.TickleSuffices l)
    (hstep : p.step l = some (o, p')) :
    p'.Inv := by
  cases l with
  | sched l =>
    obtain ⟨hs, hwait, htickles, hpipe⟩ := Pool.step_sched hstep
    exact
      { wellFormed := h.wellFormed.step hs
        activeOk := (performs_step h.wellFormed h.activeOk hs).activeOk
        waits := hwait ▸ h.waits_step hs
        covered := h.covered_sched hP hs hwait htickles hpipe }
  | callTickle =>
    cases hstep
    refine ⟨h.wellFormed, h.activeOk, h.waits, ?_⟩
    intro hasleep hany
    refine (h.covered hasleep hany).trans (Nat.add_le_add_left ?_ _)
    unfold Pool.tickled
    split_ifs <;> simp_all
  | tickle =>
    simp only [Pool.step] at hstep
    split_ifs at hstep with hpending hidle
    · cases hstep
      refine ⟨h.wellFormed, h.activeOk, h.waits, ?_⟩
      intro hasleep hany
      refine (h.covered hasleep hany).trans (Nat.add_le_add_left ?_ _)
      simp only [Pool.tickled]
      split_ifs <;> omega
    · -- no byte is written
      cases hstep
      refine ⟨h.wellFormed, h.activeOk, h.waits, ?_⟩
      intro hasleep hany
      have hzero : p.sched.idleThreadCount = 0 := Nat.eq_zero_of_not_pos hidle
      refine (hP hzero hasleep hany).trans (Nat.add_le_add_left ?_ _)
      simp only [Pool.tickled]
      split_ifs <;> omega
  | epollWait t =>
    simp only [Pool.step] at hstep
    split_ifs at hstep with hidles
    cases hstep
    obtain ⟨_, hpc, hbefore⟩ := hidles
    refine h.setWait hpc rfl rfl ?_
    have hmoves : p.Moves { p with wait := Function.update p.wait t .blocked } t := by
      refine ⟨rfl, fun u hu => ⟨rfl, Function.update_of_ne hu _ _⟩, ?_, ?_⟩
      · simp [Worker.fallingAsleep, hpc, hbefore]
      · simp [Worker.comesToScan, hpc, hbefore]
    intro hasleep hany
    exact (h.covered (hmoves.someAsleep hasleep) hany).trans
      (Nat.add_le_add_right (Finset.card_le_card hmoves.coming_subset) _)
  | wake t =>
    simp only [Pool.step] at hstep
    split_ifs at hstep with hidles
    cases hstep
    exact h.setWait hidles.1.2.1 rfl rfl (h.covered_return hidles.1 rfl rfl)
  | timeout t =>
    simp only [Pool.step] at hstep
    split_ifs at hstep with hidles
    cases hstep
    exact h.setWait hidles.2.1 rfl rfl (h.covered_return hidles rfl rfl)

/--
For any number of workers: no wake-up is lost in a run in which, while a worker is asleep
or falling asleep, every push and every fiber that leaves `EXEC` finds a worker on its way
for each entry that can be run but the one a tickle stands for, and no tickle that is
needed finds `m_idleThreadCount` at 0.
-/
theorem no_lost_wakeUp (threadIds : List ThreadId)
    (hreach : Pool.system.ReachableWhen Pool.TickleSuffices (Pool.started threadIds) p) :
    ¬ p.LostWakeUp := by
  have hinv : p.Inv :=
    hreach.invariant (fun _ _ _ _ h hP hstep => h.step hP hstep) (started_inv threadIds)
  exact hinv.not_lostWakeUp

end Invariant

section Runs

/-- Worker `t` goes round its loop and takes `n` steps. -/
def enterLoop (t : ThreadId) (n : ℕ) : List PoolLabel :=
  .sched (.testStopping t true) :: List.replicate n (.sched (.advance t))

/-- Worker `t` finds nothing to run and blocks. -/
def fallAsleep (t : ThreadId) : List PoolLabel :=
  enterLoop t 7 ++ [.epollWait t]

/-- The idle fiber of worker `t` gives the thread back. -/
def leaveIdle (t : ThreadId) : List PoolLabel :=
  .sched (.endSlice t .swapOut) :: List.replicate 5 (.sched (.advance t))

/-- Two workers sleep; a callback is queued and a byte written. -/
theorem no_lost_wakeUp_two_asleep :
    ∃ p, Pool.system.ReachableWhen Pool.TickleSuffices (Pool.started [1, 2]) p ∧
      (p.wait 1 = .blocked ∧ p.wait 2 = .blocked ∧ p.pipe = 1 ∧
        p.sched.fibers = [{ fiber := none, cb := some 7, thread := -1 }]) ∧
      ¬ p.LostWakeUp := by
  obtain ⟨p, hreach, hp⟩ :=
    System.exists_reachableWhen (M := Pool.system) (P := Pool.TickleSuffices)
      (Pool.started [1, 2])
      (fallAsleep 1 ++ fallAsleep 2 ++ [.sched (.schedule (.cb (some 7)) (-1)), .tickle])
      (fun p => p.wait 1 = .blocked ∧ p.wait 2 = .blocked ∧ p.pipe = 1 ∧
        p.sched.fibers = [{ fiber := none, cb := some 7, thread := -1 }])
      (by decide +kernel)
  exact ⟨p, hreach, hp, no_lost_wakeUp [1, 2] hreach⟩

/-- A callback is queued when the only worker has scanned and is not yet counted idle. -/
def pushInWindow : List PoolLabel :=
  enterLoop 1 3 ++ [.sched (.schedule (.cb (some 7)) (-1)), .tickle] ++
    List.replicate 4 (.sched (.advance 1)) ++ [.epollWait 1]

/-- Two callbacks are queued for two sleeping workers; the second push finds the queue
not empty, and the worker that is woken runs the first callback. -/
def pushTwice : List PoolLabel :=
  fallAsleep 1 ++ fallAsleep 2 ++
    [.sched (.schedule (.cb (some 7)) (-1)), .tickle,
      .sched (.schedule (.cb (some 8)) (-1)), .wake 1] ++
    leaveIdle 1 ++ enterLoop 1 6

theorem lost_wakeUp_window_or_second_push :
    (∃ p, Pool.system.Reachable (Pool.started [1]) p ∧ p.LostWakeUp) ∧
      ∃ p, Pool.system.Reachable (Pool.started [1, 2]) p ∧ p.LostWakeUp := by
  constructor
  · obtain ⟨p, hreach, hlost⟩ :=
      System.exists_reachableWhen (M := Pool.system) (P := fun _ _ => True)
        (Pool.started [1]) pushInWindow Pool.LostWakeUp (by decide +kernel)
    exact ⟨p, hreach.reachable, hlost⟩
  · obtain ⟨p, hreach, hlost⟩ :=
      System.exists_reachableWhen (M := Pool.system) (P := fun _ _ => True)
        (Pool.started [1, 2]) pushTwice Pool.LostWakeUp (by decide +kernel)
    exact ⟨p, hreach.reachable, hlost⟩

end Runs

end Scheduler
end Civan
