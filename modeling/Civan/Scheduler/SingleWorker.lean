import Mathlib.Tactic
import Civan.Scheduler.Conservation

/-!
# The states of fibers under one worker

With one worker thread nothing runs between two steps of `Scheduler::run` but the
fiber it switched to, so the five places that write `m_state` can be followed.  A
task gives the thread back by a yield or at the end of `MainFunc`, which set its
state first.  The idle fiber may also call `swapOut` alone, as `IOManager::idle`
does; it is then in `EXEC` until `run` writes `HOLD` at the end of the iteration.

Other threads may call `schedule()` and make fibers at any time.
-/

namespace Civan
namespace Scheduler

open Transition

section Statement

/-- A task ends its slices by a yield, by its return or by an exception, and the idle
function does not throw. -/
def Orderly (s : State) : Label → Prop
  | .endSlice t how =>
    match (s.worker t).pc with
    | .slice .idle .running => how ≠ .threw
    | .slice _ .running => how ≠ .swapOut
    | _ => True
  | _ => True

instance (s : State) (l : Label) : Decidable (Orderly s l) :=
  match l with
  | .endSlice t how => by
    unfold Orderly
    dsimp only
    split <;> infer_instance
  | .newFiber | .schedule _ _ | .scheduleAll _ | .setAutoStops | .setStopping
  | .testStopping _ _ | .advance _ => .isTrue trivial

/-- Control is in `run` itself, not in `swapIn` or on the stack of a fiber. -/
def Pc.inRun : Pc → Bool
  | .slice _ stage => !stage.inside
  | _ => true

/-- Between the return of the idle fiber's `swapIn` and the end of the iteration. -/
def Pc.afterIdle : Pc → Bool
  | .slice .idle stage => !stage.inside
  | _ => false

/-- The worker took the entry of the task and has not set `EXEC`, or the task has left
its code and has not been put back into the queue. -/
def Worker.inHand (t : ThreadId) (w : Worker) (f : TaskId) : Prop :=
  match w.pc with
  | .dispatch => w.ft.fiber = some f
  | .slice _ .restore | .slice _ .running | .slice _ .testDone | .slice _ .setHold => False
  | .slice site _ => site.fiber t = .task f
  | _ => False

/-- The state machine of the fibers, as the only worker `t` sees it. -/
structure FibersOk (t : ThreadId) (s : State) : Prop where
  tasks_not_exec : (s.worker t).pc.inRun = true → ∀ f, (s.fiber (.task f)).state ≠ .exec
  idle_not_exec : (s.worker t).pc.inRun = true → (s.worker t).pc.afterIdle = false →
    (s.fiber (.idle t)).state ≠ .exec
  ready_queued : ∀ f, (s.fiber (.task f)).state = .ready →
    (∃ e ∈ s.fibers, e.fiber = some f) ∨ (s.worker t).inHand t f
  swapIn_not_done : ∀ site, (s.worker t).pc = .slice site .assertNotExec →
    (s.fiber (site.fiber t)).isDone = false
  resumed_not_finished : ∀ l u g s', step s l = some (.resumed u g, s') →
    (s.fiber g).finished = false
  asserts_hold : s.aborted = none

end Statement

section OneFiber

/-- Places where the fiber a worker switched to may be in `EXEC`. -/
def Worker.mayExec (t : ThreadId) (w : Worker) (g : FiberRef) : Prop :=
  match w.pc with
  | .slice _ .assertNotExec | .slice _ .setExec => False
  | .slice site .restore | .slice site .running => site.fiber t = g
  | .slice .idle _ => .idle t = g
  | _ => False

/-- What the worker relies on in the fiber `g`, which is `x`. -/
def Worker.Fits (t : ThreadId) (w : Worker) (g : FiberRef) (x : Fiber) : Prop :=
  match w.pc with
  | .dispatch => w.ft.fiber.map FiberRef.task = some g → x.state ≠ .exec
  | .idleEnter => .idle t = g → x.state ≠ .term
  | .slice site .assertNotExec => site.fiber t = g → x.state ≠ .exec ∧ x.isDone = false
  | .slice site .setExec | .slice site .setHold => site.fiber t = g → x.isDone = false
  | .slice site .restore | .slice site .running => site.fiber t = g → x.finished = false
  | _ => True

/-- The fiber `g` is `x`, as it should be for where the worker is. -/
structure Worker.Sound
    (t : ThreadId) (w : Worker) (g : FiberRef) (x : Fiber) (queued : Prop) : Prop where
  exec : x.state = .exec → w.mayExec t g
  finished : x.finished = true → x.isDone = true
  idle : g = .idle t → x.state ≠ .except
  ready : ∀ f, g = .task f → x.state = .ready → queued ∨ w.inHand t f
  fits : w.Fits t g x

variable {t : ThreadId} {w w' : Worker} {g : FiberRef} {x : Fiber} {queued queued' : Prop}

theorem Worker.sound_new (t : ThreadId) (w : Worker) (g : FiberRef) (queued : Prop) :
    w.Sound t g Fiber.new queued where
  exec := by simp [Fiber.new]
  finished := by simp [Fiber.new]
  idle := by simp [Fiber.new]
  ready := by simp [Fiber.new]
  fits := by
    unfold Worker.Fits
    split <;> simp [Fiber.new, Fiber.isDone]

theorem Worker.Sound.queue (h : w.Sound t g x queued) (hmono : queued → queued') :
    w.Sound t g x queued' :=
  { h with ready := fun f hf hready => (h.ready f hf hready).imp_left hmono }

/-- The worker moves on and the fiber stays as it is. -/
theorem Worker.Sound.goto (h : w.Sound t g x queued)
    (hexec : x.state = .exec → w.mayExec t g → w'.mayExec t g)
    (hready : ∀ f, g = .task f → x.state = .ready → w.inHand t f → w'.inHand t f)
    (hfits : w'.Fits t g x) :
    w'.Sound t g x queued where
  exec hx := hexec hx (h.exec hx)
  finished := h.finished
  idle := h.idle
  ready f hf hx := (h.ready f hf hx).imp_right (hready f hf hx)
  fits := hfits

theorem Worker.Sound.unfinished (h : w.Sound t g x queued) (hdone : x.isDone = false) :
    x.finished = false := by
  by_contra hfinished
  have := h.finished (by simpa using hfinished)
  rw [hdone] at this
  cases this

theorem Worker.Sound.setSaved (h : w.Sound t g x queued) (saved : Bool) :
    w.Sound t g { x with saved := saved } queued :=
  ⟨h.exec, h.finished, h.idle, h.ready, h.fits⟩

end OneFiber

section Invariant

/-- The fiber `g` is in the queue. -/
def State.Queued (s : State) (g : FiberRef) : Prop :=
  ∃ e ∈ s.fibers, e.fiber.map FiberRef.task = some g

/-- What holds in every state of a process with the worker `t` alone. -/
structure Solo (t : ThreadId) (s : State) : Prop where
  wellFormed : WellFormed s
  ids : s.threadIds = [t]
  alive : s.aborted = none
  sound : ∀ g, (s.worker t).Sound t g (s.fiber g) (s.Queued g)

variable {t : ThreadId} {s s' : State} {o : Event}

theorem Solo.fibersOk (h : Solo t s) :
    FibersOk t s where
  tasks_not_exec hrun f hexec := by
    have hmay := (h.sound (.task f)).exec hexec
    unfold Worker.mayExec at hmay
    unfold Pc.inRun at hrun
    split at hmay <;> simp_all [Stage.inside]
  idle_not_exec hrun hafter hexec := by
    have hmay := (h.sound (.idle t)).exec hexec
    unfold Worker.mayExec at hmay
    unfold Pc.inRun at hrun
    unfold Pc.afterIdle at hafter
    split at hmay <;> simp_all [Stage.inside]
  ready_queued f hready := by
    refine ((h.sound (.task f)).ready f rfl hready).imp_left ?_
    rintro ⟨e, he, hf⟩
    exact ⟨e, he, by simpa using hf⟩
  swapIn_not_done site hpc := by
    have hfits := (h.sound (site.fiber t)).fits
    simp only [Worker.Fits, hpc] at hfits
    exact (hfits trivial).2
  resumed_not_finished l u g s' hstep := by
    obtain ⟨hu, site, hpc, rfl⟩ := resumed_advance hstep
    rw [h.ids, List.mem_singleton] at hu
    subst hu
    have hfits := (h.sound (site.fiber u)).fits
    simp only [Worker.Fits, hpc] at hfits
    exact hfits trivial
  asserts_hold := h.alive

/-- The worker moves on, at most the fiber `g` changes, and nothing leaves the queue. -/
theorem Solo.change {g : FiberRef} {x : Fiber} {w : Worker} (h : Solo t s) (hwf : WellFormed s')
    (hids : s'.threadIds = s.threadIds) (halive : s'.aborted = s.aborted)
    (hworker : s'.worker = Function.update s.worker t w)
    (hfiber : s'.fiber = Function.update s.fiber g x) (hqueue : s.fibers ⊆ s'.fibers)
    (hg : (s.worker t).Sound t g (s.fiber g) (s.Queued g) → w.Sound t g x (s'.Queued g))
    (hother : ∀ g', g' ≠ g → (s.worker t).Sound t g' (s.fiber g') (s.Queued g') →
      w.Sound t g' (s.fiber g') (s.Queued g')) :
    Solo t s' := by
  refine ⟨hwf, hids.trans h.ids, halive.trans h.alive, ?_⟩
  intro g'
  rw [hworker, Function.update_self, hfiber]
  by_cases heq : g' = g
  · subst heq
    rw [Function.update_self]
    exact hg (h.sound g')
  · rw [Function.update_of_ne heq]
    refine (hother g' heq (h.sound g')).queue ?_
    rintro ⟨e, he, hf⟩
    exact ⟨e, hqueue he, hf⟩

theorem Solo.goto {w : Worker} (h : Solo t s) (hwf : WellFormed s')
    (hids : s'.threadIds = s.threadIds) (halive : s'.aborted = s.aborted)
    (hworker : s'.worker = Function.update s.worker t w) (hfiber : s'.fiber = s.fiber)
    (hqueue : s'.fibers = s.fibers)
    (hsound : ∀ g, (s.worker t).Sound t g (s.fiber g) (s.Queued g) →
      w.Sound t g (s.fiber g) (s.Queued g)) :
    Solo t s' := by
  refine ⟨hwf, hids.trans h.ids, halive.trans h.alive, ?_⟩
  intro g
  rw [hworker, Function.update_self, hfiber, State.Queued, hqueue]
  exact hsound g (h.sound g)

/-- A worker at the head of its loop relies on nothing. -/
theorem Worker.Sound.loop {w w' : Worker} {g : FiberRef} {x : Fiber} {queued : Prop}
    (h : w.Sound t g x queued) (hpc : w'.pc = .loop) (hexec : x.state ≠ .exec)
    (hready : ∀ f, g = .task f → x.state = .ready → w.inHand t f → queued) :
    w'.Sound t g x queued where
  exec hx := absurd hx hexec
  finished := h.finished
  idle := h.idle
  ready f hf hx := Or.inl ((h.ready f hf hx).elim id (hready f hf hx))
  fits := by simp [Worker.Fits, hpc]

/-- A task that yielded as `READY` goes back into the queue. -/
theorem Solo.requeue {site : Site} {f : TaskId} {w : Worker} (h : Solo t s) (hwf : WellFormed s')
    (hpc : (s.worker t).pc = .slice site .requeue) (hsite : site = .entry f ∨ site = .callback f)
    (hids : s'.threadIds = s.threadIds) (halive : s'.aborted = s.aborted) (hloop : w.pc = .loop)
    (hworker : s'.worker = Function.update s.worker t w) (hfiber : s'.fiber = s.fiber)
    (hqueue : s'.fibers = (scheduleNoLock s.fibers (.fiber (some f)) (-1)).2) :
    Solo t s' := by
  rw [scheduleNoLock_eq] at hqueue
  have hnotexec : ∀ g, (s.worker t).Sound t g (s.fiber g) (s.Queued g) →
      (s.fiber g).state ≠ .exec := by
    intro g hg hexec
    have hmay := hg.exec hexec
    rcases hsite with rfl | rfl <;> simp [Worker.mayExec, hpc] at hmay
  have hhand : ∀ f', (s.worker t).inHand t f' → f' = f := by
    intro f' hf'
    rcases hsite with rfl | rfl <;>
      simp only [Worker.inHand, hpc, Site.fiber, FiberRef.task.injEq] at hf' <;>
      exact hf'.symm
  have hmem : s'.Queued (.task f) := by
    refine ⟨{ fiber := some f, cb := none, thread := -1 }, ?_, rfl⟩
    rw [hqueue]
    simp [accepted, FiberAndThread.of, FiberAndThread.nonNull]
  have hsubset : s.fibers ⊆ s'.fibers := by
    rw [hqueue]
    exact List.subset_append_left _ _
  refine h.change (g := .task f) (x := s.fiber (.task f)) hwf hids halive hworker
    (by rw [hfiber, Function.update_eq_self]) hsubset ?_ ?_
  · intro hg
    exact (hg.queue (fun _ => hmem)).loop hloop (hnotexec _ hg) (fun _ _ _ _ => hmem)
  · intro g hne hg
    refine hg.loop hloop (hnotexec g hg) ?_
    rintro f' rfl _ hf'
    exact absurd (congrArg FiberRef.task (hhand f' hf')) hne

theorem Solo.setSaved {g : FiberRef} {saved : Bool} {w : Worker} (h : Solo t s)
    (hwf : WellFormed s') (hids : s'.threadIds = s.threadIds) (halive : s'.aborted = s.aborted)
    (hworker : s'.worker = Function.update s.worker t w)
    (hfiber : s'.fiber = Function.update s.fiber g { s.fiber g with saved := saved })
    (hqueue : s'.fibers = s.fibers)
    (hsound : ∀ g', (s.worker t).Sound t g' (s.fiber g') (s.Queued g') →
      w.Sound t g' (s.fiber g') (s.Queued g')) :
    Solo t s' := by
  refine h.change hwf hids halive hworker hfiber (by rw [hqueue]; exact List.Subset.refl _) ?_
    (fun g' _ => hsound g')
  intro hg
  rw [State.Queued, hqueue]
  exact (hsound g hg).setSaved saved

/-- After the switch back the fiber of the slice is the only one that may be in `EXEC`. -/
theorem fiber_eq_of_mayExec {w : Worker} {site : Site} {g : FiberRef}
    (hpc : w.pc = .slice site .testDone ∨ w.pc = .slice site .setHold) (hmay : w.mayExec t g) :
    site.fiber t = g := by
  rcases hpc with hpc | hpc
  · cases site <;> simp [Worker.mayExec, hpc] at hmay
    exact hmay
  · cases site <;> simp [Worker.mayExec, hpc] at hmay
    exact hmay

theorem Solo.slice {site : Site} {stage : Stage} (h : Solo t s) (hwf : WellFormed s')
    (hpc : (s.worker t).pc = .slice site stage) (hslice : SliceStep s t site stage o s') :
    Solo t s' := by
  have hfits := (h.sound (site.fiber t)).fits
  have hloop : ((s.worker t).endSite site).pc = .loop := by
    cases site <;> rfl
  cases hslice with
  | failsNotExec hexec =>
    simp only [Worker.Fits, hpc] at hfits
    exact absurd hexec (hfits trivial).1
  | assertNotExec =>
    simp only [Worker.Fits, hpc] at hfits
    refine h.goto hwf rfl rfl rfl rfl rfl (fun g hg => hg.goto ?_ ?_ ?_)
    · simp [Worker.mayExec, hpc]
    · simp [Worker.inHand, hpc]
    · rintro rfl
      exact (hfits trivial).2
  | setExec =>
    simp only [Worker.Fits, hpc] at hfits
    refine h.change hwf rfl rfl rfl rfl (List.Subset.refl _) ?_ ?_
    · intro hg
      have hunfinished := hg.unfinished (hfits trivial)
      refine ⟨?_, ?_, by simp, by simp, ?_⟩
      · simp [Worker.mayExec]
      · simp [hunfinished]
      · simp [Worker.Fits, hunfinished]
    · intro g hne hg
      refine hg.goto ?_ ?_ ?_
      · simp [Worker.mayExec, hpc]
      · rintro f rfl _ hhand
        simp only [Worker.inHand, hpc] at hhand
        exact absurd hhand.symm hne
      · intro hsite
        exact absurd hsite.symm hne
  | failsNeverGetHere hfinished =>
    simp only [Worker.Fits, hpc] at hfits
    rw [hfits trivial] at hfinished
    cases hfinished
  | restore hunfinished =>
    refine h.setSaved hwf rfl rfl rfl rfl rfl (fun g hg => hg.goto ?_ ?_ ?_)
    · simp [Worker.mayExec, hpc]
    · simp [Worker.inHand, hpc]
    · rintro rfl
      exact hunfinished
  | save =>
    refine h.setSaved hwf rfl rfl rfl rfl rfl (fun g hg => hg.goto ?_ ?_ trivial)
    · cases site <;> simp [Worker.mayExec, hpc]
    · simp [Worker.inHand, hpc]
  | switch | release | testReady =>
    refine h.goto hwf rfl rfl rfl rfl rfl (fun g hg => hg.goto ?_ ?_ trivial)
    · cases site <;> simp [Worker.mayExec, hpc]
    · simp [Worker.inHand, hpc]
  | wakes hsite =>
    subst hsite
    refine h.goto hwf rfl rfl rfl rfl rfl (fun g hg => hg.goto ?_ ?_ trivial)
    · simp [Worker.mayExec, hpc]
    · simp [Worker.inHand, hpc, Site.fiber]
  | testNotReady hnotready =>
    refine h.goto hwf rfl rfl rfl rfl rfl (fun g hg => hg.goto ?_ ?_ trivial)
    · cases site <;> simp [Worker.mayExec, hpc]
    · rintro f rfl hready hhand
      simp only [Worker.inHand, hpc] at hhand
      rw [hhand] at hnotready
      exact absurd hready hnotready
  | testDone hdone =>
    refine h.goto hwf rfl rfl rfl rfl rfl (fun g hg => hg.loop hloop ?_ ?_)
    · intro hexec
      rw [fiber_eq_of_mayExec (Or.inl hpc) (hg.exec hexec), Fiber.isDone, hexec] at hdone
      simp at hdone
    · intro f _ _ hhand
      simp [Worker.inHand, hpc] at hhand
  | testNotDone hdone =>
    refine h.goto hwf rfl rfl rfl rfl rfl (fun g hg => hg.goto ?_ ?_ ?_)
    · cases site <;> simp [Worker.mayExec, hpc]
    · simp [Worker.inHand, hpc]
    · rintro rfl
      exact hdone
  | requeue f hsite => exact h.requeue hwf hpc hsite rfl rfl hloop rfl rfl rfl
  | setHold =>
    simp only [Worker.Fits, hpc] at hfits
    refine h.change hwf rfl rfl rfl rfl (List.Subset.refl _) ?_ ?_
    · intro hg
      have hunfinished := hg.unfinished (hfits trivial)
      refine ⟨by simp, by simp [hunfinished], by simp, by simp, ?_⟩
      simp [Worker.Fits, hloop]
    · intro g hne hg
      refine hg.loop hloop ?_ ?_
      · intro hexec
        exact hne (fiber_eq_of_mayExec (Or.inr hpc) (hg.exec hexec)).symm
      · intro f _ _ hhand
        simp [Worker.inHand, hpc] at hhand

/-- A worker that scans has no fiber in `EXEC`. -/
theorem Solo.not_exec_of_scan (h : Solo t s) (hpc : (s.worker t).pc = .scan) (g : FiberRef) :
    (s.fiber g).state ≠ .exec := by
  intro hexec
  have hmay := (h.sound g).exec hexec
  simp [Worker.mayExec, hpc] at hmay

theorem Solo.finds {r : Scan} {e : FiberAndThread} (h : Solo t s)
    (hwf : WellFormed ({ s.acquire with fibers := r.rest }.setWorker t
      { s.worker t with pc := .dispatch, ft := e, isActive := true }))
    (hpc : (s.worker t).pc = .scan)
    (hscan : takeEntry t (fun f => (s.fiber (.task f)).state) s.fibers = some r)
    (htaken : r.taken = some e) :
    Solo t ({ s.acquire with fibers := r.rest }.setWorker t
      { s.worker t with pc := .dispatch, ft := e, isActive := true }) := by
  have hqueued : ∀ f, (s.fiber (.task f)).state = .ready → s.Queued (.task f) := by
    intro f hready
    refine ((h.sound (.task f)).ready f rfl hready).resolve_right ?_
    simp [Worker.inHand, hpc]
  obtain ⟨front, back, hsplit, hrest, _, _⟩ := h.wellFormed.scan_split hscan htaken
  refine ⟨hwf, h.ids, h.alive, ?_⟩
  intro g
  have hg := h.sound g
  simp only [State.setWorker, State.acquire, Function.update_self]
  refine ⟨fun hexec => absurd hexec (h.not_exec_of_scan hpc g), hg.finished, hg.idle, ?_, ?_⟩
  · -- an entry of the fiber is left, or it is the one that was taken
    rintro f rfl hready
    obtain ⟨e', he', hf⟩ := hqueued f hready
    rw [hsplit] at he'
    simp only [State.Queued, hrest]
    simp only [List.mem_append, List.mem_cons] at he'
    rcases he' with hfront | rfl | hback
    · exact Or.inl ⟨e', List.mem_append_left _ hfront, hf⟩
    · exact Or.inr (by simpa [Worker.inHand] using hf)
    · exact Or.inl ⟨e', List.mem_append_right _ hback, hf⟩
  · exact fun _ => h.not_exec_of_scan hpc g

theorem Solo.dispatch (h : Solo t s)
    (hwf : WellFormed (s.setWorker t { s.worker t with pc := dispatch s (s.worker t) }))
    (hpc : (s.worker t).pc = .dispatch) :
    Solo t (s.setWorker t { s.worker t with pc := Scheduler.dispatch s (s.worker t) }) := by
  refine h.goto hwf rfl rfl rfl rfl rfl (fun g hg => hg.goto ?_ ?_ ?_)
  · simp [Worker.mayExec, hpc]
  · rintro f rfl hready hhand
    simp only [Worker.inHand, hpc] at hhand
    simp [Worker.inHand, Scheduler.dispatch, hhand, Fiber.isDone, hready, Site.fiber]
  · have hfits := hg.fits
    simp only [Worker.Fits, hpc] at hfits
    rcases dispatch_cases s (s.worker t) with ⟨f, hf, hdone, hd⟩ | ⟨_, hd⟩ | hd | hd
    · simp only [Worker.Fits, hd]
      rintro rfl
      exact ⟨hfits (by simp [hf, Site.fiber]), hdone⟩
    · simp [Worker.Fits, hd]
    · simp [Worker.Fits, hd]
    · simp [Worker.Fits, hd]

theorem Solo.advance (h : Solo t s) (hwf : WellFormed s') (hworker : WorkerStep s t o s') :
    Solo t s' := by
  cases hworker with
  | failsEntryNonNull _ hscan => exact absurd hscan h.wellFormed.takeEntry_ne_none
  | finds hpc hscan htaken => exact h.finds hwf hpc hscan htaken
  | findsNone hpc =>
    refine h.goto hwf rfl rfl rfl rfl rfl (fun g hg => hg.goto ?_ ?_ ?_)
    · exact fun hexec => absurd hexec (h.not_exec_of_scan hpc g)
    · simp [Worker.inHand, hpc]
    · exact fun _ => h.not_exec_of_scan hpc g
  | dispatch hpc => exact h.dispatch hwf hpc
  | spawn hpc =>
    rw [h.wellFormed.spawn_eq hpc] at hwf ⊢
    refine h.change hwf rfl rfl rfl rfl (List.Subset.refl _)
      (fun _ => Worker.sound_new _ _ _ _) ?_
    intro g hne hg
    refine hg.goto ?_ ?_ ?_
    · simp [Worker.mayExec, hpc]
    · simp [Worker.inHand, hpc]
    · intro hsite
      exact absurd hsite.symm hne
  | drop hpc | exit hpc =>
    refine h.goto hwf rfl rfl rfl rfl rfl (fun g hg => hg.goto ?_ ?_ trivial)
    · simp [Worker.mayExec, hpc]
    · simp [Worker.inHand, hpc]
  | idleTest hpc hterm =>
    refine h.goto hwf rfl rfl rfl rfl rfl (fun g hg => hg.goto ?_ ?_ ?_)
    · simp [Worker.mayExec, hpc]
    · simp [Worker.inHand, hpc]
    · rintro rfl
      exact hterm
  | idleEnter hpc =>
    refine h.goto hwf rfl rfl rfl rfl rfl (fun g hg => hg.goto ?_ ?_ ?_)
    · simp [Worker.mayExec, hpc]
    · simp [Worker.inHand, hpc]
    · -- the idle fiber is neither running nor finished
      rintro rfl
      have hterm := hg.fits
      simp only [Worker.Fits, hpc] at hterm
      constructor
      · intro hexec
        have hmay := hg.exec hexec
        simp [Worker.mayExec, hpc] at hmay
      · simp only [Fiber.isDone, Bool.or_eq_false_iff, beq_eq_false_iff_ne]
        exact ⟨hterm rfl, hg.idle rfl⟩
  | slice hpc hslice => exact h.slice hwf hpc hslice

theorem Solo.endSlice {site : Site} {how : SliceEnd} (h : Solo t s)
    (hpc : (s.worker t).pc = .slice site .running)
    (hwf : WellFormed
      ((s.setFiber (site.fiber t) (how.leave (s.fiber (site.fiber t)))).setWorker t
        { s.worker t with pc := .slice site .save }))
    (hP : Orderly s (.endSlice t how)) :
    Solo t ((s.setFiber (site.fiber t) (how.leave (s.fiber (site.fiber t)))).setWorker t
      { s.worker t with pc := .slice site .save }) := by
  have hfits := (h.sound (site.fiber t)).fits
  simp only [Worker.Fits, hpc] at hfits
  have hunfinished := hfits trivial
  simp only [Orderly, hpc] at hP
  refine h.change hwf rfl rfl rfl rfl (List.Subset.refl _) ?_ ?_
  · intro hg
    refine ⟨?_, ?_, ?_, ?_, trivial⟩
    · cases site <;> cases how <;> simp_all [SliceEnd.leave, Worker.mayExec, Site.fiber]
    · cases how <;> simp_all [SliceEnd.leave, Fiber.isDone]
    · cases site <;> cases how <;> simp_all [SliceEnd.leave, Site.fiber]
      exact hg.idle rfl
    · intro f hf _
      exact Or.inr hf
  · intro g hne hg
    refine hg.goto ?_ ?_ trivial
    · intro _ hmay
      simp only [Worker.mayExec, hpc] at hmay
      exact absurd hmay.symm hne
    · simp [Worker.inHand, hpc]

theorem Solo.enqueue {fibers es : List FiberAndThread} (h : Solo t s)
    (hwf : WellFormed { s with fibers := fibers }) (hfibers : fibers = s.fibers ++ es) :
    Solo t { s with fibers := fibers } := by
  refine ⟨hwf, h.ids, h.alive, fun g => (h.sound g).queue ?_⟩
  rintro ⟨e, he, hf⟩
  refine ⟨e, ?_, hf⟩
  rw [hfibers]
  exact List.mem_append_left es he

theorem Solo.step {l : Label} (h : Solo t s) (hP : Orderly s l)
    (hstep : step s l = some (o, s')) :
    Solo t s' := by
  have hwf := h.wellFormed.step hstep
  have hsolo : ∀ u ∈ s.threadIds, u = t := by
    intro u hu
    rw [h.ids, List.mem_singleton] at hu
    exact hu
  cases processStep_of_step hstep with
  | newFiber =>
    refine h.change (w := s.worker t) hwf rfl rfl (Function.update_eq_self t s.worker).symm
      rfl (List.Subset.refl _) (fun _ => Worker.sound_new _ _ _ _) (fun _ _ hg => hg)
  | schedule => exact h.enqueue hwf (scheduleNoLock_eq s.fibers _ _)
  | scheduleAll => exact h.enqueue hwf (scheduleAllNoLock_eq s.fibers _)
  | setAutoStops | setStopping => exact ⟨hwf, h.ids, h.alive, h.sound⟩
  | leaves hu hpc | loops hu hpc =>
    cases hsolo _ hu
    refine h.goto hwf rfl rfl rfl rfl rfl (fun g hg => hg.goto ?_ ?_ trivial)
    · simp [Worker.mayExec, hpc]
    · simp [Worker.inHand, hpc]
  | advance hu hworker =>
    cases hsolo _ hu
    exact h.advance hwf hworker
  | endSlice how hu hpc =>
    cases hsolo _ hu
    exact h.endSlice hpc hwf hP

theorem started_solo (t : ThreadId) :
    Solo t (State.started [t]) where
  wellFormed := started_wellFormed [t]
  ids := rfl
  alive := rfl
  sound _ := Worker.sound_new _ _ _ _

/--
With one worker, tasks that end their slices by a yield, a return or an exception and an
idle function that does not throw: whenever control is in `run` no task is in `EXEC`, and
the idle fiber only until the end of the iteration that ran it; a task in `READY` is in the
queue or in the hands of `run`; `swapIn` is not called on a finished fiber and none is
resumed; and no assertion fails.
-/
theorem single_worker_fibers (t : ThreadId)
    (hreach : system.ReachableWhen Orderly (State.started [t]) s) :
    FibersOk t s := by
  have hsolo : Solo t s :=
    hreach.invariant (fun _ _ _ _ h hP hstep => h.step hP hstep) (started_solo t)
  exact hsolo.fibersOk

end Invariant

section Runs

/-- Task 0 is queued twice, taken, and yields as `READY` after its first slice. -/
def queuedTwice : List Label :=
  [.newFiber, .schedule (.fiber (some 0)) (-1), .schedule (.fiber (some 0)) (-1),
    .testStopping 1 true] ++ List.replicate 5 (.advance 1) ++
    [.endSlice 1 .yieldToReady] ++ List.replicate 5 (.advance 1)

theorem single_worker_fibers_queued_twice :
    ∃ s, system.ReachableWhen Orderly (State.started [1]) s ∧
      ((s.fiber (.task 0)).state = .ready ∧ (s.worker 1).pc = .loop ∧ s.fibers.length = 2) ∧
      FibersOk 1 s := by
  obtain ⟨s, hreach, hs⟩ :=
    System.exists_reachableWhen (M := system) (P := Orderly) (State.started [1]) queuedTwice
      (fun s => (s.fiber (.task 0)).state = .ready ∧ (s.worker 1).pc = .loop ∧
        s.fibers.length = 2)
      (by decide +kernel)
  exact ⟨s, hreach, hs, single_worker_fibers 1 hreach⟩

/-- The idle fiber leaves by `swapOut` alone. -/
def idleSwapsOut : List Label :=
  .testStopping 1 true :: List.replicate 7 (.advance 1) ++
    [.endSlice 1 .swapOut] ++ List.replicate 2 (.advance 1)

/-- A task yields as `READY`. -/
def taskYields : List Label :=
  [.newFiber, .schedule (.fiber (some 0)) (-1), .testStopping 1 true] ++
    List.replicate 5 (.advance 1) ++ [.endSlice 1 .yieldToReady] ++
    List.replicate 2 (.advance 1)

/-- Right after `swapIn` has returned, the idle fiber may be in `EXEC`, and a task in
`READY` is not yet back in the queue. -/
theorem exec_or_ready_after_swapIn :
    (∃ s, system.ReachableWhen Orderly (State.started [1]) s ∧
      (s.worker 1).pc.inRun = true ∧ (s.fiber (.idle 1)).state = .exec) ∧
    ∃ s, system.ReachableWhen Orderly (State.started [1]) s ∧
      (s.worker 1).pc.inRun = true ∧ (s.fiber (.task 0)).state = .ready ∧ s.fibers = [] := by
  constructor
  · exact System.exists_reachableWhen (M := system) (P := Orderly) (State.started [1])
      idleSwapsOut
      (fun s => (s.worker 1).pc.inRun = true ∧ (s.fiber (.idle 1)).state = .exec)
      (by decide +kernel)
  · exact System.exists_reachableWhen (M := system) (P := Orderly) (State.started [1])
      taskYields
      (fun s => (s.worker 1).pc.inRun = true ∧ (s.fiber (.task 0)).state = .ready ∧ s.fibers = [])
      (by decide +kernel)

end Runs

end Scheduler
end Civan
