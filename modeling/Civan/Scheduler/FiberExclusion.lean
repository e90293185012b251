import Civan.Scheduler.WellFormed

/-!
# One worker at a time on a fiber

A worker claims a fiber from the moment it takes the entry from the queue until
the `swapOut` that ends the slice has returned.  The guard of `run` is the test
of `m_state` under the queue lock, but `m_state` becomes `EXEC` only after the
lock is released, and `HOLD` or `READY` before the context is saved: a second
entry for the same fiber can be taken in both windows.

If no worker takes an entry whose fiber another worker claims, the claims stay
exclusive in every interleaving, and with them the stack of every fiber.
-/

namespace Civan
namespace Scheduler

open Transition

section Claims

/-- The fiber a worker has taken and not yet left. -/
def Worker.claimed (self : ThreadId) (w : Worker) : Option FiberRef :=
  match w.pc with
  | .dispatch => w.ft.fiber.map FiberRef.task
  | .slice site stage => if stage.inside then some (site.fiber self) else none
  | _ => none

/-- The worker is between `swapIn` and the return of `swapOut` on `f`. -/
def Worker.Inside (self : ThreadId) (w : Worker) (f : FiberRef) : Prop :=
  ∃ site stage, w.pc = .slice site stage ∧ stage.inside = true ∧ site.fiber self = f

theorem Worker.Inside.claimed {self : ThreadId} {w : Worker} {f : FiberRef}
    (h : w.Inside self f) :
    w.claimed self = some f := by
  obtain ⟨site, stage, hpc, hinside, hf⟩ := h
  simp [Worker.claimed, hpc, hinside, hf]

/-- The fiber whose entry the next step of thread `t` takes from the queue. -/
def State.taking (s : State) (t : ThreadId) : Option TaskId :=
  if (s.worker t).pc = .scan then
    ((takeEntry t (fun f => (s.fiber (.task f)).state) s.fibers).bind Scan.taken).bind
      FiberAndThread.fiber
  else
    none

/-- No entry is taken for a fiber that another worker claims. -/
def TakesUnclaimed (s : State) : Label → Prop
  | .advance t =>
    ∀ f ∈ s.taking t, ∀ u ∈ s.threadIds, u ≠ t → (s.worker u).claimed u ≠ some (.task f)
  | _ => True

instance (s : State) (l : Label) : Decidable (TakesUnclaimed s l) := by
  cases l <;> unfold TakesUnclaimed <;> infer_instance

/--
No fiber is executed by two workers, none is continued from a context that its
last worker has not saved, and the assertion in `swapIn` has not failed.
-/
structure SwapSafe (s : State) : Prop where
  exclusive : ∀ t u f, (s.worker t).Inside t f → (s.worker u).Inside u f → t = u
  resumes_saved : ∀ t site, (s.worker t).pc = .slice site .restore →
    (s.fiber (site.fiber t)).saved = true
  assert_holds : s.aborted ≠ some .notExec

/-- What a worker relies on in the fiber it claims. -/
def Worker.Needs (w : Worker) (x : Fiber) : Prop :=
  match w.pc with
  | .dispatch | .slice _ .assertNotExec => x.saved = true ∧ x.state ≠ .exec
  | .slice _ .setExec | .slice _ .restore | .slice _ .switch => x.saved = true
  | _ => True

/-- A change to a fiber that no worker relying on it can notice. -/
structure Harmless (x y : Fiber) : Prop where
  saved : x.saved = true → y.saved = true
  exec : y.state = .exec → x.state = .exec

theorem Harmless.refl (x : Fiber) : Harmless x x :=
  ⟨id, id⟩

theorem Worker.Needs.mono {w : Worker} {x y : Fiber} (h : w.Needs x) (hxy : Harmless x y) :
    w.Needs y := by
  have hboth : x.saved = true ∧ x.state ≠ .exec → y.saved = true ∧ y.state ≠ .exec :=
    fun hx => ⟨hxy.saved hx.1, fun hy => hx.2 (hxy.exec hy)⟩
  unfold Worker.Needs at h ⊢
  split <;> simp_all [hxy.saved]

/-- A fiber is claimed by one worker, which finds it as it needs it. -/
structure ClaimsOk (s : State) : Prop where
  unique : ∀ t u f, (s.worker t).claimed t = some f → (s.worker u).claimed u = some f → t = u
  needs : ∀ t f, (s.worker t).claimed t = some f → (s.worker t).Needs (s.fiber f)
  saved : ∀ f, (∀ t, (s.worker t).claimed t ≠ some f) → (s.fiber f).saved = true
  idle_exec : ∀ t, (s.fiber (.idle t)).state = .exec →
    ∃ stage, (s.worker t).pc = .slice .idle stage
  assert_holds : s.aborted ≠ some .notExec

theorem ClaimsOk.swapSafe {s : State} (h : ClaimsOk s) :
    SwapSafe s where
  exclusive t u f ht hu := h.unique t u f ht.claimed hu.claimed
  resumes_saved t site hpc := by
    have hclaimed : (s.worker t).claimed t = some (site.fiber t) := by
      simp [Worker.claimed, hpc, Stage.inside]
    simpa [Worker.Needs, hpc] using h.needs t _ hclaimed
  assert_holds := h.assert_holds

theorem started_claimsOk (threadIds : List ThreadId) :
    ClaimsOk (State.started threadIds) where
  unique t u f ht := by simp [State.started, Worker.start, Worker.claimed] at ht
  needs t f ht := by simp [State.started, Worker.start, Worker.claimed] at ht
  saved _ _ := rfl
  idle_exec t ht := by simp [State.started, Fiber.new] at ht
  assert_holds := by simp [State.started]

/-- The idle fiber of a thread is claimed by that thread only. -/
theorem Worker.claimed_idle {t u : ThreadId} {w : Worker}
    (hclaim : w.claimed u = some (.idle t)) :
    u = t := by
  unfold Worker.claimed at hclaim
  split at hclaim
  · obtain ⟨g, _, hg⟩ := Option.map_eq_some_iff.mp hclaim
    cases hg
  · rename_i site stage _
    split_ifs at hclaim
    rw [Option.some.injEq] at hclaim
    cases site with
    | entry g => cases hclaim
    | callback g => cases hclaim
    | idle =>
      cases hclaim
      rfl
  · cases hclaim

/-- Outside its idle branch a worker's idle fiber is not in `EXEC`. -/
theorem ClaimsOk.idle_not_exec {s : State} {t : ThreadId} (h : ClaimsOk s)
    (hpc : ∀ stage, (s.worker t).pc ≠ .slice .idle stage) :
    (s.fiber (.idle t)).state ≠ .exec := by
  intro hexec
  obtain ⟨stage, hstage⟩ := h.idle_exec t hexec
  exact hpc stage hstage

end Claims

section Moves

variable {s s' : State} {t : ThreadId} {w : Worker}

/-- The step of one worker: what it claims now, what it left, and the rest. -/
theorem ClaimsOk.move (h : ClaimsOk s) (hworker : s'.worker = Function.update s.worker t w)
    (haborted : s'.aborted = s.aborted)
    (hexcl : ∀ f, w.claimed t = some f → ∀ u, u ≠ t → (s.worker u).claimed u ≠ some f)
    (hneeds : ∀ f, w.claimed t = some f → w.Needs (s'.fiber f))
    (hleft : ∀ f, (s.worker t).claimed t = some f → w.claimed t ≠ some f →
      (s'.fiber f).saved = true)
    (hothers : ∀ f, (s.worker t).claimed t ≠ some f → w.claimed t ≠ some f →
      Harmless (s.fiber f) (s'.fiber f))
    (hidle : (s'.fiber (.idle t)).state = .exec → ∃ stage, w.pc = .slice .idle stage) :
    ClaimsOk s' := by
  have hself : s'.worker t = w := by rw [hworker, Function.update_self]
  have hother : ∀ u, u ≠ t → s'.worker u = s.worker u := by
    intro u hu
    rw [hworker, Function.update_of_ne hu]
  -- a fiber claimed by another worker is none of this worker's, before or after
  have hforeign : ∀ u f, u ≠ t → (s.worker u).claimed u = some f →
      (s.worker t).claimed t ≠ some f ∧ w.claimed t ≠ some f := by
    intro u f hu hclaim
    exact ⟨fun ht => hu (h.unique u t f hclaim ht), fun ht => hexcl f ht u hu hclaim⟩
  refine ⟨?_, ?_, ?_, ?_, ?_⟩
  · intro a b f ha hb
    by_cases hat : a = t <;> by_cases hbt : b = t
    · rw [hat, hbt]
    · subst hat
      rw [hself] at ha
      rw [hother b hbt] at hb
      exact absurd hb (hexcl f ha b hbt)
    · subst hbt
      rw [hself] at hb
      rw [hother a hat] at ha
      exact absurd ha (hexcl f hb a hat)
    · rw [hother a hat] at ha
      rw [hother b hbt] at hb
      exact h.unique a b f ha hb
  · intro u f hclaim
    by_cases hu : u = t
    · subst hu
      rw [hself] at hclaim ⊢
      exact hneeds f hclaim
    · rw [hother u hu] at hclaim ⊢
      obtain ⟨hbefore, hafter⟩ := hforeign u f hu hclaim
      exact (h.needs u f hclaim).mono (hothers f hbefore hafter)
  · intro f hfree
    have hafter : w.claimed t ≠ some f := by
      have := hfree t
      rwa [hself] at this
    by_cases hbefore : (s.worker t).claimed t = some f
    · exact hleft f hbefore hafter
    · refine (hothers f hbefore hafter).saved (h.saved f ?_)
      intro u
      by_cases hu : u = t
      · rw [hu]
        exact hbefore
      · have := hfree u
        rwa [hother u hu] at this
  · intro u hexec
    by_cases hu : u = t
    · subst hu
      rw [hself]
      exact hidle hexec
    · have hown : ∀ v : Worker, v.claimed t ≠ some (.idle u) :=
        fun v hv => hu (Worker.claimed_idle hv).symm
      rw [hother u hu]
      exact h.idle_exec u ((hothers _ (hown _) (hown _)).exec hexec)
  · rw [haborted]
    exact h.assert_holds

theorem ClaimsOk.hold {g : FiberRef} (h : ClaimsOk s)
    (hbefore : ∀ f, (s.worker t).claimed t = some f → f = g) (hclaim' : w.claimed t = some g)
    (hworker : s'.worker = Function.update s.worker t w) (haborted : s'.aborted = s.aborted)
    (hfree : ∀ u, u ≠ t → (s.worker u).claimed u ≠ some g)
    (hfiber : ∀ f, f ≠ g → s'.fiber f = s.fiber f) (hneeds : w.Needs (s'.fiber g))
    (hidle : (s'.fiber (.idle t)).state = .exec → ∃ stage, w.pc = .slice .idle stage) :
    ClaimsOk s' := by
  have hg : ∀ f, w.claimed t = some f → f = g := by
    intro f hf
    rw [hclaim', Option.some.injEq] at hf
    exact hf.symm
  refine h.move hworker haborted ?_ ?_ ?_ ?_ hidle
  · intro f hf
    rw [hg f hf]
    exact hfree
  · intro f hf
    rw [hg f hf]
    exact hneeds
  · intro f hf hf'
    exact absurd (hbefore f hf ▸ hclaim') hf'
  · intro f _ hf'
    have hne : f ≠ g := fun heq => hf' (heq ▸ hclaim')
    rw [hfiber f hne]
    exact Harmless.refl _

theorem ClaimsOk.keep {g : FiberRef} (h : ClaimsOk s) (hclaim : (s.worker t).claimed t = some g)
    (hclaim' : w.claimed t = some g) (hworker : s'.worker = Function.update s.worker t w)
    (haborted : s'.aborted = s.aborted) (hfiber : ∀ f, f ≠ g → s'.fiber f = s.fiber f)
    (hneeds : w.Needs (s'.fiber g))
    (hidle : (s'.fiber (.idle t)).state = .exec → ∃ stage, w.pc = .slice .idle stage) :
    ClaimsOk s' := by
  refine h.hold ?_ hclaim' hworker haborted ?_ hfiber hneeds hidle
  · intro f hf
    rw [hclaim, Option.some.injEq] at hf
    exact hf.symm
  · exact fun u hu hclaimed => hu (h.unique u t g hclaimed hclaim)

theorem ClaimsOk.leave (h : ClaimsOk s) (hclaim' : w.claimed t = none)
    (hworker : s'.worker = Function.update s.worker t w) (haborted : s'.aborted = s.aborted)
    (hleft : ∀ f, (s.worker t).claimed t = some f → (s.fiber f).saved = true)
    (hfiber : ∀ f, Harmless (s.fiber f) (s'.fiber f))
    (hidle : (s'.fiber (.idle t)).state = .exec → ∃ stage, w.pc = .slice .idle stage) :
    ClaimsOk s' := by
  have hnone : ∀ f, w.claimed t ≠ some f := by
    intro f
    rw [hclaim']
    simp
  refine h.move hworker haborted ?_ ?_ ?_ ?_ hidle
  · exact fun f hf => absurd hf (hnone f)
  · exact fun f hf => absurd hf (hnone f)
  · exact fun f hf _ => (hfiber f).saved (hleft f hf)
  · exact fun f _ _ => hfiber f

theorem ClaimsOk.claim {g : FiberRef} (h : ClaimsOk s) (hclaim : (s.worker t).claimed t = none)
    (hclaim' : w.claimed t = some g) (hworker : s'.worker = Function.update s.worker t w)
    (haborted : s'.aborted = s.aborted) (hfree : ∀ u, u ≠ t → (s.worker u).claimed u ≠ some g)
    (hfiber : ∀ f, f ≠ g → s'.fiber f = s.fiber f) (hneeds : w.Needs (s'.fiber g))
    (hidle : (s'.fiber (.idle t)).state = .exec → ∃ stage, w.pc = .slice .idle stage) :
    ClaimsOk s' := by
  refine h.hold ?_ hclaim' hworker haborted hfree hfiber hneeds hidle
  intro f hf
  rw [hclaim] at hf
  cases hf

/-- A step of the environment that no worker can notice. -/
theorem ClaimsOk.quiet (h : ClaimsOk s) (hworker : s'.worker = s.worker)
    (haborted : s'.aborted = s.aborted) (hfiber : ∀ f, Harmless (s.fiber f) (s'.fiber f)) :
    ClaimsOk s' where
  unique a b f := by
    rw [hworker]
    exact h.unique a b f
  needs a f := by
    rw [hworker]
    exact fun hclaim => (h.needs a f hclaim).mono (hfiber f)
  saved f := by
    rw [hworker]
    exact fun hfree => (hfiber f).saved (h.saved f hfree)
  idle_exec a hexec := by
    rw [hworker]
    exact h.idle_exec a ((hfiber _).exec hexec)
  assert_holds := by
    rw [haborted]
    exact h.assert_holds

end Moves

section Steps

variable {s s' : State} {t : ThreadId} {o : Event}

/-- A claimed task exists, so a task that is yet to be made is claimed by no one. -/
theorem WellFormed.claimed_lt (hwf : WellFormed s) {f : TaskId}
    (hclaim : (s.worker t).claimed t = some (.task f)) :
    f < s.taskCount := by
  have hw := hwf.worker t
  unfold Worker.claimed at hclaim
  split at hclaim
  · rename_i hpc
    obtain ⟨g, hg, hgf⟩ := Option.map_eq_some_iff.mp hclaim
    cases hgf
    exact hw.ft_known f hg
  · rename_i site stage hpc
    split_ifs at hclaim
    rw [Option.some.injEq] at hclaim
    have hsite := hw.site_known site stage hpc
    cases site with
    | entry g =>
      cases hclaim
      exact hsite
    | callback g =>
      cases hclaim
      exact hsite
    | idle => cases hclaim
  · cases hclaim

theorem Worker.claimed_endSite (w : Worker) (site : Site) :
    (w.endSite site).claimed t = none := by
  cases site <;> rfl

/-- Setting a fiber's `m_state` to anything but `EXEC` disturbs no other worker. -/
theorem harmless_setState (s : State) (f : FiberRef) {st : FiberState}
    (hst : st ≠ .exec) (g : FiberRef) :
    Harmless (s.fiber g) ((s.setState f st).fiber g) := by
  by_cases hg : g = f
  · subst hg
    simp only [State.setState, State.setFiber, Function.update_self]
    exact ⟨id, fun h => absurd h hst⟩
  · simp only [State.setState, State.setFiber, Function.update_of_ne hg]
    exact Harmless.refl _

/-- A write to the fiber of the call site leaves the other fibers alone. -/
theorem setFiber_fiber_of_ne {f g : FiberRef} (x : Fiber) (hf : f ≠ g) :
    (s.setFiber g x).fiber f = s.fiber f := by
  simp [State.setFiber, Function.update_of_ne hf]

/-- While a worker stays in a slice, its idle fiber is in `EXEC` only if it runs it. -/
theorem ClaimsOk.idle_slice {site : Site} {stage : Stage} {fiber : FiberRef → Fiber}
    (h : ClaimsOk s) (hpc : (s.worker t).pc = .slice site stage)
    (hfiber : ∀ f, f ≠ site.fiber t → fiber f = s.fiber f) (stage' : Stage)
    (hexec : (fiber (.idle t)).state = .exec) :
    ∃ st, Pc.slice site stage' = .slice .idle st := by
  by_cases hsite : site = .idle
  · rw [hsite]
    exact ⟨stage', rfl⟩
  · have hne : FiberRef.idle t ≠ site.fiber t := by
      cases site <;> simp_all [Site.fiber]
    rw [hfiber _ hne] at hexec
    refine absurd hexec (h.idle_not_exec ?_)
    intro st hst
    rw [hpc, Pc.slice.injEq] at hst
    exact hsite hst.1

/-- The stages between `swapIn` and `swapOut`: the worker keeps its fiber or leaves it. -/
theorem ClaimsOk.sliceInside {site : Site} {stage : Stage} (h : ClaimsOk s)
    (hpc : (s.worker t).pc = .slice site stage) (hinside : stage.inside = true)
    (hslice : SliceStep s t site stage o s') :
    ClaimsOk s' := by
  have hclaim : (s.worker t).claimed t = some (site.fiber t) := by
    simp [Worker.claimed, hpc, hinside]
  have hneeds := h.needs t _ hclaim
  have hoff : ∀ x f, f ≠ site.fiber t → (s.setFiber (site.fiber t) x).fiber f = s.fiber f :=
    fun x f hf => setFiber_fiber_of_ne x hf
  cases hslice with
  | failsNotExec hexec =>
    simp only [Worker.Needs, hpc] at hneeds
    exact absurd hexec hneeds.2
  | assertNotExec =>
    simp only [Worker.Needs, hpc] at hneeds
    exact h.keep hclaim rfl rfl rfl (fun _ _ => rfl) hneeds.1
      (h.idle_slice hpc (fun _ _ => rfl) _)
  | setExec =>
    simp only [Worker.Needs, hpc] at hneeds
    refine h.keep hclaim rfl rfl rfl (hoff _) ?_ (h.idle_slice hpc (hoff _) _)
    simpa [Worker.Needs, State.setState, State.setFiber, State.setWorker] using hneeds
  | failsNeverGetHere => exact ⟨h.unique, h.needs, h.saved, h.idle_exec, by simp [State.abort]⟩
  | restore => exact h.keep hclaim rfl rfl rfl (hoff _) trivial (h.idle_slice hpc (hoff _) _)
  | save =>
    refine h.keep hclaim rfl rfl rfl (hoff _) ?_ (h.idle_slice hpc (hoff _) _)
    simp [Worker.Needs, State.setFiber, State.setWorker]
  | switch =>
    simp only [Worker.Needs, hpc] at hneeds
    refine h.leave rfl rfl rfl ?_ (fun f => Harmless.refl _)
      (h.idle_slice hpc (fun _ _ => rfl) _)
    intro f hf
    rw [hclaim, Option.some.injEq] at hf
    rw [← hf]
    exact hneeds
  | wakes | release | testReady | testNotReady | testDone | testNotDone | requeue | setHold =>
    cases hinside

/-- The stages after `swapOut`: the worker claims nothing and only the write of `HOLD`
touches a fiber. -/
theorem ClaimsOk.sliceOutside {site : Site} {stage : Stage} (h : ClaimsOk s)
    (hpc : (s.worker t).pc = .slice site stage) (houtside : stage.inside = false)
    (hslice : SliceStep s t site stage o s') :
    ClaimsOk s' := by
  have hleft : ∀ f, (s.worker t).claimed t = some f → (s.fiber f).saved = true := by
    simp [Worker.claimed, hpc, houtside]
  have hidle : ∀ stage', (s.fiber (.idle t)).state = .exec →
      ∃ st, Pc.slice site stage' = .slice .idle st :=
    h.idle_slice hpc (fun _ _ => rfl)
  have hend := Worker.claimed_endSite (t := t) (s.worker t) site
  cases hslice with
  | failsNotExec | assertNotExec | setExec | failsNeverGetHere | restore | save | switch =>
    cases houtside
  | wakes | release | testReady | testNotReady | testNotDone =>
    exact h.leave rfl rfl rfl hleft (fun f => Harmless.refl _) (hidle _)
  | testDone hdone =>
    refine h.leave hend rfl rfl hleft (fun f => Harmless.refl _) ?_
    intro hexec
    obtain ⟨st, hst⟩ := hidle .testDone hexec
    rw [Pc.slice.injEq] at hst
    rw [hst.1] at hdone
    change (s.fiber (.idle t)).isDone = true at hdone
    change (s.fiber (.idle t)).state = .exec at hexec
    simp [Fiber.isDone, hexec] at hdone
  | requeue f hsite =>
    refine h.leave hend rfl rfl hleft (fun f => Harmless.refl _) ?_
    intro hexec
    obtain ⟨st, hst⟩ := hidle .requeue hexec
    rw [Pc.slice.injEq] at hst
    rcases hsite with rfl | rfl <;> cases hst.1
  | setHold =>
    -- the fiber may be claimed by another worker by now; the late write is harmless
    refine h.leave hend rfl rfl hleft (harmless_setState s _ (by simp)) ?_
    intro hexec
    have hbefore : (s.fiber (.idle t)).state = .exec :=
      (harmless_setState s (site.fiber t) (by simp) (.idle t)).exec hexec
    obtain ⟨st, hst⟩ := hidle .setHold hbefore
    rw [Pc.slice.injEq] at hst
    rw [hst.1] at hexec
    simp [State.setState, State.setFiber, State.setWorker, Site.fiber] at hexec

/-- A fiber that no other worker claims is claimed by no one when `t` claims nothing. -/
theorem ClaimsOk.saved_of_free (h : ClaimsOk s) {f : FiberRef}
    (hclaim : (s.worker t).claimed t = none)
    (hfree : ∀ u, u ≠ t → (s.worker u).claimed u ≠ some f) :
    (s.fiber f).saved = true := by
  refine h.saved f ?_
  intro u
  by_cases hu : u = t
  · rw [hu, hclaim]
    simp
  · exact hfree u hu

theorem ClaimsOk.finds {r : Scan} {e : FiberAndThread} (h : ClaimsOk s) (hwf : WellFormed s)
    (hfree : TakesUnclaimed s (.advance t)) (hpc : (s.worker t).pc = .scan)
    (hscan : takeEntry t (fun f => (s.fiber (.task f)).state) s.fibers = some r)
    (htaken : r.taken = some e) :
    ClaimsOk ({ s.acquire with fibers := r.rest }.setWorker t
      { s.worker t with pc := .dispatch, ft := e, isActive := true }) := by
  have hclaim : (s.worker t).claimed t = none := by simp [Worker.claimed, hpc]
  have hidle : (s.fiber (.idle t)).state = .exec → ∃ stage, Pc.dispatch = .slice .idle stage :=
    fun hexec => absurd hexec (h.idle_not_exec (by simp [hpc]))
  cases hf : e.fiber with
  | none =>
    refine h.leave ?_ rfl rfl (by simp [hclaim]) (fun f => Harmless.refl _) hidle
    simp [Worker.claimed, hf]
  | some f =>
    have htaking : s.taking t = some f := by simp [State.taking, hpc, hscan, htaken, hf]
    have hunclaimed : ∀ u, u ≠ t → (s.worker u).claimed u ≠ some (.task f) := by
      intro u hu
      by_cases hmem : u ∈ s.threadIds
      · exact hfree f htaking u hmem hu
      · simp [hwf.outside u hmem, Worker.start, Worker.claimed]
    refine h.claim hclaim (g := .task f) ?_ rfl rfl hunclaimed (fun _ _ => rfl) ?_ hidle
    · simp [Worker.claimed, hf]
    · exact ⟨h.saved_of_free hclaim hunclaimed, (takeEntry_taken hscan htaken).2 f hf⟩

theorem ClaimsOk.advanceDispatch (h : ClaimsOk s) (hpc : (s.worker t).pc = .dispatch) :
    ClaimsOk (s.setWorker t { s.worker t with pc := dispatch s (s.worker t) }) := by
  have hidle := h.idle_not_exec (t := t) (by simp [hpc])
  have hneeds : ∀ f, (s.worker t).claimed t = some f →
      (s.fiber f).saved = true ∧ (s.fiber f).state ≠ .exec := by
    intro f hf
    simpa [Worker.Needs, hpc] using h.needs t f hf
  rcases dispatch_cases s (s.worker t) with ⟨f, hf, _, hd⟩ | ⟨_, hd⟩ | hd | hd <;> rw [hd]
  · have hclaim : (s.worker t).claimed t = some (.task f) := by simp [Worker.claimed, hpc, hf]
    exact h.keep hclaim rfl rfl rfl (fun _ _ => rfl) (hneeds _ hclaim)
      (fun hexec => absurd hexec hidle)
  all_goals
    exact h.leave rfl rfl rfl (fun f hf => (hneeds f hf).1) (fun f => Harmless.refl _)
      (fun hexec => absurd hexec hidle)

theorem ClaimsOk.advance (h : ClaimsOk s) (hwf : WellFormed s)
    (hfree : TakesUnclaimed s (.advance t)) (hworker : WorkerStep s t o s') :
    ClaimsOk s' := by
  cases hworker with
  | failsEntryNonNull _ hscan => exact absurd hscan hwf.takeEntry_ne_none
  | finds hpc hscan htaken => exact h.finds hwf hfree hpc hscan htaken
  | findsNone hpc =>
    refine h.leave ?_ rfl rfl (by simp [Worker.claimed, hpc]) (fun f => Harmless.refl _)
      (fun hexec => absurd hexec (h.idle_not_exec (by simp [hpc])))
    simp [Worker.claimed, (hwf.worker t).scan_empty hpc, FiberAndThread.empty]
  | dispatch hpc => exact h.advanceDispatch hpc
  | spawn hpc =>
    rw [hwf.spawn_eq hpc]
    refine h.claim (g := .task s.taskCount) (by simp [Worker.claimed, hpc]) rfl rfl rfl
      ?_ (fun f hf => setFiber_fiber_of_ne _ hf) ?_ ?_
    · intro u _ hclaim
      exact lt_irrefl _ (hwf.claimed_lt hclaim)
    · simp [Worker.Needs, State.newFiber, State.setFiber, State.setWorker, Fiber.new]
    · intro hexec
      refine absurd ?_ (h.idle_not_exec (t := t) (by simp [hpc]))
      rw [← setFiber_fiber_of_ne (s := s) (g := .task s.taskCount) Fiber.new (by simp)]
      exact hexec
  | drop hpc | exit hpc | idleTest hpc =>
    exact h.leave rfl rfl rfl (by simp [Worker.claimed, hpc]) (fun f => Harmless.refl _)
      (fun hexec => absurd hexec (h.idle_not_exec (by simp [hpc])))
  | idleEnter hpc =>
    have hclaim : (s.worker t).claimed t = none := by simp [Worker.claimed, hpc]
    have hown : ∀ u, u ≠ t → (s.worker u).claimed u ≠ some (.idle t) :=
      fun u hu hclaimed => hu (Worker.claimed_idle hclaimed)
    exact h.claim hclaim rfl rfl rfl hown (fun _ _ => rfl)
      ⟨h.saved_of_free hclaim hown, h.idle_not_exec (by simp [hpc])⟩ (fun _ => ⟨_, rfl⟩)
  | @slice site stage _ _ hpc hslice =>
    cases hinside : stage.inside with
    | true => exact h.sliceInside hpc hinside hslice
    | false => exact h.sliceOutside hpc hinside hslice

/-- One step that takes no claimed fiber keeps the claims exclusive. -/
theorem ClaimsOk.step {l : Label} (h : ClaimsOk s) (hwf : WellFormed s)
    (hfree : TakesUnclaimed s l) (hstep : step s l = some (o, s')) :
    ClaimsOk s' := by
  cases processStep_of_step hstep with
  | newFiber =>
    refine h.quiet rfl rfl ?_
    intro f
    by_cases hf : f = .task s.taskCount
    · subst hf
      simp only [State.newFiber, State.setFiber, Function.update_self]
      exact ⟨fun _ => rfl, by simp [Fiber.new]⟩
    · simp only [State.newFiber, State.setFiber, Function.update_of_ne hf]
      exact Harmless.refl _
  | schedule | scheduleAll | setAutoStops | setStopping =>
    exact h.quiet rfl rfl (fun f => Harmless.refl _)
  | leaves _ hpc | loops _ hpc =>
    exact h.leave rfl rfl rfl (by simp [Worker.claimed, hpc]) (fun f => Harmless.refl _)
      (fun hexec => absurd hexec (h.idle_not_exec (by simp [hpc])))
  | advance _ hworker => exact h.advance hwf hfree hworker
  | endSlice how _ hpc =>
    exact h.keep (by simp [Worker.claimed, hpc, Stage.inside]) rfl rfl rfl
      (fun f hf => setFiber_fiber_of_ne _ hf) trivial
      (h.idle_slice hpc (fun f hf => setFiber_fiber_of_ne _ hf) _)

end Steps

section Result

/--
For any workers, any calls of `schedule()` and any interleaving in which no entry
is taken for a fiber that another worker claims, no fiber is executed by two
workers, no fiber is continued before its context is saved, and the assertion in
`swapIn` does not fail.
-/
theorem swapSafe_of_takesUnclaimed (threadIds : List ThreadId) (s : State)
    (h : system.ReachableWhen TakesUnclaimed (State.started threadIds) s) :
    SwapSafe s := by
  have hinv : WellFormed s ∧ ClaimsOk s := by
    refine h.invariant (I := fun s => WellFormed s ∧ ClaimsOk s) ?_
      ⟨started_wellFormed threadIds, started_claimsOk threadIds⟩
    rintro s l o s' ⟨hwf, hclaims⟩ hfree hstep
    exact ⟨hwf.step hstep, hclaims.step hwf hfree hstep⟩
  exact hinv.2.swapSafe

/-- Thread `t` takes an entry for a fiber and goes on for `n` more steps of its own. -/
def takeAndAdvance (t : ThreadId) (n : ℕ) : List Label :=
  .testStopping t true :: .advance t :: List.replicate n (.advance t)

/-- A fiber that waits on thread 1 and, once saved and left, is woken on thread 2. -/
def handover : List Label :=
  [.newFiber, .schedule (.fiber (some 0)) (-1)] ++
  takeAndAdvance 1 4 ++ [.endSlice 1 .yieldToHold] ++ List.replicate 6 (.advance 1) ++
  [.schedule (.fiber (some 0)) (-1)] ++ takeAndAdvance 2 4

theorem swapSafe_after_handover :
    ∃ s, system.ReachableWhen TakesUnclaimed (State.started [1, 2]) s ∧
      (s.worker 2).pc = .slice (.entry 0) .running ∧
      SwapSafe s := by
  obtain ⟨s, hs, hpc⟩ := System.exists_reachableWhen (M := system) (P := TakesUnclaimed)
    (State.started [1, 2]) handover
    (fun s => (s.worker 2).pc = .slice (.entry 0) .running) (by decide +kernel)
  exact ⟨s, hs, hpc, swapSafe_of_takesUnclaimed [1, 2] s hs⟩

/-- Two entries for one fiber, and each of two threads has taken one of them. -/
def takenTwice : List Label :=
  [.newFiber, .schedule (.fiber (some 0)) (-1), .schedule (.fiber (some 0)) (-1)] ++
  takeAndAdvance 1 1 ++ takeAndAdvance 2 1

/-- Both threads pass the assertion before either of them has set `EXEC`. -/
def bothEnter : List Label :=
  takenTwice ++ [.advance 1, .advance 2, .advance 1, .advance 2, .advance 1, .advance 2]

/-- A fiber yields on thread 1 and is woken before its context is saved. -/
def wokenTooEarly : List Label :=
  [.newFiber, .schedule (.fiber (some 0)) (-1)] ++ takeAndAdvance 1 4 ++
  [.endSlice 1 .yieldToHold, .schedule (.fiber (some 0)) (-1)] ++ takeAndAdvance 2 3

/-- Thread 1 has set `EXEC` when thread 2 comes to the assertion. -/
def enterBehind : List Label :=
  takenTwice ++ [.advance 1, .advance 1, .advance 2]

/-- Runs of two workers that break each part of the property. -/
theorem not_swapSafe_two_workers :
    (∃ s, system.Reachable (State.started [1, 2]) s ∧ ¬ SwapSafe s ∧
      (s.worker 1).pc = .slice (.entry 0) .running ∧
      (s.worker 2).pc = .slice (.entry 0) .running) ∧
    (∃ s, system.Reachable (State.started [1, 2]) s ∧ ¬ SwapSafe s ∧
      (s.worker 2).pc = .slice (.entry 0) .restore ∧
      (s.fiber (.task 0)).saved = false) ∧
    (∃ s, system.Reachable (State.started [1, 2]) s ∧ ¬ SwapSafe s ∧
      s.aborted = some .notExec) := by
  refine ⟨?_, ?_, ?_⟩
  · obtain ⟨s, hs, h₁, h₂⟩ := System.exists_reachableWhen (M := system)
      (P := fun _ _ => True) (State.started [1, 2]) bothEnter
      (fun s => (s.worker 1).pc = .slice (.entry 0) .running ∧
        (s.worker 2).pc = .slice (.entry 0) .running) (by decide +kernel)
    refine ⟨s, hs.reachable, ?_, h₁, h₂⟩
    intro hsafe
    have heq : (1 : ThreadId) = 2 :=
      hsafe.exclusive 1 2 (.task 0) ⟨_, _, h₁, rfl, rfl⟩ ⟨_, _, h₂, rfl, rfl⟩
    exact absurd heq (by decide)
  · obtain ⟨s, hs, hpc, hsaved⟩ := System.exists_reachableWhen (M := system)
      (P := fun _ _ => True) (State.started [1, 2]) wokenTooEarly
      (fun s => (s.worker 2).pc = .slice (.entry 0) .restore ∧
        (s.fiber (.task 0)).saved = false) (by decide +kernel)
    refine ⟨s, hs.reachable, ?_, hpc, hsaved⟩
    intro hsafe
    have h : (s.fiber (.task 0)).saved = true := hsafe.resumes_saved 2 _ hpc
    rw [hsaved] at h
    exact absurd h (by decide)
  · obtain ⟨s, hs, habort⟩ := System.exists_reachableWhen (M := system)
      (P := fun _ _ => True) (State.started [1, 2]) enterBehind
      (fun s => s.aborted = some .notExec) (by decide +kernel)
    exact ⟨s, hs.reachable, fun hsafe => hsafe.assert_holds habort, habort⟩

end Result

end Scheduler
end Civan
