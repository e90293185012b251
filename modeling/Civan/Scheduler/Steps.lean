import Civan.Scheduler.Model

/-!
# What a step of the scheduler can do

Every way in which a step can go, as one case of a relation: the steps of a slice, the
steps of a worker's own code and the steps of the process.  The invariants are proved by
cases on these relations.
-/

namespace Civan
namespace Scheduler

section Relations

theorem Worker.endSite_pc (w : Worker) (site : Site) : (w.endSite site).pc = .loop := by
  cases site <;> rfl

/-- The steps of a slice. -/
inductive SliceStep (s : State) (t : ThreadId) (site : Site) : Stage → Event → State → Prop
  | failsNotExec (hexec : (s.fiber (site.fiber t)).state = .exec) :
      SliceStep s t site .assertNotExec .internal (s.abort .notExec)
  | assertNotExec (hexec : (s.fiber (site.fiber t)).state ≠ .exec) :
      SliceStep s t site .assertNotExec .internal
        (s.setWorker t { s.worker t with pc := .slice site .setExec })
  | setExec :
      SliceStep s t site .setExec .internal
        ((s.setState (site.fiber t) .exec).setWorker t
          { s.worker t with pc := .slice site .restore })
  | failsNeverGetHere (hfinished : (s.fiber (site.fiber t)).finished = true) :
      SliceStep s t site .restore (.resumed t (site.fiber t)) (s.abort .neverGetHere)
  | restore (hunfinished : (s.fiber (site.fiber t)).finished = false) :
      SliceStep s t site .restore (.resumed t (site.fiber t))
        ((s.setFiber (site.fiber t) { s.fiber (site.fiber t) with saved := false }).setWorker t
          { s.worker t with pc := .slice site .running })
  | save :
      SliceStep s t site .save .internal
        ((s.setFiber (site.fiber t) { s.fiber (site.fiber t) with saved := true }).setWorker t
          { s.worker t with pc := .slice site .switch })
  | switch :
      SliceStep s t site .switch .internal
        (s.setWorker t { s.worker t with pc := .slice site .release })
  | wakes (hsite : site = .idle) :
      SliceStep s t site .release .internal
        ({ s with idleThreadCount := MachineInt.sizeSub s.idleThreadCount 1 }.setWorker t
          { s.worker t with pc := .slice site .testDone })
  | release (hsite : site ≠ .idle) :
      SliceStep s t site .release .internal
        (s.release.setWorker t { s.worker t with pc := .slice site .testReady })
  | testReady (hready : (s.fiber (site.fiber t)).state = .ready) :
      SliceStep s t site .testReady .internal
        (s.setWorker t { s.worker t with pc := .slice site .requeue })
  | testNotReady (hready : (s.fiber (site.fiber t)).state ≠ .ready) :
      SliceStep s t site .testReady .internal
        (s.setWorker t { s.worker t with pc := .slice site .testDone })
  | testDone (hdone : (s.fiber (site.fiber t)).isDone = true) :
      SliceStep s t site .testDone .internal (s.setWorker t ((s.worker t).endSite site))
  | testNotDone (hdone : (s.fiber (site.fiber t)).isDone = false) :
      SliceStep s t site .testDone .internal
        (s.setWorker t { s.worker t with pc := .slice site .setHold })
  | requeue (f : TaskId) (hsite : site = .entry f ∨ site = .callback f) :
      SliceStep s t site .requeue
        (.scheduled (scheduleNoLock s.fibers (.fiber (some f)) (-1)).1)
        ({ s with fibers := (scheduleNoLock s.fibers (.fiber (some f)) (-1)).2 }.setWorker t
          ((s.worker t).endSite site))
  | setHold :
      SliceStep s t site .setHold .internal
        ((s.setState (site.fiber t) .hold).setWorker t ((s.worker t).endSite site))

/-- The steps of a worker's own code. -/
inductive WorkerStep (s : State) (t : ThreadId) : Event → State → Prop
  | failsEntryNonNull (hpc : (s.worker t).pc = .scan)
      (hscan : takeEntry t (fun f => (s.fiber (.task f)).state) s.fibers = none) :
      WorkerStep s t .internal (s.abort .entryNonNull)
  | finds {r : Scan} {e : FiberAndThread} (hpc : (s.worker t).pc = .scan)
      (hscan : takeEntry t (fun f => (s.fiber (.task f)).state) s.fibers = some r)
      (htaken : r.taken = some e) :
      WorkerStep s t (.scanned t (some e) r.tickleMe)
        ({ s.acquire with fibers := r.rest }.setWorker t
          { s.worker t with pc := .dispatch, ft := e, isActive := true })
  | findsNone {r : Scan} (hpc : (s.worker t).pc = .scan)
      (hscan : takeEntry t (fun f => (s.fiber (.task f)).state) s.fibers = some r)
      (htaken : r.taken = none) :
      WorkerStep s t (.scanned t none r.tickleMe)
        (s.setWorker t { s.worker t with pc := .dispatch })
  | dispatch (hpc : (s.worker t).pc = .dispatch) :
      WorkerStep s t .internal (s.setWorker t { s.worker t with pc := dispatch s (s.worker t) })
  | spawn (hpc : (s.worker t).pc = .spawn) :
      WorkerStep s t .internal (spawn s t (s.worker t))
  | drop (hpc : (s.worker t).pc = .drop) :
      WorkerStep s t .internal (s.release.setWorker t { s.worker t with pc := .loop })
  | exit (hpc : (s.worker t).pc = .idleTest) (hterm : (s.fiber (.idle t)).state = .term) :
      WorkerStep s t .internal (s.setWorker t { s.worker t with pc := .exited })
  | idleTest (hpc : (s.worker t).pc = .idleTest) (hterm : (s.fiber (.idle t)).state ≠ .term) :
      WorkerStep s t .internal (s.setWorker t { s.worker t with pc := .idleEnter })
  | idleEnter (hpc : (s.worker t).pc = .idleEnter) :
      WorkerStep s t .internal
        ({ s with idleThreadCount := (s.idleThreadCount + 1) % 2 ^ 64 }.setWorker t
          { s.worker t with pc := .slice .idle .assertNotExec })
  | slice {site : Site} {stage : Stage} {o : Event} {s' : State}
      (hpc : (s.worker t).pc = .slice site stage) (hslice : SliceStep s t site stage o s') :
      WorkerStep s t o s'

/-- The steps of the process. -/
inductive ProcessStep (s : State) : Label → Event → State → Prop
  | newFiber :
      ProcessStep s .newFiber .internal s.newFiber
  | schedule {fb : FiberOrCb} {thread : ThreadId} (hknown : fb.known s = true) :
      ProcessStep s (.schedule fb thread)
        (.scheduled (scheduleNoLock s.fibers fb thread).1)
        { s with fibers := (scheduleNoLock s.fibers fb thread).2 }
  | scheduleAll {fbs : List FiberOrCb} (hknown : fbs.all (FiberOrCb.known s) = true) :
      ProcessStep s (.scheduleAll fbs)
        (.scheduled (scheduleAllNoLock s.fibers fbs).1)
        { s with fibers := (scheduleAllNoLock s.fibers fbs).2 }
  | setAutoStops :
      ProcessStep s .setAutoStops .internal { s with autoStops := true }
  | setStopping :
      ProcessStep s .setStopping .internal { s with isStopping := true }
  | leaves {t : ThreadId} {override : Bool} (ht : t ∈ s.threadIds) (hpc : (s.worker t).pc = .loop)
      (hstop : s.stopping = true) :
      ProcessStep s (.testStopping t override) .internal
        (s.setWorker t { s.worker t with pc := .exited })
  | loops {t : ThreadId} {override : Bool} (ht : t ∈ s.threadIds)
      (hpc : (s.worker t).pc = .loop) :
      ProcessStep s (.testStopping t override) .internal
        (s.setWorker t { s.worker t with pc := .scan, ft := .empty, isActive := false })
  | advance {t : ThreadId} {o : Event} {s' : State} (ht : t ∈ s.threadIds)
      (hworker : WorkerStep s t o s') :
      ProcessStep s (.advance t) o s'
  | endSlice {t : ThreadId} {site : Site} (how : SliceEnd) (ht : t ∈ s.threadIds)
      (hpc : (s.worker t).pc = .slice site .running) :
      ProcessStep s (.endSlice t how) .internal
        ((s.setFiber (site.fiber t) (how.leave (s.fiber (site.fiber t)))).setWorker t
          { s.worker t with pc := .slice site .save })

end Relations

section Inversion

variable {s s' : State} {t : ThreadId} {o : Event}

theorem sliceStep_of_advanceSlice {site : Site} {stage : Stage}
    (hstep : advanceSlice s t (s.worker t) site stage = some (o, s')) :
    SliceStep s t site stage o s' := by
  cases stage with
  | assertNotExec =>
    simp only [advanceSlice] at hstep
    split_ifs at hstep with hexec <;> cases hstep
    · exact .failsNotExec hexec
    · exact .assertNotExec hexec
  | setExec =>
    cases hstep
    exact .setExec
  | restore =>
    simp only [advanceSlice] at hstep
    split_ifs at hstep with hfinished <;> cases hstep
    · exact .failsNeverGetHere hfinished
    · exact .restore (by simpa using hfinished)
  | running => cases hstep
  | save =>
    cases hstep
    exact .save
  | switch =>
    cases hstep
    exact .switch
  | release =>
    cases site with
    | idle =>
      cases hstep
      exact .wakes rfl
    | entry f =>
      cases hstep
      exact .release (by simp)
    | callback f =>
      cases hstep
      exact .release (by simp)
  | testReady =>
    simp only [advanceSlice] at hstep
    split_ifs at hstep with hready <;> cases hstep
    · exact .testReady hready
    · exact .testNotReady hready
  | testDone =>
    simp only [advanceSlice] at hstep
    split_ifs at hstep with hdone <;> cases hstep
    · exact .testDone hdone
    · exact .testNotDone (by simpa using hdone)
  | requeue =>
    cases site with
    | idle => cases hstep
    | entry f =>
      cases hstep
      exact .requeue f (Or.inl rfl)
    | callback f =>
      cases hstep
      exact .requeue f (Or.inr rfl)
  | setHold =>
    cases hstep
    exact .setHold

theorem workerStep_of_advance (hstep : advance s t = some (o, s')) : WorkerStep s t o s' := by
  unfold advance at hstep
  cases hpc : (s.worker t).pc with
  | loop => simp [hpc] at hstep
  | exited => simp [hpc] at hstep
  | scan =>
    simp only [hpc] at hstep
    split at hstep
    · rename_i hscan
      cases hstep
      exact .failsEntryNonNull hpc hscan
    · rename_i r hscan
      split at hstep
      · rename_i htaken
        cases hstep
        exact .findsNone hpc hscan htaken
      · rename_i e htaken
        cases hstep
        exact .finds hpc hscan htaken
  | dispatch =>
    simp only [hpc] at hstep
    cases hstep
    exact .dispatch hpc
  | spawn =>
    simp only [hpc] at hstep
    cases hstep
    exact .spawn hpc
  | drop =>
    simp only [hpc] at hstep
    cases hstep
    exact .drop hpc
  | idleTest =>
    simp only [hpc] at hstep
    split_ifs at hstep with hterm <;> cases hstep
    · exact .exit hpc hterm
    · exact .idleTest hpc hterm
  | idleEnter =>
    simp only [hpc] at hstep
    cases hstep
    exact .idleEnter hpc
  | slice site stage =>
    simp only [hpc] at hstep
    exact .slice hpc (sliceStep_of_advanceSlice hstep)

theorem WorkerStep.sliceStep {site : Site} {stage : Stage} (hworker : WorkerStep s t o s')
    (hpc : (s.worker t).pc = .slice site stage) :
    SliceStep s t site stage o s' := by
  cases hworker with
  | slice hpc' hslice =>
    rw [hpc, Pc.slice.injEq] at hpc'
    obtain ⟨rfl, rfl⟩ := hpc'
    exact hslice
  | failsEntryNonNull hpc' | finds hpc' | findsNone hpc' | dispatch hpc' | spawn hpc'
  | drop hpc' | exit hpc' | idleTest hpc' | idleEnter hpc' =>
    rw [hpc] at hpc'
    cases hpc'

theorem processStep_of_step {l : Label} (hstep : step s l = some (o, s')) :
    ProcessStep s l o s' := by
  unfold step at hstep
  split_ifs at hstep
  cases l with
  | newFiber =>
    cases hstep
    exact .newFiber
  | schedule fb thread =>
    simp only at hstep
    split_ifs at hstep with hknown
    cases hstep
    exact .schedule hknown
  | scheduleAll fbs =>
    simp only at hstep
    split_ifs at hstep with hknown
    cases hstep
    exact .scheduleAll hknown
  | setAutoStops =>
    cases hstep
    exact .setAutoStops
  | setStopping =>
    cases hstep
    exact .setStopping
  | testStopping t override =>
    simp only [testStopping] at hstep
    split_ifs at hstep with ht hpc hstop <;> cases hstep
    · rw [Bool.and_eq_true] at hstop
      exact .leaves ht hpc hstop.1
    · exact .loops ht hpc
  | advance t =>
    simp only at hstep
    split_ifs at hstep with ht
    exact .advance ht (workerStep_of_advance hstep)
  | endSlice t how =>
    simp only [endSlice] at hstep
    split_ifs at hstep with ht
    split at hstep
    · rename_i site hpc
      cases hstep
      exact .endSlice how ht hpc
    · cases hstep

end Inversion

end Scheduler
end Civan
