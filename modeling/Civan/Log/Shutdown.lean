import Civan.Log.DoubleBuffer

/-!
# Stopping the logger

`stop()` clears `running_` and does nothing else: it neither wakes the flush thread
nor waits for it, and `asyncLogFunc` looks at `running_` before it swaps, never after
its last write.  What `currentBuffer` holds when `stop()` is called is written only if
the flush thread has passed that test and has yet to swap.
-/

namespace Civan
namespace Log

open Transition

section Shutdown

/-- The flush thread has passed `while (running_)` and has yet to swap. -/
def FlushPc.beforeSwap : FlushPc → Bool
  | .lock | .waiting => true
  | _ => false

/-- What the file of an appender will be when the round of the flush thread is done. -/
def State.due (s : State) (i : ℕ) : List UInt8 :=
  s.files[i]?.getD [] ++ s.unflushed i ++ if s.pc.beforeSwap then contents s.currentBuffer else []

variable {s s' : State} {level : Level} {appenders i : ℕ} {logged : List UInt8}

theorem Complete.lt_appenders (h : Complete level appenders logged s)
    {file : List UInt8} (hfile : s.files[i]? = some file) :
    i < appenders := by
  rw [← h.length_files]
  exact (List.getElem?_eq_some_iff.mp hfile).1

theorem Complete.due_append (h : Complete level appenders logged s) (hi : i < appenders) :
    s.due i ++ (if s.pc.beforeSwap then [] else contents s.currentBuffer) = logged := by
  have hfile : s.files[i]? = some (s.files[i]?.getD []) := by
    rw [List.getElem?_eq_getElem (by rw [h.length_files]; exact hi)]
    rfl
  have heq := h.file_eq hfile
  unfold State.due
  split_ifs
  · rw [List.append_nil]
    exact heq
  · rw [List.append_nil]
    exact heq

/-- Once `running_` is false there is no further swap after the next one. -/
theorem FlushStep.stopped (hflush : FlushStep s s') (hrunning : s.running = false)
    (hswap : s.pc.beforeSwap = false) :
    s'.running = false ∧ s'.pc.beforeSwap = false ∧ s'.currentBuffer = s.currentBuffer := by
  cases hflush with
  | failsAssert | failsRewind | failsAppend | failsClear => exact ⟨hrunning, hswap, rfl⟩
  | assertRunning | returns | rewinds | findsBytes | findsNone | appends | appended | clears =>
    exact ⟨hrunning, rfl, rfl⟩
  | goesOn _ hrunning' =>
    rw [hrunning] at hrunning'
    cases hrunning'
  | waits hpc => simp [hpc, FlushPc.beforeSwap] at hswap
  | swaps hpc => rcases hpc with hpc | hpc <;> simp [hpc, FlushPc.beforeSwap] at hswap

theorem Complete.flush_beforeSwap (h : Complete level appenders logged s)
    (hswap : s.pc.beforeSwap = true) (hflush : FlushStep s s') :
    s'.running = s.running ∧ (s'.pc.beforeSwap = true ∨ contents s'.currentBuffer = []) := by
  obtain ⟨data, fresh, hbalanced⟩ := h.balanced
  have hwrite := hbalanced.write
  have hcontents := hwrite.contents_eq
  cases hflush with
  | waits => exact ⟨rfl, Or.inl rfl⟩
  | swaps hpc =>
    refine ⟨rfl, Or.inr ?_⟩
    rcases hpc with hpc | hpc <;> simp only [State.WriteSide, hpc] at hwrite <;>
      exact hcontents.trans hwrite.1
  | failsAssert hpc | assertRunning hpc | goesOn hpc | returns hpc | rewinds hpc
  | failsRewind hpc | findsBytes hpc | findsNone hpc | appends hpc | failsAppend hpc
  | appended hpc | clears hpc | failsClear hpc => simp [hpc, FlushPc.beforeSwap] at hswap

/-- After `stop()` the flush thread brings every file to what is due, and no further. -/
theorem Complete.due_flush (h : Complete level appenders logged s) (hi : i < appenders)
    (hrunning : s.running = false) (hflush : FlushStep s s')
    (h' : Complete level appenders logged s') :
    s'.due i = s.due i ∧ s'.running = false ∧
      (s.pc.beforeSwap = false → s'.pc.beforeSwap = false) := by
  have hdue := h.due_append hi
  have hdue' := h'.due_append hi
  cases hswap : s.pc.beforeSwap with
  | false =>
    obtain ⟨hrunning', hswap', hsame⟩ := hflush.stopped hrunning hswap
    rw [hswap] at hdue
    rw [hswap', hsame, ← hdue] at hdue'
    exact ⟨List.append_cancel_right hdue', hrunning', fun _ => hswap'⟩
  | true =>
    obtain ⟨hrunning', hnext⟩ := h.flush_beforeSwap hswap hflush
    rw [hswap, if_pos rfl, List.append_nil] at hdue
    have hnothing :
        (if s'.pc.beforeSwap then [] else contents s'.currentBuffer) = [] := by
      rcases hnext with hnext | hnext
      · rw [if_pos hnext]
      · rw [hnext, ite_self]
    rw [hnothing, List.append_nil] at hdue'
    exact ⟨hdue'.trans hdue.symm, hrunning'.trans hrunning, by simp⟩

/-- A call of `log` after `stop()` adds at most at the end. -/
theorem Complete.due_log {l : Level} {logString : List UInt8} {added : List UInt8}
    (h : Complete level appenders logged s) (hi : i < appenders)
    (h' : Complete level appenders (logged ++ added) (s.log l logString)) :
    ∃ more, (s.log l logString).due i = s.due i ++ more ∧
      (s.pc.beforeSwap = false → more = []) := by
  have hdue := h.due_append hi
  have hdue' := h'.due_append hi
  obtain ⟨b, aborted, heq⟩ := log_fixed s l logString
  rw [heq] at hdue' ⊢
  cases hswap : s.pc.beforeSwap with
  | false =>
    refine ⟨[], ?_, fun _ => rfl⟩
    rw [List.append_nil]
    simp only [State.due, State.unflushed, hswap]
    rfl
  | true =>
    refine ⟨added, ?_, by simp⟩
    simp only [hswap, if_true, List.append_nil] at hdue hdue'
    rw [hdue, hdue']

/-- What is due when `stop()` is called is the most that a file will start with. -/
theorem Complete.due_run {ls : List Label} {os : List Unit}
    (h : Complete level appenders logged s) (hi : i < appenders) (hrunning : s.running = false)
    (hrun : system.run s ls = some (os, s')) :
    ∃ more, s'.due i = s.due i ++ more ∧ (s.pc.beforeSwap = false → more = []) := by
  induction ls generalizing s logged os with
  | nil =>
    simp only [System.run_nil, Option.some.injEq, Prod.mk.injEq] at hrun
    refine ⟨[], ?_, fun _ => rfl⟩
    rw [List.append_nil, hrun.2]
  | cons l ls ih =>
    obtain ⟨o, s₁, os', hstep, hrest, _⟩ := system.run_cons_eq_some.mp hrun
    change s.step l = some (o, s₁) at hstep
    have h₁ := h.step hstep
    unfold State.step at hstep
    split_ifs at hstep
    cases l with
    | log l logString =>
      cases hstep
      obtain ⟨more₁, hmore₁, hsame₁⟩ := h.due_log hi h₁
      obtain ⟨b, aborted, heq⟩ := log_fixed s l logString
      obtain ⟨more, hmore, hsame⟩ := ih h₁ (by rw [heq]; exact hrunning) hrest
      refine ⟨more₁ ++ more, ?_, ?_⟩
      · rw [hmore, hmore₁, List.append_assoc]
      · intro hswap
        rw [hsame₁ hswap, hsame (by rw [heq]; exact hswap)]
        rfl
    | stop =>
      cases hstep
      exact ih (s := { s with running := false }) h₁ rfl hrest
    | flush =>
      obtain ⟨s₂, hs₂, heq⟩ := Option.map_eq_some_iff.mp hstep
      cases heq
      rw [Label.formatted, List.append_nil] at h₁
      obtain ⟨hdue, hrunning₁, hswap₁⟩ := h.due_flush hi hrunning (flushStep_of_flush hs₂) h₁
      obtain ⟨more, hmore, hsame⟩ := ih h₁ hrunning₁ hrest
      rw [hdue] at hmore
      exact ⟨more, hmore, fun hswap => hsame (hswap₁ hswap)⟩

/-- When the flush thread has returned, a file is all that is due to it. -/
theorem Complete.due_returned (h : Complete level appenders logged s) (hpc : s.pc = .returned)
    {file : List UInt8} (hfile : s.files[i]? = some file) :
    s.due i = file := by
  obtain ⟨data, fresh, hbalanced⟩ := h.balanced
  have hwrite := hbalanced.write
  have hcontents := hwrite.contents_eq
  simp only [State.WriteSide, hpc] at hwrite
  simp [State.due, State.unflushed, FlushPc.left, FlushPc.beforeSwap, hpc, hfile, hcontents,
    hwrite.1]

/--
When `asyncLogFunc` has returned after a call of `stop()`, every file starts with all that
was logged before that call exactly when, at the call, `currentBuffer` was empty or the
flush thread had passed its test of `running_` and not yet swapped.
-/
theorem logged_before_stop_written_iff {nodeSize : ℕ} (hnode : 1 ≤ nodeSize)
    (level : Level) (uninit uninit' : ℕ → UInt8) (appenders : ℕ)
    {before after : List Label} {os os' : List Unit}
    (hbefore : system.run (State.new level nodeSize uninit uninit' appenders) before =
      some (os, s))
    (hafter : system.run s (.stop :: after) = some (os', s'))
    (hreturned : s'.pc = .returned) :
    (∀ (i : ℕ) (file : List UInt8), s'.files[i]? = some file →
        before.flatMap (Label.formatted level) <+: file) ↔
      appenders = 0 ∨ contents s.currentBuffer = [] ∨ s.pc.beforeSwap = true := by
  have h := (new_complete hnode level uninit uninit' appenders).run hbefore
  rw [List.nil_append] at h
  have h' := h.run hafter
  -- from the state after `stop()` on, the files grow to what is due
  obtain ⟨o, s₁, os₁, hstop, hrest, _⟩ := system.run_cons_eq_some.mp hafter
  change s.step .stop = some (o, s₁) at hstop
  have h₁ := h.step hstop
  unfold State.step at hstop
  split_ifs at hstop
  cases hstop
  have hfinal : ∀ (i : ℕ) (file : List UInt8), s'.files[i]? = some file →
      ∃ more, file = s.due i ++ more ∧
      (s.pc.beforeSwap = false → more = []) := by
    intro i file hfile
    obtain ⟨more, hmore, hsame⟩ := h₁.due_run (h'.lt_appenders hfile) rfl hrest
    rw [h'.due_returned hreturned hfile] at hmore
    exact ⟨more, hmore, hsame⟩
  constructor
  · intro hwritten
    by_contra hnot
    push Not at hnot
    obtain ⟨hsome, hcontents, hnotswap⟩ := hnot
    have hswap : s.pc.beforeSwap = false := Bool.eq_false_iff.mpr hnotswap
    have hpos : 0 < s'.files.length := by
      rw [h'.length_files]
      exact Nat.pos_of_ne_zero hsome
    have hfile := List.getElem?_eq_getElem hpos
    obtain ⟨more, hmore, hsame⟩ := hfinal 0 _ hfile
    have hprefix := (hwritten 0 _ hfile).length_le
    have hdue := h.due_append (i := 0) (Nat.pos_of_ne_zero hsome)
    rw [hswap] at hdue
    rw [hmore, hsame hswap, List.append_nil, ← hdue, if_neg (by simp),
      List.length_append] at hprefix
    have := List.length_pos_iff.mpr hcontents
    omega
  · intro hcond i file hfile
    have hi := h'.lt_appenders hfile
    obtain ⟨more, hmore, _⟩ := hfinal i file hfile
    have hdue := h.due_append hi
    have hall : s.due i = before.flatMap (Label.formatted level) := by
      rcases hcond with hzero | hempty | hswap
      · omega
      · rwa [hempty, ite_self, List.append_nil] at hdue
      · rwa [if_pos hswap, List.append_nil] at hdue
    rw [hmore, hall]
    exact List.prefix_append _ _

end Shutdown

section Runs

/-- A new logger with one appender. -/
def oneAppender : State :=
  State.new .debug 2 (fun _ => 0) (fun _ => 0) 1

/-- A run that ends in a state with `p`, if it can be made. -/
def EndsWith (s : State) (ls : List Label) (p : State → Bool) : Bool :=
  (system.checkedRun (fun _ _ => True) s ls).any p

theorem exists_runs (before after : List Label) (p q : State → Bool)
    (h : EndsWith oneAppender before (fun s => p s && EndsWith s after q) = true) :
    ∃ os s os' s', system.run oneAppender before = some (os, s) ∧
      system.run s after = some (os', s') ∧ p s = true ∧ q s' = true := by
  obtain ⟨_, os, s, hrun, hs⟩ :=
    System.exists_run (M := system) (P := fun _ _ => True) oneAppender before
      (fun s => p s && EndsWith s after q) (by simpa [EndsWith] using h)
  rw [Bool.and_eq_true] at hs
  obtain ⟨_, os', s', hrun', hs'⟩ :=
    System.exists_run (M := system) (P := fun _ _ => True) s after (fun s => q s)
      (by simpa [EndsWith] using hs.2)
  exact ⟨os, s, os', s', hrun, hrun', hs.1, hs'⟩

/-- A byte is logged when the flush thread has passed its test of `running_`. -/
def logBeforeSwap : List Label :=
  [.flush, .flush, .log .info [97]]

theorem logged_before_stop_written_before_swap :
    ∃ os s os' s', system.run oneAppender logBeforeSwap = some (os, s) ∧
      system.run s (.stop :: List.replicate 7 .flush) = some (os', s') ∧
      s'.pc = .returned ∧ s.pc.beforeSwap = true ∧
      ∀ (i : ℕ) (file : List UInt8), s'.files[i]? = some file →
        logBeforeSwap.flatMap (Label.formatted .debug) <+: file := by
  obtain ⟨os, s, os', s', hrun, hrun', hs, hs'⟩ :=
    exists_runs logBeforeSwap (.stop :: List.replicate 7 .flush)
      (fun s => s.pc.beforeSwap) (fun s => s.pc = .returned) (by decide +kernel)
  have hreturned : s'.pc = .returned := by simpa using hs'
  refine ⟨os, s, os', s', hrun, hrun', hreturned, hs, ?_⟩
  exact (logged_before_stop_written_iff (by decide) _ _ _ _ hrun hrun' hreturned).mpr
    (Or.inr (Or.inr hs))

/-- A byte is logged before the flush thread tests `running_` for the first time. -/
def logBeforeTest : List Label :=
  [.flush, .log .info [97]]

/-- The byte is lost when `stop()` is called before the test. -/
theorem logged_before_stop_lost :
    ∃ os s os' s', system.run oneAppender logBeforeTest = some (os, s) ∧
      system.run s [.stop, .flush] = some (os', s') ∧
      s'.pc = .returned ∧
      ¬ ∀ (i : ℕ) (file : List UInt8), s'.files[i]? = some file →
        logBeforeTest.flatMap (Label.formatted .debug) <+: file := by
  obtain ⟨os, s, os', s', hrun, hrun', _, hs'⟩ :=
    exists_runs logBeforeTest [.stop, .flush]
      (fun _ => true) (fun s => s.pc = .returned ∧ s.files = [[]]) (by decide +kernel)
  simp only [decide_eq_true_eq] at hs'
  refine ⟨os, s, os', s', hrun, hrun', hs'.1, ?_⟩
  intro hwritten
  have hprefix := hwritten 0 [] (by rw [hs'.2]; rfl)
  exact absurd hprefix (by decide)

end Runs

end Log
end Civan
