import Civan.Log.Model

/-!
# Nothing is lost between the two buffers

`currentBuffer` is only appended to.  Right after the swap `bufferToWrite` holds
what was appended since the last one; it is rewound, written and cleared before
the next swap.  For every appender, the file, what is left of `bufferToWrite` for
it and `currentBuffer` therefore hold together all that was logged, in lock order.
-/

namespace Civan
namespace Log

open Transition
open Civan.ByteArray (Appending Positioned Represents)

section Steps

/-- The steps of the flush thread. -/
inductive FlushStep (s : State) : State → Prop
  | failsAssert (hpc : s.pc = .assertRunning) (hrunning : s.running = false) :
      FlushStep s { s with aborted := some .assertRunning }
  | assertRunning (hpc : s.pc = .assertRunning) (hrunning : s.running = true) :
      FlushStep s { s with pc := .testRunning }
  | goesOn (hpc : s.pc = .testRunning) (hrunning : s.running = true) :
      FlushStep s { s with pc := .lock }
  | returns (hpc : s.pc = .testRunning) (hrunning : s.running = false) :
      FlushStep s { s with pc := .returned }
  | waits (hpc : s.pc = .lock) (hempty : s.currentBuffer.getSize = 0) :
      FlushStep s { s with pc := .waiting }
  | swaps (hpc : s.pc = .lock ∨ s.pc = .waiting) :
      FlushStep s s.swap
  | rewinds {u : Unit} {b : ByteArray} (hpc : s.pc = .rewind)
      (hset : ByteArray.setPosition 0 s.bufferToWrite = .ok u b) :
      FlushStep s { s with bufferToWrite := b, pc := .testReadSize }
  | failsRewind {e : Fault} {b : ByteArray} (hpc : s.pc = .rewind)
      (hset : ByteArray.setPosition 0 s.bufferToWrite = .error e b) :
      FlushStep s (s.fail e)
  | findsBytes (hpc : s.pc = .testReadSize) (hread : s.bufferToWrite.getReadSize ≠ 0) :
      FlushStep s { s with pc := .append 0 }
  | findsNone (hpc : s.pc = .testReadSize) (hread : s.bufferToWrite.getReadSize = 0) :
      FlushStep s { s with pc := .testRunning }
  | appends {i : ℕ} {bytes : List UInt8} (hpc : s.pc = .append i)
      (hwrite : s.bufferToWrite.writeToFile = some bytes) :
      FlushStep s { s with files := s.files.modify i (· ++ bytes), pc := .append (i + 1) }
  | failsAppend {i : ℕ} (hpc : s.pc = .append i) (hwrite : s.bufferToWrite.writeToFile = none) :
      FlushStep s (s.fail .nullDeref)
  | appended {i : ℕ} (hpc : s.pc = .append i) (hi : s.files.length ≤ i) :
      FlushStep s { s with pc := .clear }
  | clears {u : Unit} {b : ByteArray} (hpc : s.pc = .clear)
      (hclear : ByteArray.clear s.bufferToWrite = .ok u b) :
      FlushStep s { s with bufferToWrite := b, pc := .testRunning }
  | failsClear {e : Fault} {b : ByteArray} (hpc : s.pc = .clear)
      (hclear : ByteArray.clear s.bufferToWrite = .error e b) :
      FlushStep s (s.fail e)

theorem flushStep_of_flush {s s' : State} (hstep : s.flush = some s') : FlushStep s s' := by
  unfold State.flush at hstep
  cases hpc : s.pc with
  | assertRunning =>
    simp only [hpc] at hstep
    split_ifs at hstep with hrunning <;> cases hstep
    · exact .assertRunning hpc hrunning
    · rw [← hpc]
      exact .failsAssert hpc (by simpa using hrunning)
  | testRunning =>
    simp only [hpc] at hstep
    split_ifs at hstep with hrunning <;> cases hstep
    · exact .goesOn hpc hrunning
    · exact .returns hpc (by simpa using hrunning)
  | lock =>
    simp only [hpc] at hstep
    split_ifs at hstep with hempty <;> cases hstep
    · exact .waits hpc hempty
    · exact .swaps (Or.inl hpc)
  | waiting =>
    simp only [hpc] at hstep
    cases hstep
    exact .swaps (Or.inr hpc)
  | rewind =>
    simp only [hpc] at hstep
    cases hset : ByteArray.setPosition 0 s.bufferToWrite with
    | ok u b =>
      rw [hset] at hstep
      cases hstep
      exact .rewinds hpc hset
    | error e b =>
      rw [hset] at hstep
      cases hstep
      exact .failsRewind hpc hset
  | testReadSize =>
    simp only [hpc] at hstep
    split_ifs at hstep with hread <;> cases hstep
    · exact .findsBytes hpc hread
    · exact .findsNone hpc (not_not.mp hread)
  | append i =>
    simp only [hpc] at hstep
    split_ifs at hstep with hi
    · cases hwrite : s.bufferToWrite.writeToFile with
      | some bytes =>
        rw [hwrite] at hstep
        cases hstep
        exact .appends hpc hwrite
      | none =>
        rw [hwrite] at hstep
        cases hstep
        exact .failsAppend hpc hwrite
    · cases hstep
      exact .appended hpc (Nat.le_of_not_lt hi)
  | clear =>
    simp only [hpc] at hstep
    cases hclear : ByteArray.clear s.bufferToWrite with
    | ok u b =>
      rw [hclear] at hstep
      cases hstep
      exact .clears hpc hclear
    | error e b =>
      rw [hclear] at hstep
      cases hstep
      exact .failsClear hpc hclear
  | returned =>
    simp only [hpc] at hstep
    cases hstep

end Steps

section Invariant

/-- What `bufferToWrite` is at each place of the flush thread, with the contents `data`. -/
def State.WriteSide (s : State) (data : List UInt8) : Prop :=
  match s.pc with
  | .rewind => Appending s.bufferToWrite data
  | .testReadSize => Positioned s.bufferToWrite data 0 ∧
      (data = [] → Appending s.bufferToWrite [])
  | .append _ | .clear => Positioned s.bufferToWrite data 0
  | _ => data = [] ∧ Appending s.bufferToWrite []

/-- The buffers hold `data` and `fresh`, and with a file they make up `logged`. -/
structure Balanced (s : State) (data fresh logged : List UInt8) : Prop where
  current : Appending s.currentBuffer fresh
  write : s.WriteSide data
  files : ∀ i file, s.files[i]? = some file → file ++ s.pc.left i data ++ fresh = logged
  nofault : ∀ e, s.aborted ≠ some (.fault e)

variable {s s' : State} {data fresh logged : List UInt8}

theorem contents_eq {b : ByteArray} {a : FlatBuffer} (h : Represents b a) :
    contents b = a.data :=
  h.data_eq.symm

theorem State.WriteSide.contents_eq (h : s.WriteSide data) :
    contents s.bufferToWrite = data := by
  unfold State.WriteSide at h
  split at h
  · exact Log.contents_eq h.represents
  · exact Log.contents_eq h.1.represents
  · exact Log.contents_eq h.represents
  · exact Log.contents_eq h.represents
  · rw [h.1]
    exact Log.contents_eq h.2.represents

theorem balanced_new {nodeSize : ℕ} (hnode : 1 ≤ nodeSize)
    (level : Level) (uninit uninit' : ℕ → UInt8) (appenders : ℕ) :
    Balanced (State.new level nodeSize uninit uninit' appenders) [] [] [] where
  current := ByteArray.appending_new hnode uninit
  write := ⟨rfl, ByteArray.appending_new hnode uninit'⟩
  files := by
    intro i file hfile
    simp only [State.new, List.getElem?_replicate] at hfile
    split_ifs at hfile
    simp only [Option.some.injEq] at hfile
    simp [State.new, FlushPc.left, ← hfile]
  nofault := by simp [State.new]

theorem Balanced.log (h : Balanced s data fresh logged) (level : Level) (logString : List UInt8) :
    Balanced (s.log level logString) data
      (fresh ++ Label.formatted s.level (.log level logString))
      (logged ++ Label.formatted s.level (.log level logString)) := by
  by_cases hlevel : s.level.toNat ≤ level.toNat
  · obtain ⟨b, hwrite, happ, _⟩ := h.current.write logString
    simp only [State.log, Label.formatted, if_pos hlevel, hwrite]
    refine ⟨happ, h.write, ?_, h.nofault⟩
    intro i file hfile
    rw [← h.files i file hfile]
    exact (List.append_assoc _ _ _).symm
  · simp only [State.log, Label.formatted, if_neg hlevel, List.append_nil]
    exact h

/-- The swap, when the last round is written and cleared. -/
theorem Balanced.swap (h : Balanced s data fresh logged) (hpc : s.pc = .lock ∨ s.pc = .waiting) :
    Balanced s.swap fresh [] logged := by
  have hside : data = [] ∧ Appending s.bufferToWrite [] := by
    have hwrite := h.write
    rcases hpc with hpc | hpc <;> simpa only [State.WriteSide, hpc] using hwrite
  have hleft : ∀ i, s.pc.left i data = [] := by
    intro i
    rcases hpc with hpc | hpc <;> simp [FlushPc.left, hpc, hside.1]
  refine ⟨hside.2, h.current, ?_, h.nofault⟩
  intro i file hfile
  have hbefore := h.files i file hfile
  rw [hleft, List.append_nil] at hbefore
  simpa [State.swap, FlushPc.left] using hbefore

theorem Balanced.goto {pc : FlushPc} (h : Balanced s data fresh logged)
    (hwrite : State.WriteSide { s with pc := pc } data)
    (hleft : ∀ i < s.files.length, pc.left i data = s.pc.left i data) :
    Balanced { s with pc := pc } data fresh logged := by
  refine ⟨h.current, hwrite, ?_, h.nofault⟩
  intro i file hfile
  have hi : i < s.files.length := (List.getElem?_eq_some_iff.mp hfile).1
  have hbefore := h.files i file hfile
  rwa [← hleft i hi] at hbefore

theorem Balanced.append {i : ℕ} (h : Balanced s data fresh logged) (hpc : s.pc = .append i) :
    Balanced { s with files := s.files.modify i (· ++ data), pc := .append (i + 1) }
      data fresh logged := by
  have hwrite := h.write
  simp only [State.WriteSide, hpc] at hwrite
  refine ⟨h.current, hwrite, ?_, h.nofault⟩
  intro j file hfile
  simp only [List.getElem?_modify] at hfile
  obtain ⟨old, hold, rfl⟩ := Option.map_eq_some_iff.mp hfile
  have hbefore := h.files j old hold
  simp only [FlushPc.left, hpc] at hbefore ⊢
  by_cases hij : i = j
  · subst hij
    simpa using hbefore
  · have hlt : j < i + 1 ↔ j < i := by omega
    simpa only [hij, hlt, if_false] using hbefore

theorem Balanced.flush (h : Balanced s data fresh logged) (hflush : FlushStep s s') :
    ∃ data' fresh', Balanced s' data' fresh' logged := by
  have hwrite := h.write
  cases hflush with
  | failsAssert hpc =>
    simp only [State.WriteSide, hpc] at hwrite
    refine ⟨data, fresh, h.current, ?_, h.files, by simp⟩
    simp only [State.WriteSide, hpc]
    exact hwrite
  | assertRunning hpc | goesOn hpc | returns hpc | waits hpc =>
    simp only [State.WriteSide, hpc] at hwrite
    exact ⟨data, fresh, h.goto hwrite (fun i _ => by simp [FlushPc.left, hpc])⟩
  | swaps hpc => exact ⟨fresh, [], h.swap hpc⟩
  | rewinds hpc hset =>
    simp only [State.WriteSide, hpc] at hwrite
    obtain ⟨b, hset', hpositioned, hempty⟩ := hwrite.rewind
    rw [hset'] at hset
    cases hset
    refine ⟨data, fresh, h.current, ⟨hpositioned, hempty⟩, ?_, h.nofault⟩
    intro i file hfile
    have hbefore := h.files i file hfile
    simpa only [FlushPc.left, hpc] using hbefore
  | failsRewind hpc hset =>
    simp only [State.WriteSide, hpc] at hwrite
    obtain ⟨b, hset', _⟩ := hwrite.rewind
    rw [hset'] at hset
    cases hset
  | findsBytes hpc =>
    simp only [State.WriteSide, hpc] at hwrite
    exact ⟨data, fresh, h.goto hwrite.1 (fun i _ => by simp [FlushPc.left, hpc])⟩
  | findsNone hpc hread =>
    -- an empty buffer is not cleared, but is as if it were
    simp only [State.WriteSide, hpc] at hwrite
    have hnil : data = [] := by
      rw [hwrite.1.represents.readSize_eq] at hread
      exact List.length_eq_zero_iff.mp hread
    exact ⟨data, fresh, h.goto ⟨hnil, hwrite.2 hnil⟩ (fun i _ => by simp [FlushPc.left, hpc])⟩
  | appends hpc hbytes =>
    simp only [State.WriteSide, hpc] at hwrite
    rw [hwrite.writeToFile] at hbytes
    cases hbytes
    exact ⟨data, fresh, h.append hpc⟩
  | failsAppend hpc hnone =>
    simp only [State.WriteSide, hpc] at hwrite
    rw [hwrite.writeToFile] at hnone
    cases hnone
  | appended hpc hi =>
    simp only [State.WriteSide, hpc] at hwrite
    refine ⟨data, fresh, h.goto hwrite ?_⟩
    intro j hj
    simp only [FlushPc.left, hpc]
    rw [if_pos (by omega)]
  | clears hpc hclear =>
    simp only [State.WriteSide, hpc] at hwrite
    obtain ⟨b, hclear', happ, _⟩ := ByteArray.clear_appending hwrite.represents.wf
    rw [hclear'] at hclear
    cases hclear
    refine ⟨[], fresh, h.current, ⟨rfl, happ⟩, ?_, h.nofault⟩
    intro i file hfile
    have hbefore := h.files i file hfile
    simpa only [FlushPc.left, hpc] using hbefore
  | failsClear hpc hclear =>
    simp only [State.WriteSide, hpc] at hwrite
    obtain ⟨b, hclear', _⟩ := ByteArray.clear_appending hwrite.represents.wf
    rw [hclear'] at hclear
    cases hclear

theorem FlushStep.fixed (hflush : FlushStep s s') :
    s'.level = s.level ∧ s'.files.length = s.files.length := by
  cases hflush with
  | appends => exact ⟨rfl, List.length_modify _ _ _⟩
  | _ => exact ⟨rfl, rfl⟩

theorem log_fixed (s : State) (level : Level) (logString : List UInt8) :
    ∃ b aborted, s.log level logString = { s with currentBuffer := b, aborted := aborted } := by
  unfold State.log
  split_ifs
  · split
    · exact ⟨_, s.aborted, rfl⟩
    · exact ⟨s.currentBuffer, _, rfl⟩
  · exact ⟨s.currentBuffer, s.aborted, rfl⟩

/-- The invariant of a logger that has accepted the bytes `logged`. -/
structure Complete (level : Level) (appenders : ℕ) (logged : List UInt8) (s : State) :
    Prop where
  level_eq : s.level = level
  length_files : s.files.length = appenders
  balanced : ∃ data fresh, Balanced s data fresh logged

variable {level : Level} {appenders : ℕ}

/-- A step adds to what was logged exactly what a call of `log` adds. -/
theorem Complete.step {l : Label} {o : Unit} (h : Complete level appenders logged s)
    (hstep : s.step l = some (o, s')) :
    Complete level appenders (logged ++ l.formatted level) s' := by
  obtain ⟨data, fresh, hbalanced⟩ := h.balanced
  unfold State.step at hstep
  split_ifs at hstep
  cases l with
  | log l logString =>
    cases hstep
    have hlog := hbalanced.log l logString
    rw [h.level_eq] at hlog
    obtain ⟨b, aborted, heq⟩ := log_fixed s l logString
    rw [heq] at hlog ⊢
    exact ⟨h.level_eq, h.length_files, data, _, hlog⟩
  | stop =>
    cases hstep
    refine ⟨h.level_eq, h.length_files, data, fresh, ?_⟩
    rw [Label.formatted, List.append_nil]
    exact ⟨hbalanced.current, hbalanced.write, hbalanced.files, hbalanced.nofault⟩
  | flush =>
    obtain ⟨s₁, hs₁, heq⟩ := Option.map_eq_some_iff.mp hstep
    cases heq
    have hflush := flushStep_of_flush hs₁
    obtain ⟨hlevel, hlength⟩ := hflush.fixed
    rw [Label.formatted, List.append_nil]
    exact ⟨hlevel.trans h.level_eq, hlength.trans h.length_files, hbalanced.flush hflush⟩

theorem Complete.run {ls : List Label} {os : List Unit} (h : Complete level appenders logged s)
    (hrun : system.run s ls = some (os, s')) :
    Complete level appenders (logged ++ ls.flatMap (Label.formatted level)) s' := by
  induction ls generalizing s logged os with
  | nil =>
    simp only [System.run_nil, Option.some.injEq, Prod.mk.injEq] at hrun
    rw [List.flatMap_nil, List.append_nil, ← hrun.2]
    exact h
  | cons l ls ih =>
    obtain ⟨o, s₁, os', hstep, hrest, _⟩ := system.run_cons_eq_some.mp hrun
    have hcomplete := ih (h.step hstep) hrest
    rwa [List.append_assoc, ← List.flatMap_cons] at hcomplete

theorem new_complete {nodeSize : ℕ} (hnode : 1 ≤ nodeSize)
    (level : Level) (uninit uninit' : ℕ → UInt8) (appenders : ℕ) :
    Complete level appenders [] (State.new level nodeSize uninit uninit' appenders) where
  level_eq := rfl
  length_files := List.length_replicate
  balanced := ⟨[], [], balanced_new hnode level uninit uninit' appenders⟩

/-- Each file, what is left of `bufferToWrite` for it and `currentBuffer` are together
what was logged. -/
theorem Complete.file_eq (h : Complete level appenders logged s)
    {i : ℕ} {file : List UInt8} (hfile : s.files[i]? = some file) :
    file ++ s.unflushed i ++ contents s.currentBuffer = logged := by
  obtain ⟨data, fresh, hbalanced⟩ := h.balanced
  rw [State.unflushed, hbalanced.write.contents_eq, contents_eq hbalanced.current.represents]
  exact hbalanced.files i file hfile

/--
For every node size, number of appenders and interleaving of `log`, `stop` and the flush
thread: no buffer operation goes wrong, and at every moment the file of each appender,
the bytes of `bufferToWrite` it has not got and those of `currentBuffer` are the strings
of the calls of `log` at or above the level, in lock order.
-/
theorem async_log_complete {nodeSize : ℕ} (hnode : 1 ≤ nodeSize)
    (level : Level) (uninit uninit' : ℕ → UInt8) (appenders : ℕ)
    {ls : List Label} {os : List Unit}
    (hrun : system.run (State.new level nodeSize uninit uninit' appenders) ls = some (os, s)) :
    (∀ e, s.aborted ≠ some (.fault e)) ∧ s.files.length = appenders ∧
      ∀ i file, s.files[i]? = some file →
        file ++ s.unflushed i ++ contents s.currentBuffer =
          ls.flatMap (Label.formatted level) := by
  have h := (new_complete hnode level uninit uninit' appenders).run hrun
  rw [List.nil_append] at h
  obtain ⟨_, _, hbalanced⟩ := h.balanced
  exact ⟨hbalanced.nofault, h.length_files, fun i file hfile => h.file_eq hfile⟩

end Invariant

section Run

/-- Two bytes are logged and swapped, a third is logged while the first of two appenders
writes; the buffers have nodes of one byte. -/
def logWhileWriting : List Label :=
  [.flush, .log .info [97, 98], .log .unknow [120], .flush, .flush, .flush, .log .warn [99],
    .flush, .flush]

theorem async_log_complete_two_appenders :
    ∃ os s, system.run (State.new .debug 1 (fun _ => 0) (fun _ => 1) 2) logWhileWriting =
        some (os, s) ∧
      (s.files = [[97, 98], []] ∧ s.unflushed 1 = [97, 98] ∧ contents s.currentBuffer = [99]) ∧
      ∀ i file, s.files[i]? = some file →
        file ++ s.unflushed i ++ contents s.currentBuffer =
          logWhileWriting.flatMap (Label.formatted .debug) := by
  obtain ⟨_, os, s, hrun, hs⟩ :=
    System.exists_run (M := system) (P := fun _ _ => True)
      (State.new .debug 1 (fun _ => 0) (fun _ => 1) 2) logWhileWriting
      (fun s => s.files = [[97, 98], []] ∧ s.unflushed 1 = [97, 98] ∧
        contents s.currentBuffer = [99])
      (by decide +kernel)
  exact ⟨os, s, hrun, hs, (async_log_complete (by decide) _ _ _ _ hrun).2.2⟩

end Run

end Log
end Civan
