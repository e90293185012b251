import Mathlib.Data.List.Nodup
import Civan.Config.ConfigVar
import Civan.Log.Model

/-!
# Reconfiguration of the loggers

`LogIniter` listens to the variable `logs`, a `std::set<LogDefine>` ordered by name.
It goes through the new value and through the old one, and brings each logger from one
define to the other.  Both `setValue` and the listener ask with `operator==` whether
something has changed, and `operator==` of `LogDefine` does not look at the appenders.

`LogFormatter` decides by itself whether a pattern is valid; here that is a parameter.
-/

namespace Civan
namespace Log

open Config

section Defines

/-- `LogAppenderDefine`; type 1 is a file, 2 is the standard output. -/
structure LogAppenderDefine where
  type : ℤ
  level : Level
  file : String
deriving DecidableEq, Repr

/-- `LogDefine`. -/
structure LogDefine where
  name : String
  level : Level
  formatter : String
  appenders : List LogAppenderDefine
  bufferNodeSize : ℕ
deriving Repr

/-- What `operator==` of `LogDefine` compares. -/
def LogDefine.key (d : LogDefine) : String × Level × String :=
  (d.name, d.level, d.formatter)

/-- `LogDefine::operator==`. -/
instance : BEq LogDefine where
  beq d d' := d.key = d'.key

/-- `std::set<LogDefine>`: in the order of the names, which are distinct. -/
structure LogDefines where
  defines : List LogDefine
  sorted : defines.Pairwise (fun d d' => d.name < d'.name)

/-- `operator==` of `std::set`: the same elements, by their own `operator==`. -/
instance : BEq LogDefines where
  beq v v' := v.defines == v'.defines

/-- `std::set<LogDefine>()`. -/
def LogDefines.empty : LogDefines :=
  { defines := []
    sorted := List.Pairwise.nil }

/-- `find`, by the order on names. -/
def LogDefines.find (v : LogDefines) (name : String) : Option LogDefine :=
  v.defines.find? (fun d => d.name = name)

end Defines

section Loggers

/-- A `FileLogAppender`. -/
structure FileLogAppender where
  filename : String
  level : Level
deriving DecidableEq, Repr

/-- What the configuration sees of a `Logger`.  The level is a number: the listener uses
one that is not an enumerator. -/
structure Logger where
  level : ℕ
  formatter : String
  appenders : List FileLogAppender
  stdoutAppender : Bool
deriving DecidableEq, Repr

/-- The constructor. -/
def Logger.new : Logger :=
  { level := Level.debug.toNat
    formatter := "%d\x7b%Y-%m-%d %H:%M:%S\x7d%T%t%T%N%T%F%T[%p]%T[%c]%T%f:%l%T%m%T%n"
    appenders := []
    stdoutAppender := false }

namespace Logger

def setLevel (l : Logger) (level : ℕ) : Logger :=
  { l with level := level }

/-- `setFormatter`; an invalid pattern is reported and not used. -/
def setFormatter (isError : String → Bool) (l : Logger) (pattern : String) : Logger :=
  if isError pattern then l else { l with formatter := pattern }

def addAppender (l : Logger) (appender : FileLogAppender) : Logger :=
  { l with appenders := l.appenders ++ [appender] }

def setStdoutAppender (l : Logger) : Logger :=
  { l with stdoutAppender := true }

def clearAppenders (l : Logger) : Logger :=
  { l with appenders := [], stdoutAppender := false }

/-- The loop over the appenders of a define. -/
def install (l : Logger) (appenders : List LogAppenderDefine) : Logger :=
  appenders.foldl
    (fun l a =>
      if a.type = 1 then
        l.addAppender { filename := a.file, level := a.level }
      else if a.type = 2 then
        l.setStdoutAppender
      else
        l)
    l

/-- The branch for a new define. -/
def added (isError : String → Bool) (i : LogDefine) (l : Logger) : Logger :=
  let l := l.setLevel i.level.toNat
  let l := if i.formatter ≠ "" then l.setFormatter isError i.formatter else l
  l.clearAppenders.install i.appenders

/-- The branch for a define that has changed. -/
def modified (isError : String → Bool) (i it : LogDefine) (l : Logger) : Logger :=
  let l := l.setLevel i.level.toNat
  let l :=
    if i.formatter ≠ "" ∧ i.formatter ≠ it.formatter then
      l.setFormatter isError i.formatter
    else
      l
  if i.appenders ≠ it.appenders then l.clearAppenders.install i.appenders else l

/-- The branch for a define that is gone. -/
def deleted (l : Logger) : Logger :=
  (l.setLevel 100).clearAppenders

end Logger

/-- `m_loggers`. -/
abbrev LoggerManager := String → Option Logger

/-- `getLogger`: the logger of that name, made if there is none. -/
def LoggerManager.getLogger (m : LoggerManager) (name : String) : Logger :=
  (m name).getD Logger.new

/-- Calls on the logger that `getLogger` returns. -/
def LoggerManager.modify (m : LoggerManager) (name : String) (f : Logger → Logger) :
    LoggerManager :=
  Function.update m name (some (f (m.getLogger name)))

/-- The listener of `LogIniter`. -/
def onLogChange (isError : String → Bool) (old new : LogDefines) (m : LoggerManager) :
    LoggerManager :=
  let m := new.defines.foldl
    (fun m i =>
      match old.find i.name with
      | none => m.modify i.name (Logger.added isError i)
      | some it => if !(i == it) then m.modify i.name (Logger.modified isError i it) else m)
    m
  old.defines.foldl
    (fun m i =>
      match new.find i.name with
      | none => m.modify i.name Logger.deleted
      | some _ => m)
    m

/-- The variable `logs` with its listener. -/
def logDefines (isError : String → Bool) : ConfigVar LogDefines LoggerManager :=
  { val := .empty
    cbs := [(0, onLogChange isError)] }

/-- The variable and the loggers after a sequence of assignments. -/
def assign (isError : String → Bool) (m : LoggerManager) (vs : List LogDefines) :
    ConfigVar LogDefines LoggerManager × LoggerManager :=
  vs.foldl (fun s v => s.1.setValue v s.2) (logDefines isError, m)

end Loggers

section Equality

variable {d d' : LogDefine} {v v' : LogDefines} {name : String}

theorem beq_iff_key : (d == d') = true ↔ d.key = d'.key :=
  decide_eq_true_iff

/-- The set as `operator==` sees it. -/
def LogDefines.keys (v : LogDefines) : List (String × Level × String) :=
  v.defines.map LogDefine.key

theorem list_beq_iff_keys (l l' : List LogDefine) :
    (l == l') = true ↔ l.map LogDefine.key = l'.map LogDefine.key := by
  induction l generalizing l' with
  | nil => cases l' <;> simp
  | cons d l ih =>
    cases l' with
    | nil => simp
    | cons d' l' => simp [ih, beq_iff_key]

theorem defines_beq_iff_keys : (v == v') = true ↔ v.keys = v'.keys :=
  list_beq_iff_keys v.defines v'.defines

theorem LogDefines.nodup_names (v : LogDefines) : (v.defines.map LogDefine.name).Nodup := by
  rw [List.nodup_iff_pairwise_ne, List.pairwise_map]
  refine v.sorted.imp ?_
  intro d d' hlt heq
  rw [heq] at hlt
  exact String.lt_irrefl _ hlt

theorem LogDefines.eq_of_name (v : LogDefines) (hd : d ∈ v.defines) (hd' : d' ∈ v.defines)
    (hname : d.name = d'.name) :
    d = d' :=
  List.inj_on_of_nodup_map v.nodup_names hd hd' hname

theorem LogDefines.find_eq_some (v : LogDefines) :
    v.find name = some d ↔ d ∈ v.defines ∧ d.name = name := by
  constructor
  · intro h
    exact ⟨List.mem_of_find?_eq_some h, by simpa using List.find?_some h⟩
  · rintro ⟨hd, hname⟩
    cases hfind : v.find name with
    | none =>
      have hnot := List.find?_eq_none.mp hfind d hd
      simp [hname] at hnot
    | some d' =>
      have hd' := List.mem_of_find?_eq_some hfind
      have hname' : d'.name = name := by simpa using List.find?_some hfind
      rw [v.eq_of_name hd' hd (hname'.trans hname.symm)]

theorem LogDefines.find_eq_none (v : LogDefines) :
    v.find name = none ↔ ∀ d ∈ v.defines, d.name ≠ name := by
  simp [LogDefines.find]

/-- Sets that are equal for `operator==` have defines that are. -/
theorem exists_of_keys_eq (hkeys : v.keys = v'.keys) (hd : d ∈ v.defines) :
    ∃ d' ∈ v'.defines, d.key = d'.key := by
  have hmem : d.key ∈ v'.keys := hkeys ▸ List.mem_map_of_mem hd
  obtain ⟨d', hd', heq⟩ := List.mem_map.mp hmem
  exact ⟨d', hd', heq.symm⟩

theorem find_eq_none_of_keys_eq (hkeys : v.keys = v'.keys) (h : v.find name = none) :
    v'.find name = none := by
  rw [LogDefines.find_eq_none] at h ⊢
  intro d hd hname
  obtain ⟨d', hd', heq⟩ := exists_of_keys_eq hkeys.symm hd
  exact h d' hd' ((congrArg Prod.fst heq).symm.trans hname)

theorem name_eq_of_key_eq (h : d.key = d'.key) : d.name = d'.name :=
  congrArg Prod.fst h

end Equality

section Listener

/-- A loop that writes one entry for each item, reading only that entry. -/
theorem foldl_update_apply {α κ ν : Type} [DecidableEq κ] (key : α → κ) (g : α → ν → ν)
    {l : List α} (hnodup : (l.map key).Nodup) (m : κ → ν) (k : κ) :
    l.foldl (fun m i => Function.update m (key i) (g i (m (key i)))) m k =
      match l.find? (fun i => key i = k) with
      | some i => g i (m k)
      | none => m k := by
  induction l generalizing m with
  | nil => rfl
  | cons i l ih =>
    rw [List.map_cons, List.nodup_cons] at hnodup
    rw [List.foldl_cons, ih hnodup.2]
    by_cases heq : key i = k
    · subst heq
      have hnone : l.find? (fun j => key j = key i) = none := by
        rw [List.find?_eq_none]
        intro j hj hji
        exact hnodup.1 (List.mem_map.mpr ⟨j, hj, by simpa using hji⟩)
      simp [hnone]
    · rw [List.find?_cons_of_neg (by simpa using heq), Function.update_of_ne (Ne.symm heq)]

variable (isError : String → Bool)

/-- What the first loop of the listener does to the logger of a define. -/
def applyNew (old : LogDefines) (i : LogDefine) (l : Option Logger) : Option Logger :=
  match old.find i.name with
  | none => some (Logger.added isError i (l.getD Logger.new))
  | some it => if !(i == it) then some (Logger.modified isError i it (l.getD Logger.new)) else l

/-- What the second loop does. -/
def applyOld (new : LogDefines) (i : LogDefine) (l : Option Logger) : Option Logger :=
  match new.find i.name with
  | none => some (Logger.deleted (l.getD Logger.new))
  | some _ => l

theorem onLogChange_eq_foldl (old new : LogDefines) (m : LoggerManager) :
    onLogChange isError old new m =
      old.defines.foldl
        (fun m i => Function.update m i.name (applyOld new i (m i.name)))
        (new.defines.foldl
          (fun m i => Function.update m i.name (applyNew isError old i (m i.name))) m) := by
  have hnew : ∀ (m : LoggerManager) (i : LogDefine),
      (match old.find i.name with
        | none => m.modify i.name (Logger.added isError i)
        | some it => if !(i == it) then m.modify i.name (Logger.modified isError i it) else m) =
        Function.update m i.name (applyNew isError old i (m i.name)) := by
    intro m i
    rw [applyNew]
    cases old.find i.name with
    | none => rfl
    | some it =>
      dsimp only
      split_ifs
      · rfl
      · exact (Function.update_eq_self ..).symm
  have hold : ∀ (m : LoggerManager) (i : LogDefine),
      (match new.find i.name with
        | none => m.modify i.name Logger.deleted
        | some _ => m) =
        Function.update m i.name (applyOld new i (m i.name)) := by
    intro m i
    rw [applyOld]
    cases new.find i.name with
    | none => rfl
    | some it => exact (Function.update_eq_self ..).symm
  simp only [onLogChange, hnew, hold]

/-- The listener, one logger at a time. -/
theorem onLogChange_apply (old new : LogDefines) (m : LoggerManager) (name : String) :
    onLogChange isError old new m name =
      match new.find name with
      | some i => applyNew isError old i (m name)
      | none =>
        match old.find name with
        | some _ => some (Logger.deleted (m.getLogger name))
        | none => m name := by
  have hfind : ∀ v : LogDefines, v.defines.find? (fun i => i.name = name) = v.find name :=
    fun _ => rfl
  rw [onLogChange_eq_foldl, foldl_update_apply LogDefine.name _ old.nodup_names,
    foldl_update_apply LogDefine.name _ new.nodup_names, hfind, hfind]
  cases hnew : new.find name with
  | some i =>
    cases hold : old.find name with
    | none => rfl
    | some it =>
      have hname := (old.find_eq_some.mp hold).2
      simp only [applyOld, hname, hnew]
  | none =>
    cases hold : old.find name with
    | none => rfl
    | some it =>
      have hname := (old.find_eq_some.mp hold).2
      simp only [applyOld, hname, hnew]
      rfl

end Listener

section Convergence

/-- The file appenders that a define lists. -/
def LogDefine.files (d : LogDefine) : List FileLogAppender :=
  (d.appenders.filter (fun a => a.type = 1)).map fun a => { filename := a.file, level := a.level }

/-- The define lists the standard output. -/
def LogDefine.stdout (d : LogDefine) : Bool :=
  d.appenders.any (fun a => a.type = 2)

/-- The logger has the level and exactly the appenders of the define. -/
structure Logger.Matches (l : Logger) (d : LogDefine) : Prop where
  level : l.level = d.level.toNat
  appenders : l.appenders = d.files
  stdout : l.stdoutAppender = d.stdout

/-- The logger has no appenders. -/
def Logger.Bare (l : Logger) : Prop :=
  l.appenders = [] ∧ l.stdoutAppender = false

/-- The loop over the appenders adds the files in order, and the standard output. -/
theorem install_eq (l : Logger) (appenders : List LogAppenderDefine) :
    (l.install appenders).level = l.level ∧
    (l.install appenders).appenders = l.appenders ++
      (appenders.filter (fun a => a.type = 1)).map
        (fun a => { filename := a.file, level := a.level }) ∧
    (l.install appenders).stdoutAppender =
      (l.stdoutAppender || appenders.any (fun a => a.type = 2)) := by
  induction appenders generalizing l with
  | nil => simp [Logger.install]
  | cons a appenders ih =>
    rw [Logger.install, List.foldl_cons]
    obtain ⟨hlevel, happenders, hstdout⟩ := ih
      (if a.type = 1 then
        l.addAppender { filename := a.file, level := a.level }
      else if a.type = 2 then
        l.setStdoutAppender
      else
        l)
    rw [Logger.install] at hlevel happenders hstdout
    rw [hlevel, happenders, hstdout]
    by_cases h₁ : a.type = 1
    · simp [h₁, Logger.addAppender]
    · by_cases h₂ : a.type = 2
      · simp [h₂, Logger.setStdoutAppender]
      · simp [h₁, h₂]

theorem clear_install_matches {l : Logger} {d : LogDefine} (hlevel : l.level = d.level.toNat) :
    (l.clearAppenders.install d.appenders).Matches d := by
  obtain ⟨h₁, h₂, h₃⟩ := install_eq l.clearAppenders d.appenders
  exact ⟨h₁.trans hlevel, h₂, h₃⟩

theorem setFormatter_keeps
    (isError : String → Bool) (l : Logger) (pattern : String) (p : Prop) [Decidable p] :
    (if p then l.setFormatter isError pattern else l).level = l.level ∧
    (if p then l.setFormatter isError pattern else l).appenders = l.appenders ∧
    (if p then l.setFormatter isError pattern else l).stdoutAppender = l.stdoutAppender := by
  rw [Logger.setFormatter]
  split_ifs
  · exact ⟨rfl, rfl, rfl⟩
  · exact ⟨rfl, rfl, rfl⟩
  · exact ⟨rfl, rfl, rfl⟩

/-- The branch for a new define brings the logger to it. -/
theorem added_matches (isError : String → Bool) (i : LogDefine) (l : Logger) :
    (Logger.added isError i l).Matches i :=
  clear_install_matches (setFormatter_keeps isError _ _ _).1

/-- The branch for a changed define brings the logger to it.  It leaves the appenders alone
if the old define lists the same ones. -/
theorem modified_matches (isError : String → Bool) {i it : LogDefine} {l : Logger}
    (happenders : l.appenders = it.files) (hstdout : l.stdoutAppender = it.stdout) :
    (Logger.modified isError i it l).Matches i := by
  obtain ⟨h₁, h₂, h₃⟩ := setFormatter_keeps isError (l.setLevel i.level.toNat) i.formatter
    (i.formatter ≠ "" ∧ i.formatter ≠ it.formatter)
  rw [Logger.modified]
  by_cases heq : i.appenders = it.appenders
  · rw [if_neg (not_not.mpr heq)]
    refine ⟨h₁, h₂.trans ?_, h₃.trans ?_⟩
    · rw [LogDefine.files, heq]
      exact happenders
    · rw [LogDefine.stdout, heq]
      exact hstdout
  · rw [if_pos heq]
    exact clear_install_matches h₁

theorem deleted_bare (l : Logger) : l.deleted.Bare :=
  ⟨rfl, rfl⟩

variable {isError : String → Bool} {m : LoggerManager} {v : LogDefines} {vs ws : List LogDefines}

/-- The value assigned last. -/
def newest (vs : List LogDefines) : LogDefines :=
  vs.getLastD .empty

/-- The loggers are what the values assigned so far ask for: those of the newest value
match their defines, and those that were in an earlier one only have no appenders. -/
structure Converged (vs : List LogDefines) (m : LoggerManager) : Prop where
  named : ∀ d ∈ (newest vs).defines, ∃ l, m d.name = some l ∧ l.Matches d
  dropped : ∀ v ∈ vs, ∀ d ∈ v.defines, (newest vs).find d.name = none → (m.getLogger d.name).Bare

/-- Defines that are equal for `operator==` list the same appenders. -/
def SameAppenders (old new : LogDefines) : Prop :=
  ∀ d ∈ new.defines, ∀ d' ∈ old.defines, d.key = d'.key →
    d.files = d'.files ∧ d.stdout = d'.stdout

/-- The state after the assignments: the variable is the newest value for `operator==`,
down to the appenders, and the loggers have converged. -/
structure Settled (isError : String → Bool) (m : LoggerManager) (vs : List LogDefines) :
    Prop where
  cbs : (assign isError m vs).1.cbs = (logDefines isError).cbs
  keys : (assign isError m vs).1.val.keys = (newest vs).keys
  same : SameAppenders (newest vs) (assign isError m vs).1.val
  converged : Converged vs (assign isError m vs).2

theorem newest_append_singleton (vs : List LogDefines) (v : LogDefines) :
    newest (vs ++ [v]) = v := by
  simp [newest]

theorem assign_append_of_keys_eq (h : v.keys = (assign isError m vs).1.val.keys) :
    assign isError m (vs ++ [v]) = assign isError m vs := by
  rw [assign, List.foldl_append]
  change (assign isError m vs).1.setValue v (assign isError m vs).2 = _
  rw [ConfigVar.setValue, if_pos (defines_beq_iff_keys.mpr h)]

theorem assign_append_of_keys_ne (hcbs : (assign isError m vs).1.cbs = (logDefines isError).cbs)
    (h : v.keys ≠ (assign isError m vs).1.val.keys) :
    (assign isError m (vs ++ [v])).1.val = v ∧
    (assign isError m (vs ++ [v])).1.cbs = (logDefines isError).cbs ∧
    (assign isError m (vs ++ [v])).2 =
      onLogChange isError (assign isError m vs).1.val v (assign isError m vs).2 := by
  have hassign : assign isError m (vs ++ [v]) =
      (assign isError m vs).1.setValue v (assign isError m vs).2 := by
    rw [assign, List.foldl_append]
    rfl
  rw [hassign, ConfigVar.setValue, if_neg (fun heq => h (defines_beq_iff_keys.mp heq))]
  refine ⟨rfl, hcbs, ?_⟩
  rw [ConfigVar.notify, hcbs]
  rfl

/-- A logger that matches a define matches every equal one with the same appenders. -/
theorem Logger.Matches.congr {l : Logger} {d d' : LogDefine} (h : l.Matches d')
    (hkey : d.key = d'.key) (hsame : d.files = d'.files ∧ d.stdout = d'.stdout) :
    l.Matches d := by
  have hlevel : d.level = d'.level := congrArg (fun k => k.2.1) hkey
  refine ⟨?_, ?_, ?_⟩
  · rw [hlevel]
    exact h.level
  · rw [hsame.1]
    exact h.appenders
  · rw [hsame.2]
    exact h.stdout

theorem settled_nil (isError : String → Bool) (m : LoggerManager) :
    Settled isError m [] where
  cbs := rfl
  keys := rfl
  same := by
    intro d hd
    cases hd
  converged :=
    { named := by
        intro d hd
        cases hd
      dropped := by
        intro v hv
        cases hv }

theorem Settled.matches_val (h : Settled isError m vs)
    {it : LogDefine} (hit : it ∈ (assign isError m vs).1.val.defines) :
    ∃ l, (assign isError m vs).2 it.name = some l ∧ l.Matches it := by
  obtain ⟨d', hd', hkey⟩ := exists_of_keys_eq h.keys hit
  obtain ⟨l, hl, hmatches⟩ := h.converged.named d' hd'
  rw [← name_eq_of_key_eq hkey] at hl
  exact ⟨l, hl, hmatches.congr hkey (h.same it hit d' hd' hkey)⟩

/-- The newest value and the variable list the same appenders. -/
theorem Settled.sameAppenders_iff (h : Settled isError m vs) (v : LogDefines) :
    SameAppenders (newest vs) v ↔ SameAppenders (assign isError m vs).1.val v := by
  constructor
  · intro hsame d hd it hit hkey
    obtain ⟨d', hd', hkey'⟩ := exists_of_keys_eq h.keys hit
    obtain ⟨hfiles, hstdout⟩ := hsame d hd d' hd' (hkey.trans hkey')
    obtain ⟨hfiles', hstdout'⟩ := h.same it hit d' hd' hkey'
    exact ⟨hfiles.trans hfiles'.symm, hstdout.trans hstdout'.symm⟩
  · intro hsame d hd d' hd' hkey
    obtain ⟨it, hit, hkey'⟩ := exists_of_keys_eq h.keys.symm hd'
    obtain ⟨hfiles, hstdout⟩ := hsame d hd it hit (hkey.trans hkey')
    obtain ⟨hfiles', hstdout'⟩ := h.same it hit d' hd' hkey'.symm
    exact ⟨hfiles.trans hfiles', hstdout.trans hstdout'⟩

/-- The logger of a define that `operator==` takes for unchanged is left alone. -/
theorem Settled.unchanged (h : Settled isError m vs) {d it : LogDefine} (hd : d ∈ v.defines)
    (hit : it ∈ (assign isError m vs).1.val.defines) (hkey : d.key = it.key) :
    (assign isError m (vs ++ [v])).2 d.name = (assign isError m vs).2 d.name := by
  by_cases hkeys : v.keys = (assign isError m vs).1.val.keys
  · rw [assign_append_of_keys_eq hkeys]
  · obtain ⟨_, _, hm⟩ := assign_append_of_keys_ne h.cbs hkeys
    have hnew : v.find d.name = some d := v.find_eq_some.mpr ⟨hd, rfl⟩
    have hold : (assign isError m vs).1.val.find d.name = some it :=
      (LogDefines.find_eq_some _).mpr ⟨hit, (name_eq_of_key_eq hkey).symm⟩
    rw [hm, onLogChange_apply, hnew]
    simp [applyNew, hold, beq_iff_key.mpr hkey]

/-- The loggers of the newest value itself are not among the dropped ones. -/
theorem converged_append_singleton
    (hnamed : ∀ d ∈ v.defines, ∃ l, m d.name = some l ∧ l.Matches d)
    (hdropped : ∀ w ∈ vs, ∀ d ∈ w.defines, v.find d.name = none → (m.getLogger d.name).Bare) :
    Converged (vs ++ [v]) m where
  named := by
    rw [newest_append_singleton]
    exact hnamed
  dropped := by
    rw [newest_append_singleton]
    intro w hw d hd hnone
    rcases List.mem_append.mp hw with hw | hw
    · exact hdropped w hw d hd hnone
    · rw [List.mem_singleton.mp hw] at hd
      exact absurd rfl ((v.find_eq_none).mp hnone d hd)

/-- A value that `operator==` takes for the old one changes nothing, and asks for nothing. -/
theorem Settled.append_of_keys_eq (h : Settled isError m vs)
    (hsame : SameAppenders (assign isError m vs).1.val v)
    (hkeys : v.keys = (assign isError m vs).1.val.keys) :
    Settled isError m (vs ++ [v]) := by
  have hassign := assign_append_of_keys_eq hkeys
  refine ⟨?_, ?_, ?_, ?_⟩
  · rw [hassign]
    exact h.cbs
  · rw [hassign, newest_append_singleton]
    exact hkeys.symm
  · rw [hassign, newest_append_singleton]
    intro it hit d hd hkey
    obtain ⟨hfiles, hstdout⟩ := hsame d hd it hit hkey.symm
    exact ⟨hfiles.symm, hstdout.symm⟩
  · rw [hassign]
    apply converged_append_singleton
    · intro d hd
      obtain ⟨it, hit, hkey⟩ := exists_of_keys_eq hkeys hd
      obtain ⟨l, hl, hmatches⟩ := h.matches_val hit
      rw [← name_eq_of_key_eq hkey] at hl
      exact ⟨l, hl, hmatches.congr hkey (hsame d hd it hit hkey)⟩
    · intro w hw d hd hnone
      have hnone' := find_eq_none_of_keys_eq (hkeys.trans h.keys) hnone
      exact h.converged.dropped w hw d hd hnone'

/-- The first loop of the listener brings every logger of the new value to its define. -/
theorem Settled.onLogChange_named (h : Settled isError m vs)
    (hsame : SameAppenders (assign isError m vs).1.val v) {d : LogDefine} (hd : d ∈ v.defines) :
    ∃ l, onLogChange isError (assign isError m vs).1.val v (assign isError m vs).2 d.name =
      some l ∧ l.Matches d := by
  have hnew : v.find d.name = some d := v.find_eq_some.mpr ⟨hd, rfl⟩
  rw [onLogChange_apply, hnew]
  cases hold : (assign isError m vs).1.val.find d.name with
  | none =>
    simp only [applyNew, hold]
    exact ⟨_, rfl, added_matches isError d _⟩
  | some it =>
    obtain ⟨hit, hname⟩ := (LogDefines.find_eq_some _).mp hold
    obtain ⟨l, hl, hmatches⟩ := h.matches_val hit
    rw [hname] at hl
    simp only [applyNew, hold, hl]
    by_cases hkey : d.key = it.key
    · simp only [beq_iff_key.mpr hkey]
      exact ⟨l, rfl, hmatches.congr hkey (hsame d hd it hit hkey)⟩
    · have hne : (d == it) = false := by
        rw [Bool.eq_false_iff]
        exact fun heq => hkey (beq_iff_key.mp heq)
      simp only [hne]
      exact ⟨_, rfl, modified_matches isError hmatches.appenders hmatches.stdout⟩

/-- The second loop takes the appenders from the loggers that are gone. -/
theorem Settled.onLogChange_dropped (h : Settled isError m vs) {w : LogDefines} (hw : w ∈ vs)
    {d : LogDefine} (hd : d ∈ w.defines) (hnone : v.find d.name = none) :
    ((onLogChange isError (assign isError m vs).1.val v (assign isError m vs).2).getLogger
      d.name).Bare := by
  rw [LoggerManager.getLogger, onLogChange_apply, hnone]
  cases hold : (assign isError m vs).1.val.find d.name with
  | none =>
    have hnone' := find_eq_none_of_keys_eq h.keys hold
    exact h.converged.dropped w hw d hd hnone'
  | some it => exact deleted_bare _

/-- One more assignment whose unchanged defines list the same appenders. -/
theorem Settled.append_singleton (h : Settled isError m vs)
    (hsame : SameAppenders (newest vs) v) :
    Settled isError m (vs ++ [v]) := by
  rw [h.sameAppenders_iff] at hsame
  by_cases hkeys : v.keys = (assign isError m vs).1.val.keys
  · exact h.append_of_keys_eq hsame hkeys
  · obtain ⟨hval, hcbs, hm⟩ := assign_append_of_keys_ne h.cbs hkeys
    refine ⟨hcbs, ?_, ?_, ?_⟩
    · rw [hval, newest_append_singleton]
    · rw [hval, newest_append_singleton]
      intro d hd d' hd' hkey
      rw [v.eq_of_name hd hd' (name_eq_of_key_eq hkey)]
      exact ⟨rfl, rfl⟩
    · rw [hm]
      exact converged_append_singleton (fun d hd => h.onLogChange_named hsame hd)
        (fun w hw d hd hnone => h.onLogChange_dropped hw hd hnone)

/-- If the loggers have converged again, the unchanged defines list the same appenders. -/
theorem Settled.sameAppenders_of_converged (h : Settled isError m vs)
    (hconv : Converged (vs ++ [v]) (assign isError m (vs ++ [v])).2) :
    SameAppenders (newest vs) v := by
  rw [h.sameAppenders_iff]
  intro d hd it hit hkey
  obtain ⟨l, hl, hmatches⟩ := hconv.named d (by rw [newest_append_singleton]; exact hd)
  obtain ⟨l', hl', hmatches'⟩ := h.matches_val hit
  rw [h.unchanged hd hit hkey, name_eq_of_key_eq hkey, hl', Option.some.injEq] at hl
  subst hl
  exact ⟨hmatches.appenders.symm.trans hmatches'.appenders,
    hmatches.stdout.symm.trans hmatches'.stdout⟩

theorem settled_of_sameAppenders (h : ∀ ws v, ws ++ [v] <+: vs → SameAppenders (newest ws) v) :
    Settled isError m vs := by
  induction vs using List.reverseRecOn with
  | nil => exact settled_nil isError m
  | append_singleton vs v ih =>
    refine (ih ?_).append_singleton (h vs v List.prefix_rfl)
    intro ws w hws
    exact h ws w (hws.trans (List.prefix_append vs [v]))

/--
Let any values be assigned to `logs` in turn.  After each assignment the loggers are what
the newest value asks for, exactly if no assignment changes the appenders of a logger
while it leaves its level and its formatter as they are.
-/
theorem logs_converge_iff (isError : String → Bool) (m : LoggerManager) (vs : List LogDefines) :
    (∀ ws, ws <+: vs → Converged ws (assign isError m ws).2) ↔
      ∀ ws v, ws ++ [v] <+: vs → SameAppenders (newest ws) v := by
  constructor
  · intro hconv
    induction vs using List.reverseRecOn with
    | nil =>
      intro ws v hws
      simp at hws
    | append_singleton vs v ih =>
      have hvs := ih (fun ws hws => hconv ws (hws.trans (List.prefix_append vs [v])))
      intro ws w hws
      rcases List.prefix_concat_iff.mp hws with heq | hws
      · obtain ⟨rfl, rfl⟩ : ws = vs ∧ w = v := by simpa using heq
        exact (settled_of_sameAppenders hvs).sameAppenders_of_converged
          (hconv (ws ++ [w]) List.prefix_rfl)
      · exact hvs ws w hws
  · intro hsame ws hws
    exact (settled_of_sameAppenders (fun us u hu => hsame us u (hu.trans hws))).converged

/-- A set with one define, of the logger `system` at level `info`. -/
def oneLogger (appenders : List LogAppenderDefine) : LogDefines :=
  { defines := [⟨"system", .info, "%m%n", appenders, 4096⟩]
    sorted := List.pairwise_singleton _ _ }

/-- The file of the logger changes, and nothing else. -/
def changesFile : List LogDefines :=
  [oneLogger [⟨1, .debug, "a.txt"⟩], oneLogger [⟨1, .debug, "b.txt"⟩]]

/-- `operator==` sees no change, and the logger keeps its first file. -/
theorem logs_keep_old_appenders :
    ((assign (fun _ => false) (fun _ => none) changesFile).2 "system").map Logger.appenders =
      some [⟨"a.txt", .debug⟩] ∧
    ¬ Converged changesFile (assign (fun _ => false) (fun _ => none) changesFile).2 := by
  have hfile : ((assign (fun _ => false) (fun _ => none) changesFile).2 "system").map
      Logger.appenders = some [⟨"a.txt", .debug⟩] := by decide
  refine ⟨hfile, ?_⟩
  intro hconv
  obtain ⟨l, hl, hmatches⟩ := hconv.named _ (List.mem_singleton_self _)
  rw [hl, Option.map_some, Option.some.injEq, hmatches.appenders] at hfile
  exact absurd hfile (by decide)

end Convergence

end Log
end Civan
