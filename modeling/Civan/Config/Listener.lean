import Mathlib.Tactic

/-!
# The listeners of configuration variables

The variables of one type share a counter that `addListener` takes the key of a new
listener from.  The key is returned after the counter has moved on, so the handle a
caller gets is one above the key the listener is stored under.

`delListener` is read as erasing its key.  A callback may be the `nullptr`.

The law of handles is stated for the returned key less a number `d`.  It holds for
`d = 1`, and for `d = 0` it holds of the `nullptr` only.
-/

namespace Civan
namespace Config

universe u v

/-- `uint64_t`. -/
abbrev Key : Type :=
  BitVec 64

section Model

/-- The counter, and `m_cbs` of every variable. -/
structure Listeners (Var : Type u) (F : Type v) where
  key : Key
  cbs : Var → Key → Option (Option F)

inductive ListenerCall (Var : Type u) (F : Type v) where
  | addListener (var : Var) (cb : Option F)
  | delListener (var : Var) (key : Key)
  | clearListener (var : Var)
deriving DecidableEq, Repr

variable {Var : Type u} {F : Type v} [DecidableEq Var]

namespace Listeners

/-- No variable has a listener. -/
def start : Listeners Var F :=
  { key := 0, cbs := fun _ _ => none }

/-- One slot of `m_cbs` of one variable is written or erased. -/
def store (s : Listeners Var F) (var : Var) (key : Key) (entry : Option (Option F)) :
    Listeners Var F :=
  { s with cbs := Function.update s.cbs var (Function.update (s.cbs var) key entry) }

def addListener (s : Listeners Var F) (var : Var) (cb : Option F) : Listeners Var F × Key :=
  let s := s.store var s.key (some cb)
  let s := { s with key := s.key + 1 }
  (s, s.key)

def delListener (s : Listeners Var F) (var : Var) (key : Key) : Listeners Var F :=
  s.store var key none

def clearListener (s : Listeners Var F) (var : Var) : Listeners Var F :=
  { s with cbs := Function.update s.cbs var fun _ => none }

def getListener (s : Listeners Var F) (var : Var) (key : Key) : Option F :=
  match s.cbs var key with
  | none => none
  | some cb => cb

/-- One call, and the key it returns if it is an addition. -/
def call (s : Listeners Var F) : ListenerCall Var F → Listeners Var F × Option Key
  | .addListener var cb => ((s.addListener var cb).1, some (s.addListener var cb).2)
  | .delListener var key => (s.delListener var key, none)
  | .clearListener var => (s.clearListener var, none)

end Listeners

/-- The state after some calls. -/
def after (h : List (ListenerCall Var F)) : Listeners Var F :=
  h.foldl (fun s c => (s.call c).1) .start

/-- What call number `i` returns. -/
def returned (h : List (ListenerCall Var F)) (i : ℕ) : Option Key :=
  h[i]?.bind fun c => ((after (h.take i)).call c).2

end Model

section Law

variable {Var : Type u} {F : Type v} [DecidableEq Var] (d : Key) (h : List (ListenerCall Var F))

/-- Call number `i` added `cb` to `var` and returned `k`. -/
def Added (i : ℕ) (var : Var) (cb : Option F) (k : Key) : Prop :=
  h[i]? = some (.addListener var cb) ∧ returned h i = some k

/-- Neither call `m` for `i < m < j` takes the listener with handle `k` away. -/
def Untouched (i j : ℕ) (var : Var) (k : Key) : Prop :=
  ∀ m, i < m → m < j → h[m]? ≠ some (.delListener var k) ∧ h[m]? ≠ some (.clearListener var)

def Distinct : Prop :=
  ∀ i j var var' cb cb' k, Added h i var cb k → Added h j var' cb' k → i = j

/-- The handle finds the callback until it is used to delete it, or all are cleared. -/
def Finds : Prop :=
  ∀ i j var cb k, Added h i var cb k → i < j → j ≤ h.length → Untouched h i j var (k - d) →
    (after (h.take j)).getListener var (k - d) = cb

/-- Deleting a handle removes the listener, which was stored under the counter, and no
other. -/
def Removes : Prop :=
  ∀ i j var cb k, Added h i var cb k → i < j → h[j]? = some (.delListener var (k - d)) →
    (after (h.take (j + 1))).cbs var (after (h.take i)).key = none ∧
      ∀ var' key, (var', key) ≠ (var, (after (h.take i)).key) →
        (after (h.take (j + 1))).cbs var' key = (after (h.take j)).cbs var' key

/-- Where the returned key is deleted, it and the key before it are empty slots. -/
def DeletesEmpty : Prop :=
  ∀ i j var cb k, Added h i var cb k → i < j → h[j]? = some (.delListener var k) →
    (after (h.take j)).cbs var (k - 1) = none ∧ (after (h.take j)).cbs var k = none

end Law

section Calls

variable {Var : Type u} {F : Type v} {s : Listeners Var F} {c : ListenerCall Var F}
variable {var var' : Var} {key key' : Key} {cb : Option F} {entry : Option (Option F)}

theorem getListener_of_stored (hstored : s.cbs var key = some cb) :
    s.getListener var key = cb := by
  rw [Listeners.getListener, hstored]

variable [DecidableEq Var]

theorem store_self : (s.store var key entry).cbs var key = entry := by
  simp [Listeners.store]

theorem store_of_ne (hne : (var', key') ≠ (var, key)) :
    (s.store var key entry).cbs var' key' = s.cbs var' key' := by
  by_cases hvar : var' = var
  · subst hvar
    have hkey : key' ≠ key := fun hkey => hne (by rw [hkey])
    simp [Listeners.store, Function.update_of_ne hkey]
  · simp [Listeners.store, Function.update_of_ne hvar]

theorem call_cbs_eq_some (h : (s.call c).1.cbs var key = some cb) :
    (c = .addListener var cb ∧ key = s.key) ∨ s.cbs var key = some cb := by
  cases c with
  | addListener var' cb' =>
    change (s.store var' s.key (some cb')).cbs var key = some cb at h
    by_cases hslot : (var, key) = (var', s.key)
    · obtain ⟨rfl, rfl⟩ := Prod.mk.inj hslot
      rw [store_self, Option.some.injEq] at h
      exact .inl ⟨by rw [h], rfl⟩
    · rw [store_of_ne hslot] at h
      exact .inr h
  | delListener var' key' =>
    change (s.store var' key' none).cbs var key = some cb at h
    by_cases hslot : (var, key) = (var', key')
    · obtain ⟨rfl, rfl⟩ := Prod.mk.inj hslot
      rw [store_self] at h
      cases h
    · rw [store_of_ne hslot] at h
      exact .inr h
  | clearListener var' =>
    change Function.update s.cbs var' (fun _ => none) var key = some cb at h
    by_cases hvar : var = var'
    · subst hvar
      rw [Function.update_self] at h
      cases h
    · rw [Function.update_of_ne hvar] at h
      exact .inr h

theorem call_cbs_of_untouched (hadd : s.key ≠ key) (hdel : c ≠ .delListener var key)
    (hclear : c ≠ .clearListener var) :
    (s.call c).1.cbs var key = s.cbs var key := by
  cases c with
  | addListener var' cb' =>
    apply store_of_ne
    intro hslot
    exact hadd (Prod.mk.inj hslot).2.symm
  | delListener var' key' =>
    apply store_of_ne
    intro hslot
    obtain ⟨rfl, rfl⟩ := Prod.mk.inj hslot
    exact hdel rfl
  | clearListener var' =>
    have hvar : var ≠ var' := fun hvar => hclear (by rw [hvar])
    change Function.update s.cbs var' (fun _ => none) var key = _
    rw [Function.update_of_ne hvar]

end Calls

section History

variable {Var : Type u} {F : Type v} {h : List (ListenerCall Var F)} {i j : ℕ} {var : Var}
variable {cb : Option F} {k key : Key}

def ListenerCall.isAdd : ListenerCall Var F → Bool
  | .addListener _ _ => true
  | .delListener _ _ => false
  | .clearListener _ => false

/-- The number of additions. -/
def adds (h : List (ListenerCall Var F)) : ℕ :=
  h.countP ListenerCall.isAdd

theorem adds_take_le (h : List (ListenerCall Var F)) (i : ℕ) : adds (h.take i) ≤ adds h :=
  (List.take_sublist i h).countP_le

theorem adds_take_lt (hadd : h[i]? = some (.addListener var cb)) (hij : i < j) :
    adds (h.take i) < adds (h.take j) := by
  have hle : adds (h.take (i + 1)) ≤ adds (h.take j) := by
    rw [← Nat.min_eq_left (show i + 1 ≤ j from hij), ← List.take_take]
    exact adds_take_le (h.take j) (i + 1)
  rw [List.take_add_one, hadd, adds, List.countP_append] at hle
  exact hle

variable [DecidableEq Var]

theorem after_append_singleton (h : List (ListenerCall Var F)) (c : ListenerCall Var F) :
    after (h ++ [c]) = ((after h).call c).1 := by
  rw [after, List.foldl_append]
  rfl

theorem after_take_succ {c : ListenerCall Var F} (hc : h[i]? = some c) :
    after (h.take (i + 1)) = ((after (h.take i)).call c).1 := by
  rw [List.take_add_one, hc]
  exact after_append_singleton (h.take i) c

/-- The counter counts the additions. -/
theorem key_after (h : List (ListenerCall Var F)) :
    (after h).key = BitVec.ofNat 64 (adds h) := by
  induction h using List.reverseRecOn with
  | nil => rfl
  | append_singleton h c ih =>
    rw [after_append_singleton, adds, List.countP_append, BitVec.ofNat_add]
    cases c with
    | addListener var cb => exact congrArg (· + 1) ih
    | delListener var key => exact ih.trans (BitVec.add_zero _).symm
    | clearListener var => exact ih.trans (BitVec.add_zero _).symm

/-- Below the range of the counter, its values are as many as the additions. -/
theorem ofNat_inj {m n : ℕ} (hm : m < 2 ^ 64) (hn : n < 2 ^ 64)
    (h : BitVec.ofNat 64 m = BitVec.ofNat 64 n) :
    m = n := by
  have hmod : m % 2 ^ 64 = n % 2 ^ 64 := congrArg BitVec.toNat h
  omega

theorem Added.eq (hadded : Added h i var cb k) : k = (after (h.take i)).key + 1 := by
  obtain ⟨hadd, hreturned⟩ := hadded
  rw [returned, hadd] at hreturned
  exact (Option.some.inj hreturned).symm

theorem Added.lt_length (hadded : Added h i var cb k) : i < h.length :=
  (List.getElem?_eq_some_iff.mp hadded.1).1

theorem exists_added (hmem : .addListener var cb ∈ h) : ∃ i k, Added h i var cb k := by
  obtain ⟨i, hi⟩ := List.mem_iff_getElem?.mp hmem
  refine ⟨i, (after (h.take i)).key + 1, hi, ?_⟩
  rw [returned, hi]
  rfl

/-- What is stored was added, under a value that the counter has had. -/
theorem stored_cases (hstored : (after h).cbs var key = some cb) :
    .addListener var cb ∈ h ∧ ∃ n < adds h, key = BitVec.ofNat 64 n := by
  induction h using List.reverseRecOn with
  | nil => cases hstored
  | append_singleton h c ih =>
    rw [after_append_singleton] at hstored
    rcases call_cbs_eq_some hstored with ⟨rfl, rfl⟩ | hbefore
    · refine ⟨by simp, adds h, ?_, key_after h⟩
      rw [adds, adds, List.countP_append]
      exact Nat.lt_succ_self _
    · obtain ⟨hmem, n, hn, hkey⟩ := ih hbefore
      refine ⟨List.mem_append_left _ hmem, n, ?_, hkey⟩
      rw [adds, List.countP_append]
      exact Nat.lt_add_right _ hn

theorem stored_until (hadds : adds h < 2 ^ 64) (hadd : h[i]? = some (.addListener var cb))
    (hij : i < j) (hj : j ≤ h.length) (huntouched : Untouched h i j var (after (h.take i)).key) :
    (after (h.take j)).cbs var (after (h.take i)).key = some cb := by
  induction j, hij using Nat.le_induction with
  | base =>
    rw [after_take_succ hadd]
    exact store_self
  | succ j hij ih =>
    have hc := List.getElem?_eq_getElem (Nat.lt_of_succ_le hj)
    have hbefore := ih (by omega) fun m him hmj => huntouched m him (by omega)
    obtain ⟨hdel, hclear⟩ := huntouched j hij (Nat.lt_succ_self j)
    rw [hc, ne_eq, Option.some.injEq] at hdel hclear
    have hkey : (after (h.take j)).key ≠ (after (h.take i)).key := by
      rw [key_after, key_after]
      intro heq
      have hlt := adds_take_lt hadd hij
      have hle := adds_take_le h j
      have hsame := ofNat_inj (by omega) (by omega) heq
      omega
    rw [after_take_succ hc, call_cbs_of_untouched hkey hdel hclear, hbefore]

end History

section Handles

variable {Var : Type u} {F : Type v} [DecidableEq Var] {h : List (ListenerCall Var F)}

theorem distinct_of_adds (hadds : adds h < 2 ^ 64) : Distinct h := by
  have hlt : ∀ {i j : ℕ} {var var' cb cb' k}, Added h i var cb k → Added h j var' cb' k →
      ¬ i < j := by
    intro i j var var' cb cb' k hi hj hij
    have heq := congrArg (· - 1) (hi.eq.symm.trans hj.eq)
    simp only [key_after, BitVec.add_sub_cancel] at heq
    have hless := adds_take_lt hi.1 hij
    have hle := adds_take_le h j
    have hsame := ofNat_inj (by omega) (by omega) heq
    omega
  intro i j var var' cb cb' k hi hj
  exact Nat.le_antisymm (Nat.not_lt.mp (hlt hj hi)) (Nat.not_lt.mp (hlt hi hj))

/-- The returned key less one is the key the listener is stored under. -/
theorem finds_one (hadds : adds h < 2 ^ 64) : Finds 1 h := by
  intro i j var cb k hadded hij hj huntouched
  rw [hadded.eq, BitVec.add_sub_cancel] at huntouched ⊢
  exact getListener_of_stored (stored_until hadds hadded.1 hij hj huntouched)

theorem removes_one : Removes 1 h := by
  intro i j var cb k hadded _ hdel
  rw [hadded.eq, BitVec.add_sub_cancel] at hdel
  rw [after_take_succ hdel]
  exact ⟨store_self, fun var' key hne => store_of_ne hne⟩

theorem not_stored_returned {i : ℕ} {var : Var} {cb : Option F} {k : Key}
    (hadds : adds h < 2 ^ 64) (hadded : Added h i var cb k) :
    (after (h.take (i + 1))).cbs var k = none := by
  cases hstored : (after (h.take (i + 1))).cbs var k with
  | none => rfl
  | some cb' =>
    obtain ⟨-, n, hn, hkey⟩ := stored_cases hstored
    have hreturned : k = (after (h.take (i + 1))).key := by
      rw [hadded.eq, after_take_succ hadded.1]
      rfl
    have hle := adds_take_le h (i + 1)
    rw [hreturned, key_after] at hkey
    have hsame := ofNat_inj (by omega) (by omega) hkey
    omega

theorem finds_zero_iff (hadds : adds h < 2 ^ 64) :
    Finds 0 h ↔ ∀ var cb, .addListener var cb ∈ h → cb = none := by
  constructor
  · intro hfinds var cb hmem
    obtain ⟨i, k, hadded⟩ := exists_added hmem
    have hget := hfinds i (i + 1) var cb k hadded (Nat.lt_succ_self i) hadded.lt_length
      (fun m him hmi => by omega)
    have hzero : k - 0 = k := BitVec.sub_zero k
    rw [hzero, Listeners.getListener, not_stored_returned hadds hadded] at hget
    exact hget.symm
  · intro hnull i j var cb k hadded _ _ _
    rw [hnull var cb (List.mem_of_getElem? hadded.1), Listeners.getListener]
    split
    · rfl
    · rename_i cb' hstored
      have hmem := (stored_cases hstored).1
      exact hnull var cb' (List.mem_of_mem_take hmem)

theorem kept_by_returned {i j : ℕ} {var : Var} {cb : Option F} {k : Key}
    (hadded : Added h i var cb k) (hdel : h[j]? = some (.delListener var k)) :
    (after (h.take (j + 1))).cbs var (after (h.take i)).key =
      (after (h.take j)).cbs var (after (h.take i)).key := by
  rw [after_take_succ hdel]
  apply store_of_ne
  intro hslot
  have hkey := (Prod.mk.inj hslot).2
  rw [hadded.eq] at hkey
  exact absurd hkey (by simp)

/-- The returned key erases its own slot, and the listener stands in the one before. -/
theorem removes_zero_iff : Removes 0 h ↔ DeletesEmpty h := by
  have hzero : ∀ k : Key, k - 0 = k := BitVec.sub_zero
  constructor
  · intro hremoves i j var cb k hadded hij hdel
    obtain ⟨hgone, hothers⟩ := hremoves i j var cb k hadded hij (by rw [hzero, hdel])
    have hne : (var, k) ≠ (var, (after (h.take i)).key) := by simp [hadded.eq]
    constructor
    · rw [hadded.eq, BitVec.add_sub_cancel, ← kept_by_returned hadded hdel, hgone]
    · rw [← hothers var k hne, after_take_succ hdel]
      exact store_self
  · intro hempty i j var cb k hadded hij hdel
    rw [hzero] at hdel
    obtain ⟨hbefore, hslot⟩ := hempty i j var cb k hadded hij hdel
    rw [hadded.eq, BitVec.add_sub_cancel] at hbefore
    refine ⟨by rw [kept_by_returned hadded hdel, hbefore], ?_⟩
    intro var' key _
    rw [after_take_succ hdel]
    by_cases hkey : (var', key) = (var, k)
    · obtain ⟨rfl, rfl⟩ := Prod.mk.inj hkey
      rw [hslot]
      exact store_self
    · exact store_of_ne hkey

/-- For fewer than `2 ^ 64` additions: the returned keys are distinct, and the law of
handles holds for the returned key less one.  The returned key itself finds a callback
only if it is the `nullptr`, and deleting it does not remove the listener, so that the law
holds for it exactly if there is nothing to find and nothing to delete. -/
theorem listener_handles (h : List (ListenerCall Var F)) (hadds : adds h < 2 ^ 64) :
    Distinct h ∧ Finds 1 h ∧ Removes 1 h ∧
      (Finds 0 h ↔ ∀ var cb, .addListener var cb ∈ h → cb = none) ∧
      (∀ i j var cb k, Added h i var cb k → h[j]? = some (.delListener var k) →
        (after (h.take (j + 1))).cbs var (after (h.take i)).key =
          (after (h.take j)).cbs var (after (h.take i)).key) ∧
      (Distinct h ∧ Finds 0 h ∧ Removes 0 h ↔
        (∀ var cb, .addListener var cb ∈ h → cb = none) ∧ DeletesEmpty h) := by
  have hdistinct := distinct_of_adds hadds
  have hfinds := finds_zero_iff hadds
  refine ⟨hdistinct, finds_one hadds, removes_one, hfinds, ?_, ?_⟩
  · intro i j var cb k hadded hdel
    exact kept_by_returned hadded hdel
  · rw [hfinds, removes_zero_iff]
    exact and_iff_right hdistinct

/-- Two listeners of one variable; the handle of the first deletes the second. -/
def twoListeners : List (ListenerCall Unit ℕ) :=
  [.addListener () (some 7), .addListener () (some 8), .delListener () 1]

theorem twoListeners_handles :
    adds twoListeners < 2 ^ 64 ∧ Distinct twoListeners ∧ Finds 1 twoListeners ∧
      Removes 1 twoListeners := by
  have hadds : adds twoListeners < 2 ^ 64 := by decide
  have hlaw := listener_handles twoListeners hadds
  exact ⟨hadds, hlaw.1, hlaw.2.1, hlaw.2.2.1⟩

theorem twoListeners_wrong :
    returned twoListeners 0 = some 1 ∧
      (after (twoListeners.take 1)).getListener () 1 = none ∧
      (after (twoListeners.take 2)).getListener () 1 = some 8 ∧
      (after twoListeners).getListener () 0 = some 7 ∧
      (after twoListeners).getListener () 1 = none := by
  decide

end Handles

end Config
end Civan
