import Mathlib.Logic.Relation
import Civan.TimerManager.Model

/-!
# The set of timers

The calls change `m_timers` and the timers in it by a few kinds of edits, and a timer
is given a new `m_next` only while it is outside the set.  Any such edits leave the set
sorted by `(m_next, address)`.

Between two calls the set holds exactly the timers with a callback.  Within a call some
timers with a callback are outside; `Registered` keeps a list of those.
-/

namespace Civan
namespace TimerManager

open OrderedSet (Strict Sorted)
open Scheduler (Callback)

section Comparator

/-- The comparator is the lexicographic order of `(m_next, address)`. -/
theorem comparator_some (a b : Timer) :
    comparator (some a) (some b) = true ↔
      a.next < b.next ∨ a.next = b.next ∧ a.addr < b.addr := by
  simp only [comparator, UInt64.lt_iff_toNat_lt, ← UInt64.toNat_inj]
  split_ifs with hlt hgt
  · exact iff_of_true rfl (Or.inl hlt)
  · simp only [false_iff]
    omega
  · simp only [decide_eq_true_eq]
    omega

theorem State.before_strict (s : State) : Strict s.before where
  irrefl id := by
    rw [← Bool.not_eq_true, State.before, comparator_some]
    simp only [UInt64.lt_iff_toNat_lt]
    omega
  trans {i j k} hij hjk := by
    rw [State.before, comparator_some] at hij hjk ⊢
    simp only [UInt64.lt_iff_toNat_lt, ← UInt64.toNat_inj] at hij hjk ⊢
    omega

theorem State.before_or_before {s : State} {i j : TimerId}
    (haddr : (s.heap i).addr ≠ (s.heap j).addr) :
    s.before i j = true ∨ s.before j i = true := by
  simp only [State.before, comparator_some, UInt64.lt_iff_toNat_lt, ← UInt64.toNat_inj]
  omega

end Comparator

section Edits

/-- The set is sorted by the present values of `m_next`. -/
def State.Ordered (s : State) : Prop :=
  Sorted s.before s.timers

/-- What a call does to the timers and the set, one assignment at a time. -/
inductive Edit : State → State → Prop
  /-- Other fields of the manager. -/
  | fields {s s' : State} (hheap : s'.heap = s.heap) (htimers : s'.timers = s.timers) :
      Edit s s'
  /-- A timer outside the set. -/
  | outside {s : State} (id : TimerId) (t : Timer) (hout : id ∉ s.timers) :
      Edit s (s.write id t)
  /-- Any timer, but not its place in the order. -/
  | inside {s : State} (id : TimerId) (t : Timer)
      (hnext : t.next = (s.heap id).next) (haddr : t.addr = (s.heap id).addr) :
      Edit s (s.write id t)
  | erase {s : State} (timers : List TimerId) (hsub : timers.Sublist s.timers) :
      Edit s { s with timers := timers }
  | insert {s : State} (id : TimerId) :
      Edit s (s.insert id).2

/-- Any number of edits. -/
abbrev Edits : State → State → Prop :=
  Relation.ReflTransGen Edit

variable {s s' : State}

theorem State.before_write_of_ne {id i j : TimerId} {t : Timer} (hi : i ≠ id) (hj : j ≠ id) :
    (s.write id t).before i j = s.before i j := by
  simp [State.before, State.write, hi, hj]

/-- `m_cb`, `m_ms` and `m_recurring` have no part in the order. -/
theorem State.before_write_of_eq {id : TimerId} {t : Timer}
    (hnext : t.next = (s.heap id).next) (haddr : t.addr = (s.heap id).addr) :
    (s.write id t).before = s.before := by
  have hkey : ∀ i, ((s.write id t).heap i).next = (s.heap i).next ∧
      ((s.write id t).heap i).addr = (s.heap i).addr := by
    intro i
    by_cases hi : i = id
    · subst hi
      simp [State.write, hnext, haddr]
    · simp [State.write, hi]
  funext i j
  simp only [State.before, comparator, (hkey i).1, (hkey i).2, (hkey j).1, (hkey j).2]

theorem Edit.ordered (h : s.Ordered) (hedit : Edit s s') : s'.Ordered := by
  cases hedit with
  | fields hheap htimers =>
    unfold State.Ordered State.before
    rw [hheap, htimers]
    exact h
  | outside id t hout =>
    refine Sorted.congr h ?_
    intro i hi j hj
    exact State.before_write_of_ne (fun heq => hout (heq ▸ hi)) (fun heq => hout (heq ▸ hj))
  | inside id t hnext haddr =>
    unfold State.Ordered
    rw [State.before_write_of_eq hnext haddr]
    exact h
  | erase timers hsub => exact List.Pairwise.sublist hsub h
  | insert id => exact Sorted.insert s.before_strict h

/-- No sequence of edits puts the set out of order. -/
theorem Edits.ordered (h : s.Ordered) (hedits : Edits s s') : s'.Ordered := by
  induction hedits with
  | refl => exact h
  | tail _ hedit ih => exact hedit.ordered ih

end Edits

section InSet

/-- `m_timers` is in order, and holds no two timers at one address. -/
structure SetInvariant (s : State) : Prop where
  ordered : s.Ordered
  addr_inj : ∀ i ∈ s.timers, ∀ j ∈ s.timers, (s.heap i).addr = (s.heap j).addr → i = j

/-- Every timer with a callback is in the set.  So may be timers that were given an
empty one. -/
structure Tracked (s : State) : Prop extends SetInvariant s where
  armed : ∀ id, (s.heap id).cb.isSome → id ∈ s.timers
  allocated : ∀ id ∈ s.timers, id < s.allocated

variable {s : State} {id : TimerId} {t : Timer}

theorem SetInvariant.nodup (h : SetInvariant s) : s.timers.Nodup :=
  Sorted.nodup s.before_strict h.ordered

theorem SetInvariant.find_eq (h : SetInvariant s) (hid : id ∈ s.timers) :
    ∃ it, s.find id = some it ∧ s.timers[it]? = some id ∧
      s.eraseAt it = { s with timers := s.timers.erase id } := by
  obtain ⟨it, hfind, hget, herase⟩ := Sorted.find_of_mem s.before_strict h.ordered hid
  exact ⟨it, hfind, hget, by rw [State.eraseAt, herase]⟩

/-- A timer at an address of its own is given its fields and enters the set. -/
theorem SetInvariant.enter (h : SetInvariant s) (hout : id ∉ s.timers)
    (haddr : ∀ j ∈ s.timers, t.addr ≠ (s.heap j).addr) :
    SetInvariant ((s.write id t).insert id).2 ∧
      ∀ i, i ∈ ((s.write id t).insert id).2.timers ↔ i = id ∨ i ∈ s.timers := by
  have hself : (s.write id t).heap id = t := Function.update_self ..
  have hother : ∀ j ∈ s.timers, (s.write id t).heap j = s.heap j := by
    intro j hj
    have hne : j ≠ id := fun heq => hout (heq ▸ hj)
    exact Function.update_of_ne hne _ _
  have hmem : ∀ i, i ∈ ((s.write id t).insert id).2.timers ↔ i = id ∨ i ∈ s.timers := by
    intro i
    refine OrderedSet.mem_insert ?_
    intro j hj
    refine State.before_or_before ?_
    rw [hself, hother j hj]
    exact haddr j hj
  refine ⟨⟨?_, ?_⟩, hmem⟩
  · exact (Edit.insert id).ordered ((Edit.outside id t hout).ordered h.ordered)
  · intro i hi j hj heq
    change ((s.write id t).heap i).addr = ((s.write id t).heap j).addr at heq
    rcases (hmem i).mp hi with rfl | hi' <;> rcases (hmem j).mp hj with rfl | hj'
    · rfl
    · rw [hself, hother j hj'] at heq
      exact absurd heq (haddr j hj')
    · rw [hself, hother i hi'] at heq
      exact absurd heq.symm (haddr i hi')
    · rw [hother i hi', hother j hj'] at heq
      exact h.addr_inj i hi' j hj' heq

theorem SetInvariant.fields {s' : State} (h : SetInvariant s)
    (hheap : s'.heap = s.heap) (htimers : s'.timers = s.timers) :
    SetInvariant s' where
  ordered := (Edit.fields hheap htimers).ordered h.ordered
  addr_inj := by
    rw [hheap, htimers]
    exact h.addr_inj

theorem SetInvariant.write (h : SetInvariant s)
    (hnext : t.next = (s.heap id).next) (haddr : t.addr = (s.heap id).addr) :
    SetInvariant (s.write id t) where
  ordered := (Edit.inside id t hnext haddr).ordered h.ordered
  addr_inj := by
    have hsame : ∀ i, ((s.write id t).heap i).addr = (s.heap i).addr := by
      intro i
      by_cases hi : i = id
      · subst hi
        simp [State.write, haddr]
      · simp [State.write, hi]
    intro i hi j hj heq
    rw [hsame i, hsame j] at heq
    exact h.addr_inj i hi j hj heq

theorem SetInvariant.sublist {timers : List TimerId} (h : SetInvariant s)
    (hsub : timers.Sublist s.timers) :
    SetInvariant { s with timers := timers } where
  ordered := List.Pairwise.sublist hsub h.ordered
  addr_inj i hi j hj := h.addr_inj i (hsub.subset hi) j (hsub.subset hj)

/-- A timer is taken out, given a new time and put back. -/
theorem SetInvariant.reinsert (h : SetInvariant s) (hid : id ∈ s.timers)
    (haddr : t.addr = (s.heap id).addr) :
    SetInvariant ((State.write { s with timers := s.timers.erase id } id t).insert id).2 ∧
      ∀ i, i ∈ ((State.write { s with timers := s.timers.erase id } id t).insert id).2.timers ↔
        i ∈ s.timers := by
  have hmem : ∀ i, i ∈ s.timers.erase id ↔ i ≠ id ∧ i ∈ s.timers :=
    fun i => h.nodup.mem_erase_iff
  have hout : id ∉ s.timers.erase id := fun hin => ((hmem id).mp hin).1 rfl
  have hapart : ∀ j ∈ s.timers.erase id, t.addr ≠ (s.heap j).addr := by
    intro j hj heq
    obtain ⟨hne, hj⟩ := (hmem j).mp hj
    exact hne (h.addr_inj j hj id hid (heq.symm.trans haddr))
  obtain ⟨hset, hin⟩ := (h.sublist List.erase_sublist).enter hout hapart
  refine ⟨hset, fun i => ?_⟩
  rw [hin i]
  change i = id ∨ i ∈ s.timers.erase id ↔ _
  rw [hmem i]
  by_cases hi : i = id
  · subst hi
    simp [hid]
  · simp [hi]

/-- `cancel` takes a timer with a callback out of the set and drops the callback. -/
theorem Tracked.cancel_eq (h : Tracked s) :
    cancel s id =
      if (s.heap id).cb.isSome then
        .ok (true, { s.write id { s.heap id with cb := none } with
          timers := s.timers.erase id })
      else .ok (false, s) := by
  unfold cancel
  split_ifs with hcb
  · obtain ⟨it, hfind, _, herase⟩ := h.find_eq (h.armed id hcb)
    -- `m_cb` is cleared before the search, which does not look at it
    have hbefore : (s.write id { s.heap id with cb := none }).before = s.before :=
      State.before_write_of_eq rfl rfl
    have hfind' : (s.write id { s.heap id with cb := none }).find id = some it := by
      unfold State.find
      rw [hbefore]
      exact hfind
    have htimers : s.timers.eraseIdx it = s.timers.erase id :=
      congrArg State.timers herase
    simp only [hfind']
    rw [State.eraseAt, ← htimers]
    rfl
  · rfl

theorem Tracked.refresh_eq {now : UInt64} (h : Tracked s) :
    refresh s id now =
      if (s.heap id).cb.isSome then
        (true, ((State.write { s with timers := s.timers.erase id } id
          { s.heap id with next := now + (s.heap id).ms }).insert id).2)
      else (false, s) := by
  unfold refresh
  cases hcb : (s.heap id).cb with
  | none => rfl
  | some f =>
    obtain ⟨it, hfind, _, herase⟩ := h.find_eq (h.armed id (by rw [hcb]; rfl))
    simp only [Option.isNone_some, Bool.false_eq_true, if_false, hfind, herase,
      Option.isSome_some, if_true, hcb]

/-- The deadline that `reset` gives to a timer. -/
def Timer.resetNext (t : Timer) (ms : UInt64) (fromNow : Bool) (now : UInt64) : UInt64 :=
  ms + if fromNow then now else t.next - t.ms

/-- `reset` with the old period and the old start returns at once; else it takes a timer
with a callback out and puts it back. -/
theorem Tracked.reset_eq {ms : UInt64} {fromNow : Bool} {now : UInt64} (h : Tracked s) :
    reset s id ms fromNow now =
      if ms = (s.heap id).ms ∧ fromNow = false then ((true, false), s)
      else if (s.heap id).cb.isSome then
        let r := addTimerLocked (State.write { s with timers := s.timers.erase id } id
          { s.heap id with ms := ms, next := (s.heap id).resetNext ms fromNow now }) id
        ((true, r.1), r.2)
      else ((false, false), s) := by
  unfold reset
  by_cases hsame : ms = (s.heap id).ms ∧ fromNow = false
  · simp only [if_pos hsame]
  · cases hcb : (s.heap id).cb with
    | none =>
      simp only [if_neg hsame, hcb, Option.isNone_none, if_true, Option.isSome_none,
        Bool.false_eq_true, if_false]
    | some f =>
      obtain ⟨it, hfind, _, herase⟩ := h.find_eq (h.armed id (by rw [hcb]; rfl))
      simp only [if_neg hsame, hcb, Option.isNone_some, Bool.false_eq_true, if_false, hfind,
        herase, Option.isSome_some, if_true, Timer.resetNext]

end InSet

section Membership

/-- Exactly the timers with a callback are in the set, but for those in `out`. -/
structure Registered (out : List TimerId) (s : State) : Prop where
  armed_iff : ∀ id, (s.heap id).cb.isSome ↔ id ∈ s.timers ∨ id ∈ out
  disjoint : ∀ id ∈ out, id ∉ s.timers
  nodup : out.Nodup
  addr_inj : ∀ i j, (s.heap i).cb.isSome → (s.heap j).cb.isSome →
    (s.heap i).addr = (s.heap j).addr → i = j
  allocated : ∀ id, (s.heap id).cb.isSome → id < s.allocated

/-- What holds between two calls. -/
structure TimersOk (s : State) : Prop extends Registered [] s where
  ordered : s.Ordered

variable {s s' : State} {out : List TimerId} {id : TimerId} {t : Timer}

theorem Registered.fields (h : Registered out s)
    (hheap : s'.heap = s.heap) (htimers : s'.timers = s.timers)
    (hallocated : s'.allocated = s.allocated) :
    Registered out s' := by
  refine ⟨?_, ?_, h.nodup, ?_, ?_⟩
  · rw [hheap, htimers]
    exact h.armed_iff
  · rw [htimers]
    exact h.disjoint
  · rw [hheap]
    exact h.addr_inj
  · rw [hheap, hallocated]
    exact h.allocated

/-- Whether a timer has a callback, and its address, are as they were. -/
theorem Registered.write (h : Registered out s) (hcb : t.cb.isSome = (s.heap id).cb.isSome)
    (haddr : t.addr = (s.heap id).addr) :
    Registered out (s.write id t) := by
  have hsame : ∀ i, ((s.write id t).heap i).cb.isSome = (s.heap i).cb.isSome ∧
      ((s.write id t).heap i).addr = (s.heap i).addr := by
    intro i
    by_cases hi : i = id
    · subst hi
      simp [State.write, hcb, haddr]
    · simp [State.write, hi]
  refine ⟨?_, h.disjoint, h.nodup, ?_, ?_⟩
  · intro i
    rw [(hsame i).1]
    exact h.armed_iff i
  · intro i j
    rw [(hsame i).1, (hsame j).1, (hsame i).2, (hsame j).2]
    exact h.addr_inj i j
  · intro i
    rw [(hsame i).1]
    exact h.allocated i

theorem Registered.disarm (h : Registered (id :: out) s) (hcb : t.cb = none) :
    Registered out (s.write id t) := by
  obtain ⟨hnot, hnodup⟩ := List.nodup_cons.mp h.nodup
  have hself : ((s.write id t).heap id).cb = none := by simp [State.write, hcb]
  have hother : ∀ i, i ≠ id → (s.write id t).heap i = s.heap i :=
    fun i hi => Function.update_of_ne hi _ _
  have hne : ∀ i, ((s.write id t).heap i).cb.isSome → i ≠ id := by
    rintro i hi rfl
    simp [hself] at hi
  refine ⟨?_, ?_, hnodup, ?_, ?_⟩
  · intro i
    by_cases hi : i = id
    · subst hi
      have hout := h.disjoint i List.mem_cons_self
      simp only [hself, Option.isSome_none, Bool.false_eq_true, false_iff, not_or]
      exact ⟨hout, hnot⟩
    · rw [hother i hi, h.armed_iff i, List.mem_cons]
      simp only [hi, false_or]
      rfl
  · exact fun i hi => h.disjoint i (List.mem_cons_of_mem _ hi)
  · intro i j hi hj
    have hi' := hother i (hne i hi)
    have hj' := hother j (hne j hj)
    rw [hi'] at hi ⊢
    rw [hj'] at hj ⊢
    exact h.addr_inj i j hi hj
  · intro i hi
    rw [hother i (hne i hi)] at hi
    exact h.allocated i hi

theorem Registered.erase (h : Registered out s) (hnodup : s.timers.Nodup) (hid : id ∈ s.timers) :
    Registered (id :: out) { s with timers := s.timers.erase id } := by
  have hmem : ∀ i, i ∈ s.timers.erase id ↔ i ≠ id ∧ i ∈ s.timers :=
    fun i => hnodup.mem_erase_iff
  refine ⟨?_, ?_, ?_, h.addr_inj, h.allocated⟩
  · intro i
    rw [h.armed_iff i, hmem i, List.mem_cons]
    by_cases hi : i = id
    · subst hi
      simp [hid]
    · simp [hi]
  · intro i hi hin
    obtain ⟨hne, hin⟩ := (hmem i).mp hin
    rcases List.mem_cons.mp hi with rfl | hi
    · exact hne rfl
    · exact h.disjoint i hi hin
  · exact List.nodup_cons.mpr ⟨fun hin => h.disjoint id hin hid, h.nodup⟩

theorem Registered.eraseFront (h : Registered [] s) (hnodup : s.timers.Nodup) (n : ℕ) :
    Registered (s.timers.take n) { s with timers := s.timers.drop n } := by
  have hsplit := List.take_append_drop n s.timers
  refine ⟨?_, ?_, hnodup.sublist (List.take_sublist ..), h.addr_inj, h.allocated⟩
  · intro i
    have hmem : i ∈ s.timers ↔ i ∈ s.timers.take n ∨ i ∈ s.timers.drop n := by
      rw [← List.mem_append, hsplit]
    rw [h.armed_iff i, hmem]
    simp only [List.not_mem_nil, or_false]
    exact or_comm
  · rw [← hsplit] at hnodup
    intro i hi hin
    exact (List.nodup_append.mp hnodup).2.2 i hi i hin rfl

theorem Registered.insert (h : Registered (id :: out) s) : Registered out (s.insert id).2 := by
  obtain ⟨hnot, hnodup⟩ := List.nodup_cons.mp h.nodup
  have hid : id ∉ s.timers := h.disjoint id List.mem_cons_self
  have harmed : (s.heap id).cb.isSome := (h.armed_iff id).mpr (Or.inr List.mem_cons_self)
  -- no timer of the set is equivalent: it would have the same address
  have hmem : ∀ i, i ∈ (s.insert id).2.timers ↔ i = id ∨ i ∈ s.timers := by
    intro i
    refine OrderedSet.mem_insert ?_
    intro j hj
    refine State.before_or_before ?_
    intro haddr
    have heq := h.addr_inj id j harmed ((h.armed_iff j).mpr (Or.inl hj)) haddr
    exact hid (heq ▸ hj)
  refine ⟨?_, ?_, hnodup, h.addr_inj, h.allocated⟩
  · intro i
    rw [hmem i]
    change (s.heap i).cb.isSome ↔ _
    rw [h.armed_iff i, List.mem_cons]
    tauto
  · intro i hi hin
    rcases (hmem i).mp hin with rfl | hin
    · exact hnot hi
    · exact h.disjoint i (List.mem_cons_of_mem _ hi) hin

theorem Registered.allocate (h : Registered [] s) (hcb : t.cb.isSome)
    (haddr : ∀ i ∈ s.timers, (s.heap i).addr ≠ t.addr) :
    Registered [s.allocated] { s.write s.allocated t with allocated := s.allocated + 1 } := by
  have harmed : ∀ i, (s.heap i).cb.isSome ↔ i ∈ s.timers := by
    intro i
    simpa using h.armed_iff i
  have hfresh : s.allocated ∉ s.timers := by
    intro hin
    exact absurd (h.allocated _ ((harmed _).mpr hin)) (Nat.lt_irrefl _)
  have hheap : ∀ i, (s.write s.allocated t).heap i = if i = s.allocated then t else s.heap i :=
    fun i => Function.update_apply ..
  refine ⟨?_, ?_, List.nodup_singleton _, ?_, ?_⟩
  · intro i
    simp only [hheap, List.mem_singleton]
    by_cases hi : i = s.allocated
    · simp [hi, hcb]
    · simp only [hi, if_false, or_false]
      exact harmed i
  · intro i hi
    rw [List.mem_singleton.mp hi]
    exact hfresh
  · intro i j
    simp only [hheap]
    by_cases hi : i = s.allocated <;> by_cases hj : j = s.allocated
    · exact fun _ _ _ => hi.trans hj.symm
    · simp only [hi, hj, if_true, if_false]
      exact fun _ hjarmed heq => absurd heq.symm (haddr j ((harmed j).mp hjarmed))
    · simp only [hi, hj, if_true, if_false]
      exact fun hiarmed _ heq => absurd heq (haddr i ((harmed i).mp hiarmed))
    · simp only [hi, hj, if_false]
      exact h.addr_inj i j
  · intro i
    simp only [hheap]
    by_cases hi : i = s.allocated
    · exact fun _ => hi ▸ Nat.lt_succ_self _
    · simp only [hi, if_false]
      exact fun hiarmed => Nat.lt_succ_of_lt (h.allocated i hiarmed)

end Membership

section Calls

variable {s s' : State} {id : TimerId}

/-- The set is edited, and afterwards holds exactly the timers with a callback. -/
def Keeps (s s' : State) : Prop :=
  Edits s s' ∧ Registered [] s'

theorem TimersOk.mem_iff (h : TimersOk s) : id ∈ s.timers ↔ (s.heap id).cb.isSome := by
  simpa using (h.armed_iff id).symm

theorem TimersOk.of_keeps (h : TimersOk s) (hkeeps : Keeps s s') :
    TimersOk s' where
  toRegistered := hkeeps.2
  ordered := Edits.ordered h.ordered hkeeps.1

/-- The timers with a callback are those of the set. -/
theorem TimersOk.tracked (h : TimersOk s) :
    Tracked s where
  ordered := h.ordered
  addr_inj i hi j hj := h.addr_inj i j (h.mem_iff.mp hi) (h.mem_iff.mp hj)
  armed _ := h.mem_iff.mpr
  allocated id hid := h.toRegistered.allocated id (h.mem_iff.mp hid)

theorem TimersOk.nodup_timers (h : TimersOk s) : s.timers.Nodup :=
  h.tracked.nodup

/-- The state of a timer that was taken out of the set. -/
theorem TimersOk.erased (h : TimersOk s) (hcb : (s.heap id).cb.isSome) :
    Edit s { s with timers := s.timers.erase id } ∧
      Registered [id] { s with timers := s.timers.erase id } :=
  ⟨.erase _ List.erase_sublist, h.toRegistered.erase h.nodup_timers (h.mem_iff.mpr hcb)⟩

theorem Registered.reinsert {out : List TimerId} {t : Timer} (h : Registered (id :: out) s)
    (hcb : t.cb = (s.heap id).cb) (haddr : t.addr = (s.heap id).addr) :
    Edits s ((s.write id t).insert id).2 ∧ Registered out ((s.write id t).insert id).2 := by
  have hout : id ∉ s.timers := h.disjoint id List.mem_cons_self
  refine ⟨?_, (h.write (by rw [hcb]) haddr).insert⟩
  exact (Relation.ReflTransGen.single (.outside id t hout)).tail (.insert id)

/-- `addTimer(timer, lock)` is `insert`, but for `m_tickled`. -/
theorem addTimerLocked_fields (s : State) (id : TimerId) :
    (addTimerLocked s id).2.heap = s.heap ∧
      (addTimerLocked s id).2.timers = (s.insert id).2.timers ∧
      (addTimerLocked s id).2.allocated = s.allocated := by
  unfold addTimerLocked
  dsimp only
  split_ifs <;> exact ⟨rfl, rfl, rfl⟩

theorem Keeps.addTimerLocked {s₁ : State} (h : Keeps s (s₁.insert id).2) :
    Keeps s (addTimerLocked s₁ id).2 := by
  obtain ⟨hheap, htimers, hallocated⟩ := addTimerLocked_fields s₁ id
  exact ⟨h.1.tail (.fields hheap htimers), h.2.fields hheap htimers hallocated⟩

theorem TimersOk.addTimer
    {ms : UInt64} {cb : Option Callback} {recurring : Bool} {now : UInt64} {addr : ℕ}
    (h : TimersOk s) (hcb : cb.isSome) (haddr : ∀ i ∈ s.timers, (s.heap i).addr ≠ addr) :
    Keeps s (addTimer s ms cb recurring now addr).2 := by
  have hnew := h.toRegistered.allocate (t := .new ms cb recurring now addr) hcb haddr
  have hout : s.allocated ∉ s.timers := hnew.disjoint _ List.mem_cons_self
  refine Keeps.addTimerLocked ⟨?_, hnew.insert⟩
  refine Relation.ReflTransGen.tail ?_ (.insert s.allocated)
  refine Relation.ReflTransGen.tail (.single (.outside s.allocated _ hout)) (.fields rfl rfl)

theorem TimersOk.cancel (h : TimersOk s) (hcb : (s.heap id).cb.isSome) :
    Keeps s { s.write id { s.heap id with cb := none } with timers := s.timers.erase id } := by
  obtain ⟨hedit, hregistered⟩ := h.erased hcb
  refine ⟨?_, hregistered.disarm rfl⟩
  exact (Relation.ReflTransGen.single hedit).tail (.inside id { s.heap id with cb := none } rfl rfl)

/-- `reset` does nothing, or takes a timer with a callback out and puts it back. -/
theorem TimersOk.reset_cases (h : TimersOk s) (ms : UInt64) (fromNow : Bool) (now : UInt64) :
    (reset s id ms fromNow now).2 = s ∨
      (s.heap id).cb.isSome ∧
        ∃ next, (reset s id ms fromNow now).2 =
          (addTimerLocked (State.write { s with timers := s.timers.erase id } id
            { s.heap id with ms := ms, next := next }) id).2 := by
  rw [h.tracked.reset_eq]
  split_ifs with hsame hcb
  · exact Or.inl rfl
  · exact Or.inr ⟨hcb, _, rfl⟩
  · exact Or.inl rfl

theorem TimersOk.reinsert {t : Timer} (h : TimersOk s) (hcb : (s.heap id).cb.isSome)
    (htcb : t.cb = (s.heap id).cb) (htaddr : t.addr = (s.heap id).addr) :
    Keeps s ((State.write { s with timers := s.timers.erase id } id t).insert id).2 := by
  obtain ⟨hedit, hregistered⟩ := h.erased hcb
  obtain ⟨hedits, hin⟩ := hregistered.reinsert htcb htaddr
  exact ⟨hedits.head hedit, hin⟩

theorem TimersOk.refresh {now : UInt64} (h : TimersOk s) : Keeps s (refresh s id now).2 := by
  rw [h.tracked.refresh_eq]
  split_ifs with hcb
  · exact h.reinsert hcb rfl rfl
  · exact ⟨.refl, h.toRegistered⟩

theorem TimersOk.reset {ms : UInt64} {fromNow : Bool} {now : UInt64} (h : TimersOk s) :
    Keeps s (reset s id ms fromNow now).2 := by
  rcases h.reset_cases ms fromNow now with hsame | ⟨hcb, next, hreset⟩
  · rw [hsame]
    exact ⟨.refl, h.toRegistered⟩
  · rw [hreset]
    refine Keeps.addTimerLocked ?_
    exact h.reinsert hcb rfl rfl

/-- The loop of `listExpiredCb` puts recurring timers back and disarms the others. -/
theorem Registered.handOut {expired : List TimerId} (h : Registered expired s) (now : UInt64) :
    Keeps s (handOut now expired s).2 := by
  induction expired generalizing s with
  | nil => exact ⟨.refl, h⟩
  | cons id expired ih =>
    simp only [TimerManager.handOut]
    split_ifs with hrecurring
    · obtain ⟨hedits, hregistered⟩ := h.reinsert
        (t := { s.heap id with next := now + (s.heap id).ms }) rfl rfl
      obtain ⟨hrest, hdone⟩ := ih hregistered
      exact ⟨hedits.trans hrest, hdone⟩
    · obtain ⟨hrest, hdone⟩ := ih (h.disarm (t := { s.heap id with cb := none }) rfl)
      exact ⟨hrest.head (.inside id { s.heap id with cb := none } rfl rfl), hdone⟩

/-- The three ways through `listExpiredCb`. -/
theorem listExpiredCb_cases (s : State) (now : UInt64) (addr : ℕ) :
    (∃ s', listExpiredCb s now addr = ([], s') ∧
      s'.heap = s.heap ∧ s'.timers = s.timers ∧ s'.allocated = s.allocated) ∨
    (∃ it, listExpiredCb s now addr =
      handOut now (s.timers.take it)
        { s with timers := s.timers.drop it, previousTime := now }) := by
  unfold listExpiredCb
  split
  · exact Or.inl ⟨s, rfl, rfl, rfl, rfl⟩
  · rename_i first rest htimers
    dsimp only
    split_ifs
    · exact Or.inl ⟨_, rfl, rfl, rfl, rfl⟩
    · exact Or.inr ⟨_, rfl⟩

theorem TimersOk.listExpiredCb {now : UInt64} {addr : ℕ} (h : TimersOk s) :
    Keeps s (listExpiredCb s now addr).2 := by
  rcases listExpiredCb_cases s now addr with
    ⟨s', heq, hheap, htimers, hallocated⟩ | ⟨it, heq⟩
  · rw [heq]
    exact ⟨.single (.fields hheap htimers), h.toRegistered.fields hheap htimers hallocated⟩
  · rw [heq]
    have hfront := h.toRegistered.eraseFront h.nodup_timers it
    have hstart : Registered (s.timers.take it)
        { s with timers := s.timers.drop it, previousTime := now } :=
      hfront.fields rfl rfl rfl
    obtain ⟨hedits, hdone⟩ := hstart.handOut now
    have htime : Edit { s with timers := s.timers.drop it }
        { s with timers := s.timers.drop it, previousTime := now } :=
      .fields rfl rfl
    exact ⟨(hedits.head htime).head (.erase _ (List.drop_sublist it s.timers)), hdone⟩

theorem getNextTimer_state (s : State) (now : UInt64) :
    (getNextTimer s now).2 = { s with tickled := false } := by
  unfold getNextTimer
  dsimp only
  split
  · rfl
  · split_ifs <;> rfl

theorem TimersOk.getNextTimer {now : UInt64} (h : TimersOk s) :
    Keeps s (getNextTimer s now).2 := by
  rw [getNextTimer_state]
  exact ⟨.single (.fields rfl rfl), h.toRegistered.fields rfl rfl rfl⟩

/-- No call erases `end()`. -/
theorem TimersOk.call_ne_error (h : TimersOk s) (l : Label) (f : Failure) :
    call s l ≠ some (.error f) := by
  cases l with
  | cancel id =>
    simp only [call, h.tracked.cancel_eq]
    split_ifs <;> simp [Except.map]
  | addTimer ms cb recurring now addr =>
    simp only [call]
    split_ifs <;> simp
  | refresh id now =>
    simp only [call]
    split_ifs <;> simp
  | reset id ms fromNow now =>
    simp only [call]
    split_ifs <;> simp
  | getNextTimer now => simp [call]
  | listExpiredCb now addr => simp [call]

end Calls

end TimerManager
end Civan
