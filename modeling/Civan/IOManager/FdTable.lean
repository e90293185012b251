import Civan.Lib.Sections
import Civan.IOManager.Model

/-!
# The table of descriptor contexts

`addEvent` looks for its context under the read lock.  If the table is too small it
takes the write lock and resizes to `fd * 1.5`, whatever the size is by then: a thread
with a small descriptor can undo the growth that another thread made for a large one,
and the contexts that are cut off are lost.

The other calls look once.  What the calls do with the context they found is left out
here; it does not touch the table.
-/

namespace Civan
namespace IOManager

open Transition Sections
open MachineInt

/-- The calls that look for the context of a descriptor. -/
inductive TableCall where
  | addEvent (fd : ℕ)
  /-- `delEvent`, `cancelEvent` or `cancelAll`. -/
  | lookup (fd : ℕ)
deriving DecidableEq, Repr

/-- `m_fdContexts[fd]`. -/
def State.index (s : State) (fd : ℕ) : Except Failure FdPtr :=
  if fd < s.size then .ok (s.ptr fd) else .error .outOfBounds

/-- The sections; they show the context they found. -/
def tableSections : Calls State TableCall ℕ (Option FdPtr) Failure where
  first s
    | .addEvent fd =>
      if (fd : ℤ) < toInt32 s.size then
        some ((s.index fd).map fun p => (some p, s, none))
      else
        some (.ok (none, s, some fd))
    | .lookup fd =>
      if toInt32 s.size ≤ fd then
        some (.ok (none, s, none))
      else
        some ((s.index fd).map fun p => (some p, s, none))
  second s fd :=
    let s' := contextResize s (3 * fd / 2)
    (s'.index fd).map fun p => (some p, s')

/-- The context a call finds under its first lock. -/
def State.found (s : State) (c : TableCall) : Option FdPtr :=
  match tableSections.first s c with
  | some (.ok (o, _, _)) => o
  | _ => none

section Whole

variable {s : State} {fd : ℕ}

theorem index_of_lt_toInt32 (h : (fd : ℤ) < toInt32 s.size) : s.index fd = .ok (s.ptr fd) := by
  have hlt : fd < s.size := Int.ofNat_lt.mp (h.trans_le (toInt32_le s.size))
  rw [State.index, if_pos hlt]

theorem first_addEvent (s : State) (fd : ℕ) :
    tableSections.first s (.addEvent fd) =
      if (fd : ℤ) < toInt32 s.size then some (.ok (some (s.ptr fd), s, none))
      else some (.ok (none, s, some fd)) := by
  unfold tableSections
  dsimp only
  split_ifs with h
  · rw [index_of_lt_toInt32 h]
    rfl
  · rfl

theorem first_lookup (s : State) (fd : ℕ) :
    tableSections.first s (.lookup fd) =
      if toInt32 s.size ≤ fd then some (.ok (none, s, none))
      else some (.ok (some (s.ptr fd), s, none)) := by
  unfold tableSections
  dsimp only
  split_ifs with h
  · rfl
  · rw [index_of_lt_toInt32 (not_le.mp h)]
    rfl

/-- Without another thread in the gap this is the lookup of `addEvent`. -/
theorem whole_addEvent (s : State) (fd : ℕ) :
    tableSections.whole s (.addEvent fd) =
      some ((contextFor s fd).map fun r => (some r.1, r.2)) := by
  unfold Calls.whole contextFor
  rw [first_addEvent, if_neg (Int.natCast_nonneg fd).not_gt, Int.toNat_natCast]
  split_ifs with h
  · rfl
  · by_cases hlt : fd < (contextResize s (3 * fd / 2)).size
    · simp [tableSections, State.index, hlt, Except.map]
    · simp [tableSections, State.index, hlt, Except.map]

theorem whole_lookup (s : State) (fd : ℕ) :
    tableSections.whole s (.lookup fd) = some ((lookup s fd).map fun p => (p, s)) := by
  unfold Calls.whole lookup
  rw [first_lookup, if_neg (Int.natCast_nonneg fd).not_gt, Int.toNat_natCast]
  split_ifs with h
  · rfl
  · rfl

end Whole

section Race

variable {τ : Type} [DecidableEq τ]

/-- The threads as a transition system. -/
def table : System (Threads τ State ℕ) (Sections.Label τ TableCall) (Option FdPtr) :=
  Sections.system tableSections

/-- The resize of a second section does not shrink the table, and `int` holds its size. -/
def GrowsTable (s : Threads τ State ℕ) : Sections.Label τ TableCall → Prop
  | .first _ _ => True
  | .second t => ∀ fd ∈ s.between t, s.shared.size ≤ 3 * fd / 2 ∧ 3 * fd / 2 < 2 ^ 31

instance (s : Threads τ State ℕ) : DecidablePred (GrowsTable s)
  | .first _ _ => .isTrue trivial
  | .second _ => inferInstanceAs (Decidable (∀ _ ∈ _, _))

/-- The table still has all the contexts of an earlier one. -/
def Extends (s t : State) : Prop :=
  s.size ≤ t.size ∧ ∀ i < s.size, t.ptr i = s.ptr i

theorem Extends.trans {s t u : State} (hst : Extends s t) (htu : Extends t u) :
    Extends s u := by
  refine ⟨hst.1.trans htu.1, ?_⟩
  intro i hi
  rw [htu.2 i (hi.trans_le hst.1), hst.2 i hi]

theorem contextResize_extends {s : State} {size : ℕ} (h : s.size ≤ size) :
    Extends s (contextResize s size) := by
  refine ⟨h, ?_⟩
  intro i hi
  have hkept : ¬ (size ≤ i ∧ i < s.size) := by omega
  simp only [State.ptr, contextResize, if_neg hkept]

/-- A first section does not fail, since it compares before it indexes, and leaves the
table alone. -/
theorem first_ok (s : State) (c : TableCall) :
    ∃ o p, tableSections.first s c = some (.ok (o, s, p)) := by
  cases c with
  | addEvent fd =>
    rw [first_addEvent]
    split_ifs
    · exact ⟨_, _, rfl⟩
    · exact ⟨_, _, rfl⟩
  | lookup fd =>
    rw [first_lookup]
    split_ifs
    · exact ⟨_, _, rfl⟩
    · exact ⟨_, _, rfl⟩

theorem first_shared {s x : State} {c : TableCall} {o : Option FdPtr} {p : Option ℕ}
    (h : tableSections.first s c = some (.ok (o, x, p))) :
    x = s := by
  obtain ⟨o', p', hok⟩ := first_ok s c
  rw [hok] at h
  cases h
  rfl

/-- Only a descriptor beyond the table brings a thread to the second section. -/
theorem size_le_of_gap {s x : State} {c : TableCall} {o : Option FdPtr} {fd : ℕ}
    (h : tableSections.first s c = some (.ok (o, x, some fd))) :
    toInt32 s.size ≤ fd ∧ c = .addEvent fd := by
  cases c with
  | addEvent fd' =>
    rw [first_addEvent] at h
    split_ifs at h with hlt
    · cases h
    · cases h
      exact ⟨not_lt.mp hlt, rfl⟩
  | lookup fd' =>
    rw [first_lookup] at h
    split_ifs at h
    · cases h
    · cases h

theorem second_ok {s x : State} {fd : ℕ} {o : Option FdPtr}
    (h : tableSections.second s fd = .ok (o, x)) :
    x = contextResize s (3 * fd / 2) := by
  simp only [tableSections] at h
  cases hi : (contextResize s (3 * fd / 2)).index fd with
  | error e => simp [hi, Except.map] at h
  | ok p =>
    simp only [hi, Except.map, Except.ok.injEq, Prod.mk.injEq] at h
    exact h.2.symm

/-- The size of the table is at least 64 and fits in an `int`. -/
def Sized (s : State) : Prop :=
  64 ≤ s.size ∧ s.size < 2 ^ 31

theorem outline_sized :
    Outline (τ := τ) tableSections GrowsTable Sized (fun _ fd => 64 ≤ fd) where
  first := by
    intro s t c o x p _ hsized hfirst
    have hx := first_shared hfirst
    subst hx
    refine ⟨hsized, ?_⟩
    intro fd hfd
    rw [Option.mem_def.mp hfd] at hfirst
    have hle := (size_le_of_gap hfirst).1
    rw [toInt32_of_lt hsized.2] at hle
    exact hsized.1.trans (Int.ofNat_le.mp hle)
  second := by
    intro s t fd o x hgrows hsized hfd _ hsecond
    have hsize := hgrows fd hfd
    rw [second_ok hsecond]
    exact ⟨hsized.1.trans hsize.1, hsize.2⟩
  stable := by
    intro s l o s' t q _ _ _ _ hq
    exact hq

theorem step_extends
    {s s' : Threads τ State ℕ} {l : Sections.Label τ TableCall} {o : Option FdPtr}
    (hgrows : GrowsTable s l) (hstep : table.step s l = some (o, s')) :
    Extends s.shared s'.shared := by
  cases l with
  | first t c =>
    obtain ⟨_, x, p, hfirst, rfl⟩ := step_first hstep
    rw [first_shared hfirst]
    exact ⟨le_rfl, fun _ _ => rfl⟩
  | second t =>
    obtain ⟨fd, x, hfd, hsecond, rfl⟩ := step_second hstep
    rw [second_ok hsecond]
    exact contextResize_extends (hgrows fd hfd).1

theorem reachable_extends {s t : Threads τ State ℕ} (h : table.ReachableWhen GrowsTable s t) :
    Extends s.shared t.shared :=
  System.ReachableWhen.invariant
    (I := fun u => Extends s.shared u.shared)
    (fun _ _ _ _ hs hgrows hstep => hs.trans (step_extends hgrows hstep))
    ⟨le_rfl, fun _ _ => rfl⟩ h

theorem found_of_lt_toInt32 {s : State} {fd : ℕ} (h : (fd : ℤ) < toInt32 s.size) :
    s.found (.addEvent fd) = some (s.ptr fd) ∧ s.found (.lookup fd) = some (s.ptr fd) := by
  have hadd : tableSections.first s (.addEvent fd) = some (.ok (some (s.ptr fd), s, none)) := by
    rw [first_addEvent, if_pos h]
  have hlookup : tableSections.first s (.lookup fd) = some (.ok (some (s.ptr fd), s, none)) := by
    rw [first_lookup, if_neg (not_le.mpr h)]
  constructor
  · rw [State.found, hadd]
  · rw [State.found, hlookup]

/-- In a table that `int` can index, every lookup below the size finds the entry. -/
theorem found_eq {s : State} {fd : ℕ} (hsized : Sized s) (hfd : fd < s.size) :
    s.found (.addEvent fd) = some (s.ptr fd) ∧ s.found (.lookup fd) = some (s.ptr fd) := by
  apply found_of_lt_toInt32
  rw [toInt32_of_lt hsized.2]
  exact Int.ofNat_lt.mpr hfd

theorem second_index {s : State} {fd : ℕ} (hfd : 64 ≤ fd) :
    tableSections.second s fd =
      .ok (some ((contextResize s (3 * fd / 2)).ptr fd), contextResize s (3 * fd / 2)) := by
  have hlt : fd < (contextResize s (3 * fd / 2)).size := by
    change fd < 3 * fd / 2
    omega
  simp [tableSections, State.index, hlt, Except.map]

theorem table_faultless {s : Threads τ State ℕ} (hgap : ∀ t fd, s.between t = some fd → 64 ≤ fd)
    (l : Sections.Label τ TableCall) :
    fault tableSections s l = none := by
  apply fault_eq_none
  · intro t c e _ herror
    obtain ⟨o, p, hok⟩ := first_ok s.shared c
    rw [hok] at herror
    cases herror
  · intro t fd e _ hfd herror
    rw [second_index (hgap t fd hfd)] at herror
    cases herror

/--
In runs whose resizes do not shrink the table, the size never decreases, no section
indexes beyond it, and once the table has a context for a descriptor every later lookup
finds that one, under the first lock as under the second.
-/
theorem fdContexts_kept {s t : Threads τ State ℕ}
    (hs : table.ReachableWhen GrowsTable (Threads.start State.init) s)
    (ht : table.ReachableWhen GrowsTable s t) :
    s.shared.size ≤ t.shared.size ∧
    (∀ l, fault tableSections t l = none) ∧
    ∀ fd < s.shared.size,
      t.shared.found (.addEvent fd) = some (s.shared.ptr fd) ∧
      t.shared.found (.lookup fd) = some (s.shared.ptr fd) ∧
      ∀ thread, t.between thread = some fd → GrowsTable t (.second thread) →
        ∃ x, tableSections.second t.shared fd = .ok (some (s.shared.ptr fd), x) := by
  have hinit : Sized State.init := ⟨le_rfl, by decide⟩
  obtain ⟨hsized, hgap⟩ :=
    outline_sized.reachable (outline_sized.reachable (holds_start hinit) hs) ht
  obtain ⟨hsize, hptr⟩ := reachable_extends ht
  refine ⟨hsize, table_faultless hgap, ?_⟩
  intro fd hfd
  obtain ⟨hadd, hlookup⟩ := found_eq hsized (hfd.trans_le hsize)
  rw [hptr fd hfd] at hadd hlookup
  refine ⟨hadd, hlookup, ?_⟩
  intro thread hthread hgrows
  have hextends := contextResize_extends (hgrows fd hthread).1
  refine ⟨contextResize t.shared (3 * fd / 2), ?_⟩
  rw [second_index (hgap thread fd hthread), hextends.2 fd (hfd.trans_le hsize), hptr fd hfd]

/-- While a thread makes room no other one is about to, and the room it asks for is that of
an `int`. -/
def GrowsAlone (s : Threads τ State ℕ) : Sections.Label τ TableCall → Prop
  | .first _ c => ∀ fd, c = .addEvent fd → 3 * fd / 2 < 2 ^ 31
  | .second t => ∀ u, u ≠ t → s.between u = none

theorem outline_growsAlone :
    Outline (τ := τ) tableSections GrowsAlone Sized
      (fun s fd => s.size ≤ fd ∧ 3 * fd / 2 < 2 ^ 31) where
  first := by
    intro s t c o x p halone hsized hfirst
    have hx := first_shared hfirst
    subst hx
    refine ⟨hsized, ?_⟩
    intro fd hfd
    rw [Option.mem_def.mp hfd] at hfirst
    obtain ⟨hle, hc⟩ := size_le_of_gap hfirst
    rw [toInt32_of_lt hsized.2] at hle
    exact ⟨Int.ofNat_le.mp hle, halone fd hc⟩
  second := by
    intro s t fd o x _ hsized hfd hroom hsecond
    rw [second_ok hsecond]
    have hsize := hsized.1
    refine ⟨?_, hroom.2⟩
    change 64 ≤ 3 * fd / 2
    omega
  stable := by
    intro s l o s' u fd halone hstep hne hfd hroom
    cases l with
    | first t c =>
      obtain ⟨_, x, p, hfirst, rfl⟩ := step_first hstep
      rw [first_shared hfirst]
      exact hroom
    | second t =>
      rw [halone u hne] at hfd
      cases hfd

/-- Calls of `addEvent` that make room one after the other never shrink the table. -/
theorem growsTable_of_growsAlone {s : Threads τ State ℕ}
    (hs : table.ReachableWhen GrowsAlone (Threads.start State.init) s) :
    table.ReachableWhen GrowsTable (Threads.start State.init) s := by
  refine hs.mono (I := Holds Sized fun s fd => s.size ≤ fd ∧ 3 * fd / 2 < 2 ^ 31)
    (fun _ _ _ _ h halone hstep => outline_growsAlone.step h halone hstep) ?_
    (holds_start ⟨le_rfl, by decide⟩)
  intro s l h halone
  cases l with
  | first t c => trivial
  | second t =>
    intro fd hfd
    have hroom := h.2 t fd hfd
    omega

/-- Two threads make room, the second one for the larger descriptor. -/
theorem fdContexts_kept_growing :
    ∃ s t : Threads Bool State ℕ,
      table.ReachableWhen GrowsTable (Threads.start State.init) s ∧
      table.ReachableWhen GrowsTable s t ∧
      (100 < s.shared.size ∧ s.shared.size < t.shared.size) ∧
      t.shared.found (.lookup 100) = some (s.shared.ptr 100) := by
  obtain ⟨s, t, hs, ht, hsize⟩ := System.exists_reachableWhen_twice
    (M := table) (P := GrowsTable) (Threads.start State.init)
    [.first false (.addEvent 100), .first true (.addEvent 200), .second false] [.second true]
    (fun s t : Threads Bool State ℕ =>
      100 < s.shared.size ∧ s.shared.size < t.shared.size)
    (by decide)
  exact ⟨s, t, hs, ht, hsize, ((fdContexts_kept hs ht).2.2 100 hsize.1).2.1⟩

/--
Both threads see 64 contexts.  The first one makes room for descriptor 100, the second
one then resizes for descriptor 64: the context of 100 is gone, and the next `addEvent`
for 100 makes another one.
-/
theorem fdContexts_lost :
    ∃ s t : Threads Bool State ℕ,
      table.Reachable (Threads.start State.init) s ∧
      table.Reachable s t ∧
      t.shared.size < s.shared.size ∧
      s.shared.found (.lookup 100) = some ⟨100, 0⟩ ∧
      t.shared.found (.lookup 100) = none ∧
      (contextFor t.shared 100).toOption.map Prod.fst = some ⟨100, 1⟩ := by
  obtain ⟨s, t, hs, ht, hlost⟩ := System.exists_reachableWhen_twice
    (M := table) (P := fun _ _ => True) (Threads.start State.init)
    [.first false (.addEvent 100), .first true (.addEvent 64), .second false] [.second true]
    (fun s t : Threads Bool State ℕ =>
      t.shared.size < s.shared.size ∧
      s.shared.found (.lookup 100) = some ⟨100, 0⟩ ∧
      t.shared.found (.lookup 100) = none ∧
      (contextFor t.shared 100).toOption.map Prod.fst = some ⟨100, 1⟩)
    (by decide)
  exact ⟨s, t, hs.reachable, ht.reachable, hlost⟩

end Race

end IOManager
end Civan
