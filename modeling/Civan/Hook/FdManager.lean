import Mathlib.Data.Fintype.Basic
import Mathlib.Data.List.GetD
import Civan.Lib.KeyHistory
import Civan.Lib.MachineInt
import Civan.Lib.Sections

/-!
# The manager of descriptor contexts

`FdManager::get` looks for the `FdCtx` of a descriptor under the read lock.  If there
is none and it may create one, it makes it without a lock and stores it under the
write lock.  It does not look again: two threads that both missed store two contexts,
and the first one is lost to everybody but the thread that made it.

An `FdCtx` is known by its pointer, so that what is set through one handle is seen
through an equal one.  Pointers are numbered in the order of the stores.
-/

namespace Civan
namespace FdManager

open Transition Sections KeyHistory
open MachineInt

section Model

/-- `m_datas`, and the number of contexts made so far. -/
structure State where
  datas : List (Option ℕ)
  created : ℕ
deriving DecidableEq, Repr

/-- After the constructor. -/
def State.init : State :=
  { datas := List.replicate 64 none
    created := 0 }

/-- What ends the process. -/
inductive Failure where
  | outOfBounds
deriving DecidableEq, Repr

/-- `m_datas[fd]`. -/
def State.index (s : State) (fd : ℤ) : Except Failure (Option ℕ) :=
  if 0 ≤ fd ∧ fd < s.datas.length then
    .ok (s.datas.getD fd.toNat none)
  else
    .error .outOfBounds

/-- `m_datas[fd] = ctx`. -/
def State.assign (s : State) (fd : ℤ) (ctx : Option ℕ) : Except Failure State :=
  if 0 ≤ fd ∧ fd < s.datas.length then
    .ok { s with datas := s.datas.set fd.toNat ctx }
  else
    .error .outOfBounds

/-- `m_datas.resize(size)`. -/
def State.resize (s : State) (size : ℕ) : State :=
  { s with datas := s.datas.take size ++ List.replicate (size - s.datas.length) none }

inductive Call where
  | get (fd : ℤ) (autoCreate : Bool)
  | del (fd : ℤ)
deriving DecidableEq, Repr

/-- What a section shows. -/
inductive Outcome where
  /-- `get` returns. -/
  | got (fd : ℤ) (ctx : Option ℕ)
  /-- `get` goes on to make a context. -/
  | missed (fd : ℤ)
  | deleted (fd : ℤ)
deriving DecidableEq, Repr

/-- The sections; `get` brings the descriptor to the second one. -/
def sections : Calls State Call ℤ Outcome Failure where
  first s
    | .get fd autoCreate =>
      if fd = -1 then
        some (.ok (.got fd none, s, none))
      else if toInt32 s.datas.length ≤ fd then
        if autoCreate = false then
          some (.ok (.got fd none, s, none))
        else
          some (.ok (.missed fd, s, some fd))
      else
        some ((s.index fd).map fun ctx =>
          if ctx.isSome ∨ autoCreate = false then
            (.got fd ctx, s, none)
          else
            (.missed fd, s, some fd))
    | .del fd =>
      if toInt32 s.datas.length ≤ fd then
        some (.ok (.deleted fd, s, none))
      else
        some ((s.assign fd none).map fun s' => (.deleted fd, s', none))
  second s fd :=
    let s' := if toInt32 s.datas.length ≤ fd then s.resize (3 * fd.toNat / 2) else s
    (s'.assign fd (some s.created)).map fun s'' =>
      (.got fd (some s.created), { s'' with created := s.created + 1 })

end Model

section Slots

variable {s : State} {fd : ℤ}

/-- The context of a descriptor, if the table has one. -/
def State.slot (s : State) (fd : ℤ) : Option ℕ :=
  if 0 ≤ fd then s.datas.getD fd.toNat none else none

/-- The table has at least the first 64 entries, `int` holds its size, and the contexts
in it have been made. -/
structure Good (s : State) : Prop where
  le_length : 64 ≤ s.datas.length
  length_lt : s.datas.length < 2 ^ 31
  slot_lt : ∀ fd p, s.slot fd = some p → p < s.created

/-- The descriptors for which `get` makes a context. -/
def Fits (fd : ℤ) : Prop :=
  0 ≤ fd ∧ 3 * fd / 2 < 2 ^ 31

theorem Good.toInt32_length (hs : Good s) : toInt32 s.datas.length = s.datas.length :=
  toInt32_of_lt hs.length_lt

theorem slot_of_nonneg (h : 0 ≤ fd) : s.slot fd = s.datas.getD fd.toNat none := by
  rw [State.slot, if_pos h]

theorem slot_of_length_le (h : s.datas.length ≤ fd) : s.slot fd = none := by
  have hfd : 0 ≤ fd := by omega
  rw [slot_of_nonneg hfd, List.getD_eq_default]
  omega

theorem index_eq (hfd : 0 ≤ fd) (hlt : fd < s.datas.length) : s.index fd = .ok (s.slot fd) := by
  rw [State.index, if_pos ⟨hfd, hlt⟩, slot_of_nonneg hfd]

theorem assign_eq (hfd : 0 ≤ fd) (hlt : fd < s.datas.length) (ctx : Option ℕ) :
    ∃ x, s.assign fd ctx = .ok x ∧ x.slot = Function.update s.slot fd ctx ∧
      x.datas.length = s.datas.length ∧ x.created = s.created := by
  refine ⟨_, if_pos ⟨hfd, hlt⟩, ?_, List.length_set .., rfl⟩
  funext fd'
  by_cases heq : fd' = fd
  · subst heq
    have hlen : fd'.toNat < s.datas.length := by omega
    rw [Function.update_self, slot_of_nonneg hfd]
    simp [hlen]
  · rw [Function.update_of_ne heq]
    by_cases hfd' : 0 ≤ fd'
    · have hne : fd.toNat ≠ fd'.toNat := by omega
      rw [slot_of_nonneg hfd', slot_of_nonneg hfd']
      simp [List.getD, List.getElem?_set_ne hne]
    · rw [State.slot, State.slot, if_neg hfd', if_neg hfd']

theorem resize_slot {size : ℕ} (h : s.datas.length ≤ size) : (s.resize size).slot = s.slot := by
  funext fd
  by_cases hfd : 0 ≤ fd
  · rw [slot_of_nonneg hfd, slot_of_nonneg hfd]
    simp only [State.resize, List.take_of_length_le h]
    rcases Nat.lt_or_ge fd.toNat s.datas.length with hlt | hge
    · rw [List.getD_append _ _ _ _ hlt]
    · rw [List.getD_append_right _ _ _ _ hge, List.getD_eq_default _ _ hge]
      exact List.getElem?_getD_replicate_default_eq ..
  · rw [State.slot, State.slot, if_neg hfd, if_neg hfd]

end Slots

section Specs

variable {s : State} {fd : ℤ}

/-- A result of `get` as an edit of the map from descriptors to contexts. -/
def Outcome.edit : Outcome → Edit ℤ ℕ
  | .got fd (some p) => .put fd p
  | .got _ none => .skip
  | .missed _ => .skip
  | .deleted fd => .erase fd

/-- `del` is not called for `-1`, and the descriptors of `get` are `-1` or fit. -/
def Call.InDomain : Call → Prop
  | .get fd _ => fd = -1 ∨ Fits fd
  | .del fd => 0 ≤ fd

theorem Call.InDomain.neg_one_le {autoCreate : Bool} (h : (Call.get fd autoCreate).InDomain) :
    -1 ≤ fd := by
  rcases h with heq | hfits
  · exact heq.ge
  · exact le_trans (by decide) hfits.1

theorem first_get (hs : Good s) (hfd : -1 ≤ fd) (autoCreate : Bool) :
    sections.first s (.get fd autoCreate) =
      if (s.slot fd).isSome ∨ autoCreate = false ∨ fd = -1 then
        some (.ok (.got fd (s.slot fd), s, none))
      else
        some (.ok (.missed fd, s, some fd)) := by
  unfold sections
  dsimp only
  rw [hs.toInt32_length]
  rcases hfd.eq_or_lt with heq | hlt
  · subst heq
    simp [State.slot]
  · have hnonneg : 0 ≤ fd := by omega
    rw [if_neg hlt.ne']
    by_cases hbeyond : (s.datas.length : ℤ) ≤ fd
    · rw [if_pos hbeyond, slot_of_length_le hbeyond]
      simp [hlt.ne']
    · rw [if_neg hbeyond, index_eq hnonneg (not_le.mp hbeyond)]
      simp only [Except.map, hlt.ne', or_false]
      split_ifs
      · rfl
      · rfl

theorem first_del (hs : Good s) (hfd : 0 ≤ fd) :
    ∃ x, sections.first s (.del fd) = some (.ok (.deleted fd, x, none)) ∧
      x.slot = Function.update s.slot fd none ∧
      x.datas.length = s.datas.length ∧ x.created = s.created := by
  unfold sections
  dsimp only
  rw [hs.toInt32_length]
  by_cases hbeyond : (s.datas.length : ℤ) ≤ fd
  · refine ⟨s, if_pos hbeyond, ?_, rfl, rfl⟩
    rw [← slot_of_length_le hbeyond, Function.update_eq_self]
  · obtain ⟨x, hx, hrest⟩ := assign_eq hfd (not_le.mp hbeyond) none
    refine ⟨x, ?_, hrest⟩
    rw [if_neg hbeyond, hx]
    rfl

theorem second_get (hs : Good s) (hfd : Fits fd) :
    ∃ x, sections.second s fd = .ok (.got fd (some s.created), x) ∧
      x.slot = (Edit.put fd s.created).onMap s.slot ∧
      (64 ≤ x.datas.length ∧ x.datas.length < 2 ^ 31) ∧ x.created = s.created + 1 := by
  have hlo := hs.le_length
  have hhi := hs.length_lt
  obtain ⟨hnonneg, hfits⟩ := hfd
  unfold sections
  dsimp only
  rw [hs.toInt32_length]
  by_cases hbeyond : (s.datas.length : ℤ) ≤ fd
  · have hlen : (s.resize (3 * fd.toNat / 2)).datas.length = 3 * fd.toNat / 2 := by
      simp only [State.resize, List.length_append, List.length_take, List.length_replicate]
      omega
    obtain ⟨x, hx, hslot, hxlen, hcreated⟩ := assign_eq
      (s := s.resize (3 * fd.toNat / 2)) hnonneg (by omega) (some s.created)
    rw [if_pos hbeyond, hx]
    refine ⟨_, rfl, ?_, ?_, rfl⟩
    · rw [← resize_slot (by omega : s.datas.length ≤ 3 * fd.toNat / 2)]
      exact hslot
    · change 64 ≤ x.datas.length ∧ x.datas.length < 2 ^ 31
      omega
  · obtain ⟨x, hx, hslot, hxlen, hcreated⟩ :=
      assign_eq hnonneg (not_le.mp hbeyond) (some s.created)
    rw [if_neg hbeyond, hx]
    refine ⟨_, rfl, hslot, ?_, rfl⟩
    change 64 ≤ x.datas.length ∧ x.datas.length < 2 ^ 31
    omega

/-- What a first section leaves; a context it returns was in the slot. -/
theorem first_spec {x : State} {c : Call} {o : Outcome} {p : Option ℤ} (hs : Good s)
    (hdom : c.InDomain) (h : sections.first s c = some (.ok (o, x, p))) :
    x.slot = o.edit.onMap s.slot ∧
    x.datas.length = s.datas.length ∧ x.created = s.created ∧
    (∀ fd ∈ p, Fits fd) ∧ ∀ fd v, o.edit = .put fd v → s.slot fd = some v := by
  cases c with
  | get fd autoCreate =>
    rw [first_get hs hdom.neg_one_le] at h
    split_ifs at h with hret
    · cases h
      cases hslot : s.slot fd with
      | none => simp [Outcome.edit, Edit.onMap]
      | some p =>
        refine ⟨?_, rfl, rfl, by simp, ?_⟩
        · rw [Outcome.edit, Edit.onMap, ← hslot, Function.update_eq_self]
        · rintro fd' v ⟨rfl, rfl⟩
          exact hslot
    · cases h
      have hne : fd ≠ -1 := fun heq => hret (Or.inr (Or.inr heq))
      refine ⟨rfl, rfl, rfl, ?_, ?_⟩
      · rintro fd' ⟨rfl⟩
        exact hdom.resolve_left hne
      · rintro fd' v ⟨⟩
  | del fd =>
    obtain ⟨y, hy, hslot, hlen, hcreated⟩ := first_del hs hdom
    rw [hy] at h
    cases h
    refine ⟨hslot, hlen, hcreated, by simp, ?_⟩
    rintro fd' v ⟨⟩

end Specs

section Race

variable {τ : Type} [DecidableEq τ]

/-- The threads as a transition system. -/
def threads : System (Threads τ State ℤ) (Sections.Label τ Call) Outcome :=
  Sections.system sections

/-- All contexts that `get` returned for a descriptor between two `del` are the same. -/
def OneCtx (os : List Outcome) : Prop :=
  Steady (os.map Outcome.edit)

/-- The arguments of the calls are in the domain. -/
def InDomain (_ : Threads τ State ℤ) : Sections.Label τ Call → Prop
  | .first _ c => c.InDomain
  | .second _ => True

/-- No other thread has stored a context since the test. -/
def StillMissing (s : Threads τ State ℤ) : Sections.Label τ Call → Prop
  | .first _ _ => True
  | .second t => ∀ fd ∈ s.between t, s.shared.slot fd = none

instance (fd : ℤ) : Decidable (Fits fd) :=
  inferInstanceAs (Decidable (_ ∧ _))

instance : DecidablePred Call.InDomain
  | .get _ _ => inferInstanceAs (Decidable (_ ∨ _))
  | .del _ => inferInstanceAs (Decidable (_ ≤ _))

instance (s : Threads τ State ℤ) : DecidablePred (InDomain s)
  | .first _ c => inferInstanceAs (Decidable c.InDomain)
  | .second _ => .isTrue trivial

instance (s : Threads τ State ℤ) : DecidablePred (StillMissing s)
  | .first _ _ => .isTrue trivial
  | .second _ => inferInstanceAs (Decidable (∀ _ ∈ _, _))

theorem slot_init : State.init.slot = fun _ => none := by
  funext fd
  rw [State.slot]
  split_ifs
  · exact List.getElem?_getD_replicate_default_eq ..
  · rfl

theorem good_init :
    Good State.init where
  le_length := by simp [State.init]
  length_lt := by simp [State.init]
  slot_lt := by
    intro fd p hp
    rw [slot_init] at hp
    cases hp

theorem outline_good :
    Outline (τ := τ) sections InDomain Good (fun _ fd => Fits fd) where
  first := by
    intro s t c o x p hdom hs hfirst
    obtain ⟨hslot, hlen, hcreated, hfits, hput⟩ := first_spec hs hdom hfirst
    refine ⟨⟨by rw [hlen]; exact hs.le_length, by rw [hlen]; exact hs.length_lt, ?_⟩, hfits⟩
    intro fd q hq
    rw [hslot] at hq
    rw [hcreated]
    rcases Edit.onMap_eq_some hq with heq | hold
    · exact hs.slot_lt fd q (hput fd q heq)
    · exact hs.slot_lt fd q hold
  second := by
    intro s t fd o x _ hs _ hfits hsecond
    obtain ⟨y, hy, hslot, hlen, hcreated⟩ := second_get hs hfits
    rw [hy] at hsecond
    cases hsecond
    refine ⟨hlen.1, hlen.2, ?_⟩
    intro fd' q hq
    rw [hslot] at hq
    rw [hcreated]
    rcases Edit.onMap_eq_some hq with heq | hold
    · cases heq
      exact Nat.lt_succ_self _
    · exact (hs.slot_lt fd' q hold).trans (Nat.lt_succ_self _)
  stable := by
    intro s l o s' t q _ _ _ _ hq
    exact hq

/-- The table agrees with what the calls have shown so far. -/
def Agrees (os : List Outcome) (s : Threads τ State ℤ) : Prop :=
  Holds Good (fun _ fd => Fits fd) s ∧ Current (os.map Outcome.edit) s.shared.slot

variable {s s' : Threads τ State ℤ} {l : Sections.Label τ Call} {o : Outcome} {os : List Outcome}

theorem step_slot (hs : Holds Good (fun _ fd => Fits fd) s) (hdom : InDomain s l)
    (hstep : threads.step s l = some (o, s')) :
    s'.shared.slot = o.edit.onMap s.shared.slot := by
  cases l with
  | first t c =>
    obtain ⟨_, x, p, hfirst, rfl⟩ := step_first hstep
    exact (first_spec hs.1 hdom hfirst).1
  | second t =>
    obtain ⟨fd, x, hfd, hsecond, rfl⟩ := step_second hstep
    obtain ⟨y, hy, hslot, _⟩ := second_get hs.1 (hs.2 t fd hfd)
    rw [hy] at hsecond
    cases hsecond
    exact hslot

theorem Agrees.step (hs : Agrees os s) (hdom : InDomain s l)
    (hstep : threads.step s l = some (o, s')) :
    Agrees (os ++ [o]) s' := by
  refine ⟨outline_good.step hs.1 hdom hstep, ?_⟩
  rw [step_slot hs.1 hdom hstep, List.map_append]
  exact hs.2.append_singleton o.edit

/-- A step returns the context in force, exactly if it does not replace one. -/
theorem oneCtx_append_iff (hs : Agrees os s) (hdom : InDomain s l)
    (hstep : threads.step s l = some (o, s')) :
    OneCtx (os ++ [o]) ↔ OneCtx os ∧ StillMissing s l := by
  rw [OneCtx, List.map_append, List.map_singleton, steady_append_singleton]
  refine and_congr_right fun _ => ?_
  cases l with
  | first t c =>
    obtain ⟨_, x, p, hfirst, rfl⟩ := step_first hstep
    refine iff_of_true ?_ trivial
    intro k v w i hput hlive
    have hold := (hs.2 k v).mpr ⟨i, hlive⟩
    rw [(first_spec hs.1.1 hdom hfirst).2.2.2.2 k w hput] at hold
    exact (Option.some.inj hold).symm
  | second t =>
    obtain ⟨fd, x, hfd, hsecond, rfl⟩ := step_second hstep
    obtain ⟨y, hy, _⟩ := second_get hs.1.1 (hs.1.2 t fd hfd)
    rw [hy] at hsecond
    cases hsecond
    constructor
    · intro h fd' hfd'
      rw [hfd] at hfd'
      cases hfd'
      rw [Option.eq_none_iff_forall_ne_some]
      intro v hv
      obtain ⟨i, hlive⟩ := (hs.2 fd v).mp hv
      have hnew := h fd v _ i rfl hlive
      exact absurd (hs.1.1.slot_lt fd v hv) (by rw [hnew]; exact lt_irrefl _)
    · rintro hmissing k v w i ⟨rfl, rfl⟩ hlive
      have hold := (hs.2 fd v).mpr ⟨i, hlive⟩
      rw [hmissing fd hfd] at hold
      cases hold

theorem first_ne_error {x : State} {c : Call} {e : Failure} (hx : Good x) (hdom : c.InDomain) :
    sections.first x c ≠ some (.error e) := by
  intro herror
  cases c with
  | get fd autoCreate =>
    rw [first_get hx hdom.neg_one_le] at herror
    split_ifs at herror
    · cases herror
    · cases herror
  | del fd =>
    obtain ⟨y, hy, _⟩ := first_del hx hdom
    rw [hy] at herror
    cases herror

/-- No section fails to index the table. -/
theorem sections_faultless (hs : Holds Good (fun _ fd => Fits fd) s) (hdom : InDomain s l) :
    fault sections s l = none := by
  apply fault_eq_none
  · rintro t c e rfl
    exact first_ne_error hs.1 hdom
  · intro t fd e _ hfd herror
    obtain ⟨x, hx, _⟩ := second_get hs.1 (hs.2 t fd hfd)
    rw [hx] at herror
    cases herror

/--
In a run with descriptors that fit and without `del(-1)`, all contexts returned for a
descriptor between two `del` are the same exactly if every `get` that stores one finds
the slot still empty; and no section indexes beyond the table.
-/
theorem get_returns_one_ctx {ls : List (Sections.Label τ Call)}
    (hdom : threads.Along InDomain (Threads.start State.init) ls)
    (hrun : threads.run (Threads.start State.init) ls = some (os, s)) :
    (OneCtx os ↔ threads.Along StillMissing (Threads.start State.init) ls) ∧
    ∀ l, InDomain s l → fault sections s l = none := by
  have hinit : Agrees [] (Threads.start State.init : Threads τ State ℤ) := by
    refine ⟨holds_start good_init, ?_⟩
    change Current [] State.init.slot
    rw [slot_init]
    exact current_nil
  constructor
  · have hiff := threads.run_outputs_iff_along (K := OneCtx) (P := StillMissing)
      (fun _ _ _ _ _ => Agrees.step) (fun _ _ _ _ _ => oneCtx_append_iff) hinit hdom hrun
    rw [List.nil_append] at hiff
    exact hiff.trans (and_iff_right steady_nil)
  · intro l hl
    have hs := outline_good.reachable (holds_start good_init) ⟨ls, os, hdom, hrun⟩
    exact sections_faultless hs hl

/-- Two threads use descriptor 100, one after the other. -/
def getInTurn : List (Sections.Label Bool Call) :=
  [.first false (.get 100 true), .second false, .first true (.get 100 true),
    .first true (.del 100), .first true (.get 100 true), .second true]

theorem get_returns_one_ctx_in_turn :
    ∃ os s, threads.run (Threads.start State.init) getInTurn = some (os, s) ∧
      os = [.missed 100, .got 100 (some 0), .got 100 (some 0), .deleted 100,
        .missed 100, .got 100 (some 1)] ∧
      OneCtx os := by
  have houts : (threads.run (Threads.start State.init) getInTurn).map Prod.fst =
      some [.missed 100, .got 100 (some 0), .got 100 (some 0), .deleted 100,
        .missed 100, .got 100 (some 1)] := by decide
  obtain ⟨⟨os, s⟩, hrun, hos⟩ := Option.map_eq_some_iff.mp houts
  have hdom := (System.exists_run (M := threads) (P := InDomain) (Threads.start State.init)
    getInTurn (fun _ => True) (by decide)).1
  have hmissing := (System.exists_run (M := threads) (P := StillMissing)
    (Threads.start State.init) getInTurn (fun _ => True) (by decide)).1
  exact ⟨os, s, hrun, hos, (get_returns_one_ctx hdom hrun).1.mpr hmissing⟩

/-- Both threads miss descriptor 5, and each stores a context of its own. -/
def getAtOnce : List (Sections.Label Bool Call) :=
  [.first false (.get 5 true), .first true (.get 5 true), .second false, .second true]

/-- The second context replaces the first one; and `del(-1)` indexes before the table. -/
theorem get_returns_two_ctx :
    (∃ os s, threads.run (Threads.start State.init) getAtOnce = some (os, s) ∧
      os = [.missed 5, .missed 5, .got 5 (some 0), .got 5 (some 1)] ∧ ¬ OneCtx os) ∧
    fault sections (Threads.start State.init : Threads Bool State ℤ)
      (.first false (.del (-1))) = some .outOfBounds := by
  have houts : (threads.run (Threads.start State.init) getAtOnce).map Prod.fst =
      some [.missed 5, .missed 5, .got 5 (some 0), .got 5 (some 1)] := by decide
  obtain ⟨⟨os, s⟩, hrun, hos⟩ := Option.map_eq_some_iff.mp houts
  refine ⟨⟨os, s, hrun, hos, ?_⟩, by decide⟩
  intro hone
  change os = _ at hos
  rw [hos] at hone
  have hsame := hone 5 0 1 2 3 (by decide) rfl rfl (by omega)
  cases hsame

end Race

end FdManager
end Civan
