import Mathlib.InformationTheory.Coding.UniquelyDecodable
import Mathlib.Tactic

/-!
# Prefix codes

A code none of whose words begins another one is uniquely decodable.  Words that show
their last symbol, and it only, as a last one make such a code.
-/

namespace Civan
namespace PrefixCode

open InformationTheory

universe u

variable {α : Type u} {S : Set (List α)}

/-- No word begins another one. -/
def PrefixFree (S : Set (List α)) : Prop :=
  ∀ u ∈ S, ∀ v ∈ S, u <+: v → u = v

/-- Two words at the head of one text are the same word. -/
theorem PrefixFree.head_eq (h : PrefixFree S) {u v s t : List α} (hu : u ∈ S) (hv : v ∈ S)
    (heq : u ++ s = v ++ t) :
    u = v := by
  rcases List.append_eq_append_iff.mp heq with ⟨d, rfl, _⟩ | ⟨d, rfl, _⟩
  · exact h u hu _ hv (List.prefix_append u d)
  · exact (h v hv _ hu (List.prefix_append v d)).symm

theorem PrefixFree.uniquelyDecodable (h : PrefixFree S) (hne : [] ∉ S) :
    UniquelyDecodable S := by
  have hnil : ∀ L : List (List α), (∀ w ∈ L, w ∈ S) → L.flatten = [] → L = [] := by
    intro L hL hflat
    cases L with
    | nil => rfl
    | cons u L =>
      have hu := hL u List.mem_cons_self
      rw [List.flatten_cons, List.append_eq_nil_iff] at hflat
      rw [hflat.1] at hu
      exact absurd hu hne
  intro L
  induction L with
  | nil =>
    intro M _ hM heq
    exact (hnil M hM heq.symm).symm
  | cons u L ih =>
    intro M hL hM heq
    cases M with
    | nil => exact hnil _ hL heq
    | cons v M =>
      have huv : u = v :=
        h.head_eq (hL u List.mem_cons_self) (hM v List.mem_cons_self) heq
      subst huv
      rw [List.flatten_cons, List.flatten_cons, List.append_cancel_left_eq] at heq
      rw [ih M (fun w hw => hL w (List.mem_cons_of_mem _ hw))
        (fun w hw => hM w (List.mem_cons_of_mem _ hw)) heq]

/-- The last symbol of the word is a last one, and no other is. -/
def Terminated (last : α → Prop) : List α → Prop
  | [] => False
  | [x] => last x
  | x :: y :: w => ¬ last x ∧ Terminated last (y :: w)

theorem terminated_cons {last : α → Prop} {x : α} {w : List α} (hx : ¬ last x)
    (hw : Terminated last w) :
    Terminated last (x :: w) := by
  cases w with
  | nil => exact hw.elim
  | cons y w => exact ⟨hx, hw⟩

theorem prefixFree_terminated (last : α → Prop) :
    PrefixFree {w : List α | Terminated last w} := by
  intro u
  induction u with
  | nil =>
    intro hu
    exact hu.elim
  | cons x u ih =>
    intro hu v hv hpre
    cases v with
    | nil => exact hv.elim
    | cons y v =>
      obtain ⟨rfl, hpre'⟩ := List.cons_prefix_cons.mp hpre
      cases u with
      | nil =>
        cases v with
        | nil => rfl
        | cons z v => exact absurd hu hv.1
      | cons z u =>
        cases v with
        | nil => exact absurd hv hu.1
        | cons z' v => rw [ih hu.2 (z' :: v) hv.2 hpre']

/-- What a terminated word looks like at its last place and at the others. -/
theorem Terminated.last_iff {last : α → Prop} {w : List α} (h : Terminated last w)
    {i : ℕ} {x : α} (hx : w[i]? = some x) :
    last x ↔ i + 1 = w.length := by
  induction w generalizing i with
  | nil => exact h.elim
  | cons y w ih =>
    cases w with
    | nil =>
      cases i with
      | zero =>
        cases hx
        exact iff_of_true h rfl
      | succ i => simp at hx
    | cons z w =>
      cases i with
      | zero =>
        cases hx
        exact iff_of_false h.1 (by simp)
      | succ i =>
        rw [List.getElem?_cons_succ] at hx
        rw [ih h.2 hx, List.length_cons (a := y), Nat.succ_inj]

end PrefixCode
end Civan
