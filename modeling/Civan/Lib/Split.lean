import Mathlib.Tactic

/-!
# Cutting a list at a delimiter

`List.splitOn` cuts at every occurrence of a delimiter.  A scanner that walks
along the list meets the occurrences one by one; `cut_induction` is the induction
that follows it, from one occurrence to the next.
-/

namespace Civan
namespace Split

universe u

variable {α : Type u} [BEq α] [LawfulBEq α] {flag c : α} {l p : List α}

/-- Either the delimiter does not occur, or there is a first occurrence. -/
theorem cut_induction (flag : α) {P : List α → Prop} (hlast : ∀ l, flag ∉ l → P l)
    (hcut : ∀ a l, flag ∉ a → P l → P (a ++ flag :: l)) (l : List α) :
    P l := by
  induction hn : l.length using Nat.strong_induction_on generalizing l with
  | _ n ih =>
    by_cases hmem : flag ∈ l
    · obtain ⟨a, l', rfl, ha⟩ := List.eq_append_cons_of_mem hmem
      rw [List.length_append, List.length_cons] at hn
      exact hcut a l' ha (ih l'.length (by omega) l' rfl)
    · exact hlast l hmem

/-- The first piece ends at the first occurrence. -/
theorem splitOn_append_cons {a : List α} (ha : flag ∉ a) (l : List α) :
    (a ++ flag :: l).splitOn flag = a :: l.splitOn flag := by
  apply List.splitOnP_append_cons_of_forall_mem
  · intro x hx
    rw [beq_eq_false_iff_ne]
    rintro rfl
    exact ha hx
  · exact beq_self_eq_true flag

/-- What stands in front of a list belongs to its first piece. -/
theorem splitOn_append {a : List α} (ha : flag ∉ a)
    {pieces : List (List α)} (hl : l.splitOn flag = p :: pieces) :
    (a ++ l).splitOn flag = (a ++ p) :: pieces := by
  by_cases hmem : flag ∈ l
  · obtain ⟨b, l', rfl, hb⟩ := List.eq_append_cons_of_mem hmem
    rw [splitOn_append_cons hb, List.cons.injEq] at hl
    have hab : flag ∉ a ++ b := by
      rw [List.mem_append]
      exact not_or.mpr ⟨ha, hb⟩
    rw [← List.append_assoc, splitOn_append_cons hab, hl.1, hl.2]
  · rw [List.splitOn_eq_singleton hmem, List.cons.injEq] at hl
    have hal : flag ∉ a ++ l := by
      rw [List.mem_append]
      exact not_or.mpr ⟨ha, hmem⟩
    rw [List.splitOn_eq_singleton hal, hl.1, hl.2]

theorem notMem_of_mem_splitOn (hp : p ∈ l.splitOn flag) : flag ∉ p := by
  revert hp
  refine cut_induction flag (P := fun l => p ∈ l.splitOn flag → flag ∉ p) ?_ ?_ l
  · intro l hl hp
    rw [List.splitOn_eq_singleton hl, List.mem_singleton] at hp
    rw [hp]
    exact hl
  · intro a l ha ih hp
    rw [splitOn_append_cons ha] at hp
    rcases List.mem_cons.mp hp with rfl | htail
    · exact ha
    · exact ih htail

theorem mem_of_mem_splitOn (hp : p ∈ l.splitOn flag) (hc : c ∈ p) : c ∈ l := by
  revert hp
  refine cut_induction flag (P := fun l => p ∈ l.splitOn flag → c ∈ l) ?_ ?_ l
  · intro l hl hp
    rw [List.splitOn_eq_singleton hl, List.mem_singleton] at hp
    rw [← hp]
    exact hc
  · intro a l ha ih hp
    rw [splitOn_append_cons ha] at hp
    rcases List.mem_cons.mp hp with rfl | htail
    · exact List.mem_append_left _ hc
    · exact List.mem_append_right _ (List.mem_cons_of_mem _ (ih htail))

end Split
end Civan
