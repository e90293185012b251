import Mathlib.Data.List.Basic
import Mathlib.Tactic.Ring

/-!
# Segments of lists and lists of equal blocks

Two ways of replacing a segment of a list: `overwrite` keeps the length, like a
copy into fixed memory, and `splice` lets the new segment reach past the end,
like a write at the end of a growing buffer.  They agree while the segment
stays inside.

The second half is about a list cut into blocks of one size.  Offset `p` of the
concatenation lies in block `p / b` at offset `p % b`.
-/

namespace Civan
namespace Segment

universe u

section Splice

variable {α : Type u}

/-- Replace the elements from `p` on by `s`, never changing the length. -/
def overwrite (l : List α) (p : ℕ) (s : List α) : List α :=
  l.take p ++ s.take (l.length - p) ++ l.drop (p + s.length)

/-- Replace the elements from `p` on by `s`, growing the list if `s` is longer. -/
def splice (l : List α) (p : ℕ) (s : List α) : List α :=
  l.take p ++ s ++ l.drop (p + s.length)

@[simp] theorem length_overwrite (l : List α) (p : ℕ) (s : List α) :
    (overwrite l p s).length = l.length := by
  simp only [overwrite, List.length_append, List.length_take, List.length_drop]
  omega

theorem overwrite_eq_splice {l : List α} {p : ℕ} {s : List α} (h : p + s.length ≤ l.length) :
    overwrite l p s = splice l p s := by
  have hs : s.take (l.length - p) = s :=
    List.take_of_length_le (by omega)
  rw [overwrite, splice, hs]

@[simp] theorem splice_nil (l : List α) (p : ℕ) : splice l p [] = l := by
  simp [splice]

theorem splice_length (l s : List α) : splice l l.length s = l ++ s := by
  rw [splice, List.take_length, List.drop_of_length_le (Nat.le_add_right _ _), List.append_nil]

theorem splice_append_left {l : List α} {p : ℕ} {s : List α} (h : p + s.length ≤ l.length)
    (m : List α) :
    splice (l ++ m) p s = splice l p s ++ m := by
  simp only [splice]
  rw [List.take_append_of_le_length (by omega), List.drop_append_of_le_length h]
  simp

theorem splice_append_right (l m : List α) (p : ℕ) (s : List α) :
    splice (l ++ m) (l.length + p) s = l ++ splice m p s := by
  simp only [splice, Nat.add_assoc, List.take_length_add_append,
    List.drop_length_add_append, List.append_assoc]

/-- A splice across the seam splits into one at the end and one at the start. -/
theorem splice_append_cross {l : List α} {p : ℕ} {s : List α} (h : p + s.length = l.length)
    (m t : List α) :
    splice (l ++ m) p (s ++ t) = splice l p s ++ splice m 0 t := by
  have hdrop : l.drop (p + s.length) = [] :=
    List.drop_of_length_le (by omega)
  have hlen : p + (s ++ t).length = l.length + t.length := by
    rw [List.length_append]
    omega
  simp only [splice, hlen, hdrop, List.drop_length_add_append]
  rw [List.take_append_of_le_length (by omega)]
  simp

/-- A splice that starts in the first part, cut at the seam. -/
theorem splice_append {l : List α} {p : ℕ} (hp : p ≤ l.length) (m s : List α) :
    splice (l ++ m) p s =
      splice l p (s.take (l.length - p)) ++ splice m 0 (s.drop (l.length - p)) := by
  by_cases hs : s.length ≤ l.length - p
  · rw [List.take_of_length_le hs, List.drop_of_length_le hs, splice_nil,
      splice_append_left (by omega)]
  · have hlen : p + (s.take (l.length - p)).length = l.length := by
      rw [List.length_take]
      omega
    have hcross := splice_append_cross hlen m (s.drop (l.length - p))
    rw [List.take_append_drop] at hcross
    exact hcross

/-- A splice commutes with cutting the list behind everything it touches. -/
theorem take_splice {l : List α} {n p : ℕ} {s : List α} (hp : p ≤ n)
    (hs : p + s.length ≤ l.length) :
    (splice l p s).take (max n (p + s.length)) = splice (l.take n) p s := by
  have htake : (l.take n).take p = l.take p := by rw [List.take_take, Nat.min_eq_left hp]
  have hlen : (l.take p ++ s).length = p + s.length := by
    rw [List.length_append, List.length_take]
    omega
  have hmax : max n (p + s.length) = (l.take p ++ s).length + (n - (p + s.length)) := by
    rw [hlen]
    omega
  rw [splice, hmax, List.take_length_add_append, splice, htake, List.drop_take]

end Splice

section Blocks

variable {α : Type u}

/-- Every block has length `b`. -/
def Uniform (b : ℕ) (bs : List (List α)) : Prop :=
  ∀ x ∈ bs, x.length = b

theorem Uniform.tail {b : ℕ} {x : List α} {bs : List (List α)} (h : Uniform b (x :: bs)) :
    Uniform b bs := by
  intro y hy
  exact h y (List.mem_cons_of_mem _ hy)

theorem Uniform.length_flatten {b : ℕ} {bs : List (List α)} (h : Uniform b bs) :
    bs.flatten.length = bs.length * b := by
  induction bs with
  | nil => simp
  | cons x bs ih =>
    rw [List.flatten_cons, List.length_append, ih h.tail,
      h x List.mem_cons_self, List.length_cons]
    ring

theorem Uniform.drop_flatten {b : ℕ} {bs : List (List α)} (h : Uniform b bs) (i : ℕ) :
    bs.flatten.drop (i * b) = (bs.drop i).flatten := by
  induction i generalizing bs with
  | zero => simp
  | succ i ih =>
    cases bs with
    | nil => simp
    | cons x bs =>
      have hx : x.length = b := h x List.mem_cons_self
      have hidx : (i + 1) * b = x.length + i * b := by
        rw [hx]
        ring
      rw [List.flatten_cons, hidx, List.drop_length_add_append,
        ih h.tail, List.drop_succ_cons]

end Blocks

end Segment
end Civan
