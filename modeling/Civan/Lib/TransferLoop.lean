import Mathlib.Tactic

/-!
# Loops that repeat a partial transfer

An operation is asked for a number of items and answers with how many it
transferred, or with a value that is not positive if it failed.  The loop asks for
what is left until nothing is left or the operation fails.  Every answer that does
not end the loop takes at least one item, so the loop comes to an end whatever the
operation does.

`Answers` is the protocol of such calls, without a loop: who is asked, for how many items,
and what came of it.
-/

namespace Civan
namespace TransferLoop

universe u v w

/-- How a loop ended: the value it returns, the answer that ended it if that was a
failure, the number of items transferred, and the state. -/
structure Run (σ : Type u) where
  ret : ℤ
  failed : Option ℤ
  offset : ℕ
  state : σ

section Answers

variable {ρ : Type v} {α : Type w}

/-- The answers of one that is asked for what is left, until nothing is left or an answer
is not positive.  Each comes with the items it brought. -/
inductive Answers (ask : ρ → ℕ → ℤ × List α × ρ) : ℕ → ρ → List (ℤ × List α) → ρ → Prop
  | done (x : ρ) :
      Answers ask 0 x [] x
  | fails {left : ℕ} {x : ρ} (hleft : 0 < left) (hfail : (ask x left).1 ≤ 0) :
      Answers ask left x [((ask x left).1, (ask x left).2.1)] (ask x left).2.2
  | goes {left : ℕ} {x y : ρ} {answers : List (ℤ × List α)}
      (hleft : 0 < left) (hpos : 0 < (ask x left).1)
      (hrest : Answers ask (left - (ask x left).1.toNat) (ask x left).2.2 answers y) :
      Answers ask left x (((ask x left).1, (ask x left).2.1) :: answers) y

variable {ask : ρ → ℕ → ℤ × List α × ρ} {left : ℕ} {x x' y : ρ} {a : ℤ} {xs : List α}
  {answers : List (ℤ × List α)}

theorem Answers.last
    (hleft : 0 < left) (hask : ask x left = (a, xs, x')) (hfail : a ≤ 0) :
    Answers ask left x [(a, xs)] x' := by
  have hfails : Answers ask left x [((ask x left).1, (ask x left).2.1)] (ask x left).2.2 :=
    .fails hleft (by rwa [hask])
  rwa [hask] at hfails

theorem Answers.cons
    (hleft : 0 < left) (hask : ask x left = (a, xs, x')) (hpos : 0 < a)
    (hrest : Answers ask (left - a.toNat) x' answers y) :
    Answers ask left x ((a, xs) :: answers) y := by
  have hgoes : Answers ask left x (((ask x left).1, (ask x left).2.1) :: answers) y :=
    .goes hleft (by rwa [hask]) (by rwa [hask])
  rwa [hask] at hgoes

/-- The number of items in the answers. -/
def total (answers : List (ℤ × List α)) : ℕ :=
  (answers.map fun a => a.1.toNat).sum

/-- The items in the order they came. -/
def items (answers : List (ℤ × List α)) : List α :=
  answers.flatMap Prod.snd

/-- The answer that was not positive, if the last one was. -/
def failure (answers : List (ℤ × List α)) : Option ℤ :=
  (answers.getLast?.map Prod.fst).filter fun a => a ≤ 0

end Answers

section Loop

variable {σ : Type u}

/-- The loop, with `left` items to go and `offset` behind it; `answer` is what it
returns at the end.  `none` when the fuel is used up. -/
def loop (op : σ → ℕ → ℕ → ℤ × σ) (answer : ℤ) : ℕ → ℤ → ℕ → σ → Option (Run σ)
  | 0, _, _, _ => none
  | fuel + 1, left, offset, s =>
    if left ≤ 0 then
      some ⟨answer, none, offset, s⟩
    else
      let r := op s offset left.toNat
      if r.1 ≤ 0 then
        some ⟨r.1, some r.1, offset, r.2⟩
      else
        loop op answer fuel (left - r.1) (offset + r.1.toNat) r.2

variable {op : σ → ℕ → ℕ → ℤ × σ}

/-- The two ways a loop ends that has `total` items to transfer. -/
inductive Ends (op : σ → ℕ → ℕ → ℤ × σ) (answer : ℤ) (total : ℕ) (r : Run σ) : Prop where
  | complete (hret : r.ret = answer) (hfailed : r.failed = none) (hoffset : r.offset = total) :
      Ends op answer total r
  | failed (hret : r.ret ≤ 0) (hfailed : r.failed = some r.ret) (hoffset : r.offset < total)
      (hop : ∃ s offset n, 0 < n ∧ (op s offset n).1 = r.ret) :
      Ends op answer total r

/--
The invariant rule.  The operation never transfers more than it is asked for, and
each answer keeps `I`, which may speak of the number of items transferred.
-/
theorem loop_ends {answer : ℤ} {total : ℕ} {I : ℕ → σ → Prop}
    (hbound : ∀ s offset n, (op s offset n).1 ≤ n)
    (hstep : ∀ s offset n, 0 < n → offset + n = total → I offset s →
      I (offset + (op s offset n).1.toNat) (op s offset n).2)
    {fuel : ℕ} {left : ℤ} {offset : ℕ} {s : σ}
    (hfuel : left.toNat < fuel)
    (htotal : offset + left.toNat = total)
    (hI : I offset s) :
    ∃ r, loop op answer fuel left offset s = some r ∧ I r.offset r.state ∧
      Ends op answer total r := by
  induction fuel generalizing left offset s with
  | zero => omega
  | succ fuel ih =>
    rw [loop]
    by_cases hleft : left ≤ 0
    · rw [if_pos hleft]
      exact ⟨_, rfl, hI, .complete rfl rfl (by dsimp only; omega)⟩
    · have hpos : 0 < left.toNat := by omega
      have hnext := hstep s offset left.toNat hpos htotal hI
      have hle := hbound s offset left.toNat
      rw [if_neg hleft]
      by_cases hfail : (op s offset left.toNat).1 ≤ 0
      · rw [Int.toNat_eq_zero.mpr hfail, Nat.add_zero] at hnext
        simp only [if_pos hfail]
        refine ⟨_, rfl, hnext, .failed hfail rfl ?_ ⟨s, offset, _, hpos, rfl⟩⟩
        dsimp only
        omega
      · simp only [if_neg hfail]
        exact ih (by omega) (by omega) hnext

/--
The loop asks for what is left.  An operation passes the question on to `ask`, which is
what `view` sees of the state, and `got` is what the state has gathered.
-/
theorem loop_answers {ρ : Type v} {α : Type w} {ask : ρ → ℕ → ℤ × List α × ρ}
    {view : σ → ρ} {got : σ → List α} {answer : ℤ} {sum : ℕ}
    (hbound : ∀ s offset n, (op s offset n).1 ≤ n)
    (hask : ∀ s offset n, 0 < n → offset + n = sum →
      ∃ xs, ask (view s) n = ((op s offset n).1, xs, view (op s offset n).2) ∧
        got (op s offset n).2 = got s ++ xs)
    {fuel : ℕ} {left : ℤ} {offset : ℕ} {s : σ} {r : Run σ}
    (hsum : offset + left.toNat = sum)
    (hloop : loop op answer fuel left offset s = some r) :
    ∃ answers, Answers ask left.toNat (view s) answers (view r.state) ∧
      r.offset = offset + total answers ∧ got r.state = got s ++ items answers ∧
      r.failed = failure answers := by
  induction fuel generalizing left offset s with
  | zero => cases hloop
  | succ fuel ih =>
    rw [loop] at hloop
    by_cases hleft : left ≤ 0
    · rw [if_pos hleft] at hloop
      cases hloop
      rw [Int.toNat_eq_zero.mpr hleft]
      exact ⟨[], .done _, rfl, (List.append_nil _).symm, rfl⟩
    · have hpos : 0 < left.toNat := by omega
      have hle := hbound s offset left.toNat
      obtain ⟨xs, hanswer, hgot⟩ := hask s offset left.toNat hpos hsum
      rw [if_neg hleft] at hloop
      by_cases hfail : (op s offset left.toNat).1 ≤ 0
      · simp only [if_pos hfail] at hloop
        cases hloop
        refine ⟨_, .last hpos hanswer hfail, ?_, ?_, ?_⟩
        · simp [total, Int.toNat_eq_zero.mpr hfail]
        · simp [items, hgot]
        · simp [failure, Option.filter, hfail]
      · simp only [if_neg hfail] at hloop
        obtain ⟨answers, hanswers, hoffset, hitems, hfailed⟩ := ih (by omega) hloop
        have hrest : (left - (op s offset left.toNat).1).toNat =
            left.toNat - (op s offset left.toNat).1.toNat := by omega
        rw [hrest] at hanswers
        refine ⟨_, .cons hpos hanswer (by omega) hanswers, ?_, ?_, ?_⟩
        · simp only [hoffset, total, List.map_cons, List.sum_cons, Nat.add_assoc]
        · simp only [hitems, hgot, items, List.flatMap_cons, List.append_assoc]
        · rw [hfailed]
          cases answers with
          | nil => simp [failure, Option.filter, hfail]
          | cons a answers => simp [failure]

end Loop

end TransferLoop
end Civan
