import Mathlib.Tactic

/-!
# Loops

One round of a loop either goes on or leaves the loop; a round may itself fail to come
to an end.  `run` repeats the round with a bound on the number of rounds.  `Returns`
says what a loop returns without a bound; where a measure decreases the two agree, and
every loop returns.
-/

namespace Civan
namespace Loop

universe u

/-- How a round ends. -/
inductive Round (σ : Type u) where
  | next (s : σ)
  | exit (s : σ)

variable {σ : Type u}

/-- `none` when the fuel is used up. -/
def run (round : σ → Option (Round σ)) : ℕ → σ → Option σ
  | 0, _ => none
  | fuel + 1, s =>
    match round s with
    | none => none
    | some (.next s) => run round fuel s
    | some (.exit s) => some s

inductive Returns (round : σ → Option (Round σ)) : σ → σ → Prop
  | exit {s r : σ} (hround : round s = some (.exit r)) :
      Returns round s r
  | next {s s' r : σ} (hround : round s = some (.next s')) (hrest : Returns round s' r) :
      Returns round s r

variable {round : σ → Option (Round σ)} {s s' r : σ} {fuel : ℕ}

theorem returns_of_run (h : run round fuel s = some r) : Returns round s r := by
  induction fuel generalizing s with
  | zero => cases h
  | succ fuel ih =>
    rw [run] at h
    cases hround : round s with
    | none =>
      rw [hround] at h
      cases h
    | some o =>
      rw [hround] at h
      cases o with
      | next s' => exact .next hround (ih h)
      | exit s' =>
        cases h
        exact .exit hround

/-- A round that goes on does not change what is returned. -/
theorem Returns.of_next (h : Returns round s r) (hround : round s = some (.next s')) :
    Returns round s' r := by
  cases h with
  | exit hexit =>
    rw [hround] at hexit
    cases hexit
  | next hnext hrest =>
    rw [hround] at hnext
    cases hnext
    exact hrest

section Measure

variable {μ : σ → ℕ}

theorem run_eq_some (hμ : ∀ s s', round s = some (.next s') → μ s' < μ s) (h : Returns round s r)
    (hfuel : μ s < fuel) :
    run round fuel s = some r := by
  induction h generalizing fuel with
  | exit hround =>
    cases fuel with
    | zero => omega
    | succ fuel => rw [run, hround]
  | next hround _ ih =>
    cases fuel with
    | zero => omega
    | succ fuel =>
      have hlt := hμ _ _ hround
      rw [run, hround]
      exact ih (by omega)

theorem exists_run (hμ : ∀ s s', round s = some (.next s') → μ s' < μ s)
    (hround : ∀ s, round s ≠ none) (hfuel : μ s < fuel) :
    ∃ r, run round fuel s = some r := by
  induction fuel generalizing s with
  | zero => omega
  | succ fuel ih =>
    rw [run]
    cases hs : round s with
    | none => exact absurd hs (hround s)
    | some o =>
      cases o with
      | next s' =>
        have hlt := hμ s s' hs
        exact ih (by omega)
      | exit s' => exact ⟨s', rfl⟩

end Measure

end Loop
end Civan
