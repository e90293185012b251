import Mathlib.Data.List.Basic

/-!
# Machines that put out actions

A machine reads a letter in a state, puts out a list of actions and moves to another
state, or it has no move.  `Reads` tells a run over a word by the actions it puts out, each
with the position of its letter.  `replay` is what the actions do to a set of registers,
and the reports they make on the way.

The table of a machine is looked at only through `next`, so a run over a word that is
put together from parts is put together from the runs over the parts.
-/

namespace Civan
namespace Mealy

section Reads

variable {σ α β : Type*} {next : σ → α → Option (σ × List β)}

/-- From state `q`, with the first letter at position `p`, the word leads to the last
state, and the run puts out the list of actions. -/
inductive Reads (next : σ → α → Option (σ × List β)) :
    ℕ → σ → List α → σ → List (ℕ × β) → Prop
  | nil (p : ℕ) (q : σ) :
      Reads next p q [] q []
  | cons {p : ℕ} {q t r : σ} {c : α} {as : List β} {w : List α} {es : List (ℕ × β)}
      (hstep : next q c = some (t, as)) (hrest : Reads next (p + 1) t w r es) :
      Reads next p q (c :: w) r (as.map (Prod.mk p) ++ es)

variable {p : ℕ} {q t r : σ} {u v w : List α} {es fs : List (ℕ × β)}

theorem Reads.append (hu : Reads next p q u t es) (hv : Reads next (p + u.length) t v r fs) :
    Reads next p q (u ++ v) r (es ++ fs) := by
  induction hu with
  | nil p q => exact hv
  | @cons p q t₁ t c as w es hstep hrest ih =>
    rw [List.cons_append, List.append_assoc]
    refine Reads.cons hstep (ih ?_)
    rwa [List.length_cons, Nat.add_comm w.length, ← Nat.add_assoc] at hv

theorem Reads.single {c : α} {as : List β} (hstep : next q c = some (t, as)) (p : ℕ) :
    Reads next p q [c] t (as.map (Prod.mk p)) := by
  have h := Reads.cons hstep (Reads.nil (p + 1) t)
  rwa [List.append_nil] at h

theorem Reads.concat {c : α} {as : List β}
    (hu : Reads next p q u t es) (hstep : next t c = some (r, as)) :
    Reads next p q (u ++ [c]) r (es ++ as.map (Prod.mk (p + u.length))) :=
  hu.append (Reads.single hstep _)

theorem Reads.silent {c : α}
    (hstep : next q c = some (t, [])) (hrest : Reads next (p + 1) t w r es) :
    Reads next p q (c :: w) r es :=
  Reads.cons hstep hrest

/-- A state that stays as it is on the letters of a class reads every word of them. -/
theorem Reads.loop {C : α → Prop}
    (hloop : ∀ c, C c → next q c = some (q, [])) (hw : ∀ c ∈ w, C c) (p : ℕ) :
    Reads next p q w q [] := by
  induction w generalizing p with
  | nil => exact Reads.nil p q
  | cons c w ih =>
    exact Reads.silent (hloop c (hw c List.mem_cons_self))
      (ih (fun d hd => hw d (List.mem_cons_of_mem c hd)) (p + 1))

/-- A machine with more moves has the same runs. -/
theorem Reads.mono {next' : σ → α → Option (σ × List β)}
    (h : Reads next p q w r es) (hmono : ∀ q c j, next q c = some j → next' q c = some j) :
    Reads next' p q w r es := by
  induction h with
  | nil p q => exact Reads.nil p q
  | cons hstep _ ih => exact Reads.cons (hmono _ _ _ hstep) ih

theorem Reads.shift (h : Reads next p q w r es) (k : ℕ) :
    Reads next (k + p) q w r (es.map fun e => (k + e.1, e.2)) := by
  induction h with
  | nil p q => exact Reads.nil _ q
  | @cons p q t r c as w es hstep _ ih =>
    rw [List.map_append, List.map_map]
    exact Reads.cons hstep ih

/-- The run over a word, computed. -/
def scan (next : σ → α → Option (σ × List β)) :
    ℕ → σ → List α → Option (σ × List (ℕ × β))
  | _, q, [] => some (q, [])
  | p, q, c :: w =>
    match next q c with
    | none => none
    | some (t, as) => (scan next (p + 1) t w).map fun r => (r.1, as.map (Prod.mk p) ++ r.2)

theorem Reads.of_scan (h : scan next p q w = some (r, es)) : Reads next p q w r es := by
  induction w generalizing p q es with
  | nil =>
    cases h
    exact Reads.nil p _
  | cons c w ih =>
    rw [scan] at h
    cases hstep : next q c with
    | none =>
      rw [hstep] at h
      cases h
    | some j =>
      obtain ⟨t, as⟩ := j
      rw [hstep] at h
      obtain ⟨⟨r', fs⟩, hscan, heq⟩ := Option.map_eq_some_iff.mp h
      cases heq
      exact Reads.cons hstep (ih hscan)

end Reads

section Replay

variable {β R ρ : Type*}

/-- The registers after the actions, and the reports. -/
def replay (act : R → ℕ → β → R × List ρ) : R → List (ℕ × β) → R × List ρ
  | s, [] => (s, [])
  | s, e :: es =>
    let next := act s e.1 e.2
    let rest := replay act next.1 es
    (rest.1, next.2 ++ rest.2)

variable {act : R → ℕ → β → R × List ρ}

theorem replay_append (s : R) (es fs : List (ℕ × β)) :
    replay act s (es ++ fs) =
      ((replay act (replay act s es).1 fs).1,
        (replay act s es).2 ++ (replay act (replay act s es).1 fs).2) := by
  induction es generalizing s with
  | nil => rfl
  | cons e es ih => simp only [List.cons_append, replay, ih, List.append_assoc]

end Replay

end Mealy
end Civan
