import Mathlib.Data.List.Basic
import Mathlib.Data.List.Range
import Mathlib.Data.List.Perm.Basic

/-!
# What has happened to the entries of a queue

A record kept beside a queue from which entries are taken at any place.  Every entry
that was ever accepted has a ticket, its place in the order of acceptance; the tickets
that still wait are listed in the order of the queue, and for each ticket taken it is
recorded by whom.

If pushes and takes are recorded as they happen, each ticket is at any time either
waiting once or taken once.
-/

namespace Civan
namespace TicketQueue

universe u v

/-- The entries accepted so far, the tickets that wait, and those taken. -/
structure History (α : Type u) (θ : Type v) where
  accepted : List α
  waiting : List ℕ
  taken : List (ℕ × θ)

namespace History

variable {α : Type u} {θ : Type v}

/-- Nothing has happened. -/
def empty : History α θ :=
  { accepted := [], waiting := [], taken := [] }

/-- The entries `es` are accepted. -/
def push (h : History α θ) (es : List α) : History α θ :=
  { h with
    accepted := h.accepted ++ es
    waiting := h.waiting ++ List.range' h.accepted.length es.length }

/-- The entry at place `i` of the queue is taken by `t`. -/
def take (h : History α θ) (i : ℕ) (t : θ) : History α θ :=
  match h.waiting[i]? with
  | none => h
  | some k => { h with waiting := h.waiting.eraseIdx i, taken := (k, t) :: h.taken }

/-- Each ticket waits once or was taken once, and the tickets wait in order. -/
structure Ok (h : History α θ) : Prop where
  once : (h.waiting ++ h.taken.map Prod.fst).Perm (List.range h.accepted.length)
  ordered : h.waiting.Pairwise (· < ·)

/-- The queue is `xs`. -/
def Shows (h : History α θ) (xs : List α) : Prop :=
  h.waiting.map (fun k => h.accepted[k]?) = xs.map some

/-- Every entry taken was one that its taker may take. -/
def TakenBy (may : α → θ → Prop) (h : History α θ) : Prop :=
  ∀ k t, (k, t) ∈ h.taken → ∃ e, h.accepted[k]? = some e ∧ may e t

/-- The latest ticket whose taker meets `p`. -/
def last (h : History α θ) (p : θ → Bool) : Option (ℕ × θ) :=
  h.taken.find? fun x => p x.2

variable {h : History α θ} {xs es : List α} {may : α → θ → Prop}

theorem empty_ok : (empty : History α θ).Ok where
  once := by simp [empty]
  ordered := List.Pairwise.nil

theorem empty_shows : (empty : History α θ).Shows [] :=
  rfl

theorem empty_takenBy : TakenBy may (empty : History α θ) := by
  intro k t hk
  cases hk

theorem Ok.lt_of_waiting (hok : h.Ok) {k : ℕ} (hk : k ∈ h.waiting) : k < h.accepted.length := by
  have hmem : k ∈ List.range h.accepted.length :=
    hok.once.subset (List.mem_append_left _ hk)
  exact List.mem_range.mp hmem

theorem Ok.push (hok : h.Ok) (es : List α) :
    (h.push es).Ok where
  once := by
    have hrange : List.range (h.accepted ++ es).length =
        List.range h.accepted.length ++ List.range' h.accepted.length es.length := by
      rw [List.length_append, List.range_add, List.range'_eq_map_range]
    change ((h.waiting ++ List.range' h.accepted.length es.length) ++
      h.taken.map Prod.fst).Perm (List.range (h.accepted ++ es).length)
    rw [hrange, List.append_assoc]
    refine (List.Perm.append_left _ List.perm_append_comm).trans ?_
    rw [← List.append_assoc]
    exact hok.once.append_right _
  ordered := by
    refine List.pairwise_append.mpr ⟨hok.ordered, List.pairwise_lt_range', ?_⟩
    intro a ha b hb
    have hlt := hok.lt_of_waiting ha
    have hle := (List.mem_range'_1.mp hb).1
    exact Nat.lt_of_lt_of_le hlt hle

theorem Shows.push (hshows : h.Shows xs) (hok : h.Ok) (es : List α) :
    (h.push es).Shows (xs ++ es) := by
  have hold : h.waiting.map (fun k => (h.accepted ++ es)[k]?) = xs.map some := by
    rw [← hshows]
    refine List.map_congr_left ?_
    intro k hk
    exact List.getElem?_append_left (hok.lt_of_waiting hk)
  have hnew : (List.range' h.accepted.length es.length).map
      (fun k => (h.accepted ++ es)[k]?) = es.map some := by
    refine List.ext_getElem (by simp) ?_
    intro i hi hi'
    simp only [List.length_map] at hi'
    simp [hi']
  unfold Shows History.push
  rw [List.map_append, List.map_append, hold, hnew]

theorem TakenBy.push (htaken : TakenBy may h) (es : List α) : TakenBy may (h.push es) := by
  intro k t hk
  obtain ⟨e, he, hmay⟩ := htaken k t hk
  refine ⟨e, ?_, hmay⟩
  have hlt : k < h.accepted.length := (List.getElem?_eq_some_iff.mp he).1
  exact (List.getElem?_append_left hlt).trans he

/-- The ticket at a place of the queue, and its entry. -/
theorem Shows.getElem (hshows : h.Shows xs) {i : ℕ} {e : α} (he : xs[i]? = some e) :
    ∃ k, h.waiting[i]? = some k ∧ h.accepted[k]? = some e := by
  have hget : (h.waiting.map (fun k => h.accepted[k]?))[i]? = some (some e) := by
    rw [hshows, List.getElem?_map, he]
    rfl
  rw [List.getElem?_map] at hget
  exact Option.map_eq_some_iff.mp hget

theorem Ok.take (hok : h.Ok) (i : ℕ) (t : θ) : (h.take i t).Ok := by
  unfold History.take
  cases hk : h.waiting[i]? with
  | none => exact hok
  | some k =>
    obtain ⟨hi, hget⟩ := List.getElem?_eq_some_iff.mp hk
    refine ⟨?_, hok.ordered.sublist (List.eraseIdx_sublist ..)⟩
    refine List.Perm.trans ?_ hok.once
    have hperm : (k :: h.waiting.eraseIdx i).Perm h.waiting := by
      rw [← hget]
      exact List.getElem_cons_eraseIdx_perm hi
    refine List.Perm.trans ?_ (hperm.append_right _)
    exact List.perm_middle

theorem Shows.take (hshows : h.Shows xs) {i : ℕ} (hi : i < xs.length) (t : θ) :
    (h.take i t).Shows (xs.eraseIdx i) := by
  obtain ⟨k, hk, _⟩ := hshows.getElem (List.getElem?_eq_getElem hi)
  unfold Shows History.take
  rw [hk]
  change (h.waiting.eraseIdx i).map (fun k => h.accepted[k]?) = _
  rw [← List.eraseIdx_map, hshows, List.eraseIdx_map]

theorem TakenBy.take (htaken : TakenBy may h) (hshows : h.Shows xs) {i : ℕ} {e : α} {t : θ}
    (he : xs[i]? = some e) (hmay : may e t) :
    TakenBy may (h.take i t) := by
  obtain ⟨k, hk, hke⟩ := hshows.getElem he
  unfold TakenBy History.take
  rw [hk]
  intro k' t' hk'
  rcases List.mem_cons.mp hk' with heq | hk'
  · rw [Prod.mk.injEq] at heq
    obtain ⟨rfl, rfl⟩ := heq
    exact ⟨e, hke, hmay⟩
  · exact htaken k' t' hk'

/-- A take is the latest one of its taker, and no other taker's. -/
theorem last_take (hshows : h.Shows xs) {i : ℕ} {t : θ} (hi : i < xs.length) (p : θ → Bool) :
    ∃ k, (h.take i t).last p = if p t then some (k, t) else h.last p := by
  obtain ⟨k, hk, _⟩ := hshows.getElem (List.getElem?_eq_getElem hi)
  refine ⟨k, ?_⟩
  unfold last History.take
  rw [hk]
  cases hp : p t with
  | true => simp [hp]
  | false => simp [hp]

end History

end TicketQueue
end Civan
