import Mathlib.Data.List.Nodup
import Mathlib.Tactic.Common

/-!
# What a history of edits leaves under each key

A store under keys is edited by putting a value under a key and by erasing a key.
`Live` says, of the history alone, which put is still in force: none of the later
edits touches its key.  Two kinds of store keep up with a history:

* `Current`: a map from keys to values;
* `InOrder`: a list of entries in the order of the puts that are in force.

`Steady` is a property of the history: until a key is erased, the value put under it
does not change.
-/

namespace Civan
namespace KeyHistory

universe u v

/-- One edit of a store; an edit of something else is `skip`. -/
inductive Edit (κ : Type u) (ν : Type v) where
  | put (key : κ) (value : ν)
  | erase (key : κ)
  | skip

section History

variable {κ : Type u} {ν : Type v} {k k' : κ} {v v' : ν} {i i' : ℕ} {e : Edit κ ν}
variable {h : List (Edit κ ν)}

/-- The edit puts something under the key, or erases it. -/
def Edit.Touches (k : κ) : Edit κ ν → Prop
  | .put key _ => key = k
  | .erase key => key = k
  | .skip => False

/-- Edit number `i` put `v` under `k`, and no later edit touches `k`. -/
structure Live (h : List (Edit κ ν)) (k : κ) (v : ν) (i : ℕ) : Prop where
  put : h[i]? = some (.put k v)
  last : ∀ j e, i < j → h[j]? = some e → ¬ e.Touches k

/-- The map `m` holds the puts in force. -/
def Current (h : List (Edit κ ν)) (m : κ → Option ν) : Prop :=
  ∀ k v, m k = some v ↔ ∃ i, Live h k v i

/-- The list holds the puts in force, each with its number, in their order. -/
structure Numbered (h : List (Edit κ ν)) (l : List (ℕ × κ × ν)) : Prop where
  sorted : l.Pairwise (fun a b => a.1 < b.1)
  mem_iff : ∀ i k v, (i, k, v) ∈ l ↔ Live h k v i

/-- The entries are the puts in force, in their order. -/
def InOrder (h : List (Edit κ ν)) (entries : List (κ × ν)) : Prop :=
  ∃ l, Numbered h l ∧ l.map Prod.snd = entries

theorem Live.lt_length (hl : Live h k v i) : i < h.length :=
  (List.getElem?_eq_some_iff.mp hl.put).1

theorem Live.unique (hl : Live h k v i) (hl' : Live h k v' i') : i = i' := by
  rcases Nat.lt_trichotomy i i' with hlt | heq | hgt
  · exact absurd rfl (hl.last i' _ hlt hl'.put)
  · exact heq
  · exact absurd rfl (hl'.last i _ hgt hl.put)

/-- One more edit: what it does not touch stays in force, and it may be a put itself. -/
theorem live_append_singleton :
    Live (h ++ [e]) k v i ↔ (Live h k v i ∧ ¬ e.Touches k) ∨ (i = h.length ∧ e = .put k v) := by
  constructor
  · rintro ⟨hput, hlast⟩
    rcases Nat.lt_trichotomy i h.length with hlt | heq | hgt
    · rw [List.getElem?_append_left hlt] at hput
      refine Or.inl ⟨⟨hput, ?_⟩, hlast h.length e hlt (by simp)⟩
      intro j e' hj he'
      have hjlt := (List.getElem?_eq_some_iff.mp he').1
      exact hlast j e' hj (by rw [List.getElem?_append_left hjlt]; exact he')
    · subst heq
      simp only [List.getElem?_concat_length, Option.some.injEq] at hput
      exact Or.inr ⟨rfl, hput⟩
    · rw [List.getElem?_eq_none (by simp; omega)] at hput
      cases hput
  · rintro (⟨hl, hnot⟩ | ⟨rfl, rfl⟩)
    · constructor
      · rw [List.getElem?_append_left hl.lt_length]
        exact hl.put
      · intro j e' hj he'
        rcases Nat.lt_trichotomy j h.length with hlt | heq | hgt
        · rw [List.getElem?_append_left hlt] at he'
          exact hl.last j e' hj he'
        · subst heq
          simp only [List.getElem?_concat_length, Option.some.injEq] at he'
          rw [← he']
          exact hnot
        · rw [List.getElem?_eq_none (by simp; omega)] at he'
          cases he'
    · refine ⟨by simp, ?_⟩
      intro j e' hj he'
      rw [List.getElem?_eq_none (by simp; omega)] at he'
      cases he'

/-- Two puts under a key have one value, unless the key is erased between them. -/
def Steady (h : List (Edit κ ν)) : Prop :=
  ∀ k v w (i j : ℕ), i < j → h[i]? = some (.put k v) → h[j]? = some (.put k w) →
    (∀ m : ℕ, i < m → m < j → h[m]? ≠ some (.erase k)) → v = w

/-- In a steady history a put that is never erased leaves its value in force. -/
theorem Steady.live_of_put (hs : Steady h) (hput : h[i]? = some (.put k v))
    (hkept : ∀ m : ℕ, i < m → h[m]? ≠ some (.erase k)) :
    ∃ i, Live h k v i := by
  -- move on to the next put under the key, as long as there is one
  induction hn : h.length - i using Nat.strongRecOn generalizing i with
  | _ n ih =>
    by_cases hlast : ∃ j e, i < j ∧ h[j]? = some e ∧ e.Touches k
    · obtain ⟨j, e, hij, hj, htouches⟩ := hlast
      have hjlt := (List.getElem?_eq_some_iff.mp hj).1
      cases e with
      | put key w =>
        obtain rfl : key = k := htouches
        have hvw := hs key v w i j hij hput hj (fun m hm _ => hkept m hm)
        subst hvw
        exact ih (h.length - j) (by omega) hj (fun m hm => hkept m (Nat.lt_trans hij hm)) rfl
      | erase key =>
        obtain rfl : key = k := htouches
        exact absurd hj (hkept j hij)
      | skip => exact htouches.elim
    · refine ⟨i, hput, ?_⟩
      intro j e hij hj htouches
      exact hlast ⟨j, e, hij, hj, htouches⟩

/-- One more edit keeps a history steady if it puts what is in force already, or puts
something under a key with nothing in force. -/
theorem steady_append_singleton :
    Steady (h ++ [e]) ↔ Steady h ∧ ∀ k v w i, e = .put k w → Live h k v i → v = w := by
  constructor
  · intro hs
    constructor
    · intro k v w i j hij hi hj hkept
      have hilt := (List.getElem?_eq_some_iff.mp hi).1
      have hjlt := (List.getElem?_eq_some_iff.mp hj).1
      refine hs k v w i j hij ?_ ?_ ?_
      · rw [List.getElem?_append_left hilt]
        exact hi
      · rw [List.getElem?_append_left hjlt]
        exact hj
      · intro m him hmj
        rw [List.getElem?_append_left (Nat.lt_trans hmj hjlt)]
        exact hkept m him hmj
    · rintro k v w i rfl hl
      refine hs k v w i h.length hl.lt_length ?_ (by simp) ?_
      · rw [List.getElem?_append_left hl.lt_length]
        exact hl.put
      · intro m him hmlt hm
        rw [List.getElem?_append_left hmlt] at hm
        exact hl.last m _ him hm rfl
  · rintro ⟨hs, hlast⟩ k v w i j hij hi hj hkept
    have hjle : j < (h ++ [e]).length := (List.getElem?_eq_some_iff.mp hj).1
    rw [List.length_append, List.length_singleton] at hjle
    have hilt : i < h.length := by omega
    rw [List.getElem?_append_left hilt] at hi
    rcases Nat.lt_or_ge j h.length with hjlt | hjge
    · rw [List.getElem?_append_left hjlt] at hj
      refine hs k v w i j hij hi hj ?_
      intro m him hmj
      have hm := hkept m him hmj
      rw [List.getElem?_append_left (Nat.lt_trans hmj hjlt)] at hm
      exact hm
    · obtain rfl : j = h.length := by omega
      simp only [List.getElem?_concat_length, Option.some.injEq] at hj
      have hnever : ∀ m : ℕ, i < m → h[m]? ≠ some (.erase k) := by
        intro m him hm
        have hmlt := (List.getElem?_eq_some_iff.mp hm).1
        refine hkept m him hmlt ?_
        rw [List.getElem?_append_left hmlt]
        exact hm
      obtain ⟨i', hl⟩ := hs.live_of_put hi hnever
      exact hlast k v w i' hj hl

theorem steady_nil : Steady ([] : List (Edit κ ν)) := by
  intro k v w i j _ hi
  simp at hi

theorem not_live_nil : ¬ Live ([] : List (Edit κ ν)) k v i := by
  intro hl
  exact absurd hl.lt_length (Nat.not_lt_zero i)

end History

section Stores

variable {κ : Type u} {ν : Type v} {k : κ} {h : List (Edit κ ν)} {entries : List (κ × ν)}

theorem current_nil : Current ([] : List (Edit κ ν)) (fun _ => none) := by
  intro k v
  simp [not_live_nil]

theorem inOrder_nil : InOrder ([] : List (Edit κ ν)) [] := by
  refine ⟨[], ⟨List.Pairwise.nil, ?_⟩, rfl⟩
  intro i k v
  simp [not_live_nil]

theorem InOrder.nodup_keys (hl : InOrder h entries) : (entries.map Prod.fst).Nodup := by
  obtain ⟨l, hl, rfl⟩ := hl
  rw [List.map_map, List.nodup_iff_pairwise_ne, List.pairwise_map]
  refine List.Pairwise.imp_of_mem ?_ hl.sorted
  rintro ⟨i, k, v⟩ ⟨i', k', v'⟩ ha hb hlt heq
  obtain rfl : k = k' := heq
  have hi := ((hl.mem_iff i k v).mp ha).unique ((hl.mem_iff i' k v').mp hb)
  exact absurd hi (Nat.ne_of_lt hlt)

/-- The first entry of the list that passes a test on keys is the earliest put in force
that does. -/
theorem InOrder.find?_earliest (hl : InOrder h entries) {p : κ → Bool} {e : κ × ν}
    (hfind : entries.find? (fun e => p e.1) = some e) :
    p e.1 = true ∧ ∃ i, Live h e.1 e.2 i ∧ ∀ k v j, Live h k v j → p k = true → i ≤ j := by
  obtain ⟨l, hl, rfl⟩ := hl
  rw [List.find?_map, Option.map_eq_some_iff] at hfind
  obtain ⟨⟨i, k, v⟩, hfind, rfl⟩ := hfind
  obtain ⟨hp, before, after, hsplit, hbefore⟩ := List.find?_eq_some_iff_append.mp hfind
  refine ⟨hp, i, (hl.mem_iff i k v).mp (by simp [hsplit]), ?_⟩
  intro k' v' j hlive hp'
  have hmem := (hl.mem_iff j k' v').mpr hlive
  have hsorted := hl.sorted
  rw [hsplit] at hmem hsorted
  rcases List.mem_append.mp hmem with hmem | hmem
  · have hnot := hbefore _ hmem
    simp [hp'] at hnot
  · rcases List.mem_cons.mp hmem with heq | hmem
    · cases heq
      exact Nat.le_refl i
    · exact Nat.le_of_lt ((List.pairwise_cons.mp (List.pairwise_append.mp hsorted).2.1).1 _ hmem)

theorem InOrder.find?_none (hl : InOrder h entries) {p : κ → Bool}
    (hfind : entries.find? (fun e => p e.1) = none) :
    ∀ k v i, Live h k v i → p k = false := by
  obtain ⟨l, hl, rfl⟩ := hl
  intro k v i hlive
  have hmem := List.mem_map_of_mem (f := Prod.snd) ((hl.mem_iff i k v).mpr hlive)
  simpa using List.find?_eq_none.mp hfind _ hmem

variable [DecidableEq κ]

/-- The edit of a map. -/
def Edit.onMap : Edit κ ν → (κ → Option ν) → κ → Option ν
  | .put k v, m => Function.update m k (some v)
  | .erase k, m => Function.update m k none
  | .skip, m => m

/-- What a map holds after an edit was put by it, or was there before. -/
theorem Edit.onMap_eq_some {e : Edit κ ν} {m : κ → Option ν} {v : ν} (h : e.onMap m k = some v) :
    e = .put k v ∨ m k = some v := by
  cases e with
  | put key value =>
    by_cases hk : k = key
    · subst hk
      simp only [onMap, Function.update_self, Option.some.injEq] at h
      exact Or.inl (by rw [h])
    · rw [onMap, Function.update_of_ne hk] at h
      exact Or.inr h
  | erase key =>
    by_cases hk : k = key
    · subst hk
      simp [onMap] at h
    · rw [onMap, Function.update_of_ne hk] at h
      exact Or.inr h
  | skip => exact Or.inr h

/-- The edit of a list of entries: a put moves its key to the end. -/
def Edit.onList : Edit κ ν → List (κ × ν) → List (κ × ν)
  | .put k v, l => l.eraseP (fun e => e.1 = k) ++ [(k, v)]
  | .erase k, l => l.eraseP (fun e => e.1 = k)
  | .skip, l => l

/-- A map keeps up with one more edit. -/
theorem Current.append_singleton {m : κ → Option ν} (hm : Current h m) (e : Edit κ ν) :
    Current (h ++ [e]) (e.onMap m) := by
  intro k v
  simp only [live_append_singleton, exists_or, exists_and_right, ← hm k v]
  cases e with
  | put key value =>
    by_cases hk : k = key
    · subst hk
      simp [Edit.onMap, Edit.Touches]
    · simp [Edit.onMap, Edit.Touches, Function.update_of_ne hk, Ne.symm hk]
  | erase key =>
    by_cases hk : k = key
    · subst hk
      simp [Edit.onMap, Edit.Touches]
    · simp [Edit.onMap, Edit.Touches, Function.update_of_ne hk, Ne.symm hk]
  | skip => simp [Edit.onMap, Edit.Touches]

/-- Erasing the first entry of a key erases all of them, if there is one at most. -/
theorem eraseP_eq_filter (hnodup : (entries.map Prod.fst).Nodup) :
    entries.eraseP (fun e => e.1 = k) = entries.filter (fun e => e.1 ≠ k) := by
  induction entries with
  | nil => rfl
  | cons a entries ih =>
    rw [List.map_cons, List.nodup_cons] at hnodup
    by_cases ha : a.1 = k
    · rw [List.eraseP_cons_of_pos (by simpa using ha),
        List.filter_cons_of_neg (by simpa using ha), List.filter_eq_self.mpr]
      intro b hb
      rw [decide_eq_true_eq]
      rintro rfl
      exact hnodup.1 (ha ▸ List.mem_map_of_mem hb)
    · rw [List.eraseP_cons_of_neg (by simpa using ha),
        List.filter_cons_of_pos (by simpa using ha), ih hnodup.2]

/-- The numbered puts without those of one key. -/
theorem Numbered.erase {l : List (ℕ × κ × ν)} (hl : Numbered h l) :
    Numbered (h ++ [.erase k]) (l.filter (fun a => a.2.1 ≠ k)) where
  sorted := hl.sorted.filter _
  mem_iff := by
    intro i k' v
    rw [live_append_singleton, List.mem_filter, hl.mem_iff, decide_eq_true_eq]
    simp [Edit.Touches, eq_comm]

theorem map_filter_key (l : List (ℕ × κ × ν)) :
    (l.filter (fun a => a.2.1 ≠ k)).map Prod.snd =
      (l.map Prod.snd).filter (fun e => e.1 ≠ k) := by
  rw [List.filter_map]
  rfl

/-- A list of entries keeps up with one more edit. -/
theorem InOrder.append_singleton (hl : InOrder h entries) (e : Edit κ ν) :
    InOrder (h ++ [e]) (e.onList entries) := by
  have hnodup := hl.nodup_keys
  obtain ⟨l, hl, rfl⟩ := hl
  cases e with
  | put key value =>
    refine ⟨l.filter (fun a => a.2.1 ≠ key) ++ [(h.length, key, value)], ⟨?_, ?_⟩, ?_⟩
    · refine List.pairwise_append.mpr ⟨hl.sorted.filter _, List.pairwise_singleton _ _, ?_⟩
      rintro ⟨i, k, v⟩ ha b hb
      rw [List.mem_singleton.mp hb]
      exact ((hl.mem_iff i k v).mp (List.mem_filter.mp ha).1).lt_length
    · intro i k v
      rw [live_append_singleton, List.mem_append, List.mem_filter, hl.mem_iff]
      simp only [Edit.Touches, List.mem_singleton, Prod.mk.injEq, Edit.put.injEq,
        decide_eq_true_eq, ne_eq, @eq_comm _ key k, @eq_comm _ value v]
    · rw [List.map_append, map_filter_key, Edit.onList, eraseP_eq_filter hnodup]
      rfl
  | erase key =>
    refine ⟨_, hl.erase, ?_⟩
    rw [map_filter_key, Edit.onList, eraseP_eq_filter hnodup]
  | skip =>
    refine ⟨l, ⟨hl.sorted, ?_⟩, rfl⟩
    intro i k v
    rw [live_append_singleton, hl.mem_iff]
    simp [Edit.Touches]

end Stores

end KeyHistory
end Civan
