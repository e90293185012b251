import Mathlib.Data.List.Basic
import Mathlib.Data.List.Induction
import Mathlib.Data.List.TakeWhile
import Mathlib.Data.List.Nodup

/-!
# Sets ordered by a comparator

A `std::set` as the list of its elements in iteration order; an iterator is a position.
The operations look at elements only through the comparator, which may depend on data
stored elsewhere: nothing here says that the list is sorted, this is the precondition
`Sorted` of the lemmas that need it.
-/

namespace Civan
namespace OrderedSet

universe u

section Operations

variable {α : Type u} (lt : α → α → Bool)

/-- `lower_bound`: the position of the first element that is not below the probe. -/
def lowerBound (below : α → Bool) (xs : List α) : ℕ :=
  (xs.takeWhile below).length

/-- `find`; `none` is `end()`. -/
def find (x : α) (xs : List α) : Option ℕ :=
  match xs.dropWhile (fun y => lt y x) with
  | [] => none
  | y :: _ => if lt x y then none else some (lowerBound (fun y => lt y x) xs)

/-- `insert`: where the element is then found, and the set. -/
def insert (x : α) (xs : List α) : ℕ × List α :=
  match find lt x xs with
  | some i => (i, xs)
  | none =>
    (lowerBound (fun y => lt y x) xs,
      xs.takeWhile (fun y => lt y x) ++ x :: xs.dropWhile (fun y => lt y x))

/-- Elements inserted one after the other into an empty set. -/
def insertAll (xs : List α) : List α :=
  xs.foldl (fun s x => (insert lt x s).2) []

/-- What a comparator has to satisfy. -/
structure Strict : Prop where
  irrefl : ∀ x, lt x x = false
  trans : ∀ {x y z}, lt x y = true → lt y z = true → lt x z = true

/-- Each element is below all that follow it. -/
def Sorted (xs : List α) : Prop :=
  xs.Pairwise (fun x y => lt x y = true)

end Operations

section Lemmas

variable {α : Type u} {lt : α → α → Bool} {x y : α} {xs : List α}

theorem Sorted.nodup (hlt : Strict lt) (h : Sorted lt xs) : xs.Nodup := by
  refine List.Pairwise.imp ?_ h
  rintro a b hab rfl
  rw [hlt.irrefl] at hab
  cases hab

/-- Only the comparisons of elements of the set matter. -/
theorem Sorted.congr {lt' : α → α → Bool} (h : Sorted lt xs)
    (heq : ∀ a ∈ xs, ∀ b ∈ xs, lt' a b = lt a b) :
    Sorted lt' xs := by
  refine List.Pairwise.imp_of_mem ?_ h
  intro a b ha hb hab
  rw [heq a ha b hb]
  exact hab

/-- The parts of a sorted set on the two sides of an element. -/
theorem Sorted.dropWhile_of_mem (hlt : Strict lt) (h : Sorted lt xs) (hx : x ∈ xs) :
    ∃ post, xs.dropWhile (fun y => lt y x) = x :: post := by
  induction xs with
  | nil => cases hx
  | cons a xs ih =>
    obtain ⟨hhead, htail⟩ := List.pairwise_cons.mp h
    by_cases hax : a = x
    · subst hax
      exact ⟨xs, by simp [hlt.irrefl]⟩
    · have hmem : x ∈ xs := (List.mem_cons.mp hx).resolve_left (Ne.symm hax)
      obtain ⟨post, hpost⟩ := ih htail hmem
      exact ⟨post, by simpa [hhead x hmem] using hpost⟩

/-- `find` succeeds on the elements of a sorted set, and `erase` removes them. -/
theorem Sorted.find_of_mem [DecidableEq α] (hlt : Strict lt) (h : Sorted lt xs) (hx : x ∈ xs) :
    ∃ i, find lt x xs = some i ∧ xs[i]? = some x ∧ xs.eraseIdx i = xs.erase x := by
  obtain ⟨post, hpost⟩ := h.dropWhile_of_mem hlt hx
  have hsplit : xs = xs.takeWhile (fun y => lt y x) ++ x :: post := by
    rw [← hpost, List.takeWhile_append_dropWhile]
  have hnot : x ∉ xs.takeWhile (fun y => lt y x) := by
    intro hmem
    have hxx := List.mem_takeWhile_imp hmem
    rw [hlt.irrefl] at hxx
    cases hxx
  refine ⟨lowerBound (fun y => lt y x) xs, ?_, ?_, ?_⟩
  · simp [find, hpost, hlt.irrefl]
  · unfold lowerBound
    generalize xs.takeWhile (fun y => lt y x) = pre at hsplit
    rw [hsplit]
    simp
  · unfold lowerBound
    generalize xs.takeWhile (fun y => lt y x) = pre at hsplit hnot
    rw [hsplit, List.erase_append_right _ hnot, List.eraseIdx_append_of_length_le (Nat.le_refl _)]
    simp

/-- An element that is not found is below the first element not below it. -/
theorem lt_of_find_none {post : List α} (hfind : find lt x xs = none)
    (hdrop : xs.dropWhile (fun y => lt y x) = y :: post) :
    lt x y = true := by
  simp only [find, hdrop] at hfind
  by_contra hnot
  simp [hnot] at hfind

/-- After `insert` there is an element, the new one or the one that was found. -/
theorem insert_ne_nil (lt : α → α → Bool) (x : α) (xs : List α) :
    (OrderedSet.insert lt x xs).2 ≠ [] := by
  unfold OrderedSet.insert
  cases hfind : find lt x xs with
  | none => simp
  | some i =>
    rintro rfl
    cases hfind

theorem Sorted.insert (hlt : Strict lt) (h : Sorted lt xs) : Sorted lt (insert lt x xs).2 := by
  unfold OrderedSet.insert
  cases hfind : find lt x xs with
  | some i => exact h
  | none =>
    have hbelow : ∀ a ∈ xs.takeWhile (fun y => lt y x), lt a x = true :=
      fun a ha => List.mem_takeWhile_imp (p := fun y => lt y x) ha
    have hdrop : Sorted lt (xs.dropWhile (fun y => lt y x)) :=
      h.sublist (List.dropWhile_sublist _)
    have habove : ∀ b ∈ xs.dropWhile (fun y => lt y x), lt x b = true := by
      intro b hb
      cases hpost : xs.dropWhile (fun y => lt y x) with
      | nil =>
        rw [hpost] at hb
        cases hb
      | cons y post =>
        have hxy := lt_of_find_none hfind hpost
        rw [hpost] at hb hdrop
        rcases List.mem_cons.mp hb with rfl | hb
        · exact hxy
        · exact hlt.trans hxy ((List.pairwise_cons.mp hdrop).1 b hb)
    refine List.pairwise_append.mpr ⟨?_, ?_, ?_⟩
    · exact h.sublist (List.takeWhile_sublist _)
    · exact List.pairwise_cons.mpr ⟨habove, hdrop⟩
    · intro a ha b hb
      rcases List.mem_cons.mp hb with rfl | hb
      · exact hbelow a ha
      · exact hlt.trans (hbelow a ha) (habove b hb)

/-- An element that compares with all others enters the set. -/
theorem mem_insert {z : α} (hcomparable : ∀ y ∈ xs, lt x y = true ∨ lt y x = true) :
    z ∈ (insert lt x xs).2 ↔ z = x ∨ z ∈ xs := by
  have hfind : find lt x xs = none := by
    unfold find
    split
    · rfl
    · rename_i y post hdrop
      have hy : y ∈ xs := by
        refine (List.dropWhile_sublist (fun y => lt y x)).subset ?_
        rw [hdrop]
        exact List.mem_cons_self
      have hnot : lt y x ≠ true := by
        have hhead := List.head_dropWhile_not (fun y => lt y x) (l := xs) (by simp [hdrop])
        simpa [hdrop] using hhead
      rw [if_pos ((hcomparable y hy).resolve_right hnot)]
  have hsplit : z ∈ xs ↔
      z ∈ xs.takeWhile (fun y => lt y x) ∨ z ∈ xs.dropWhile (fun y => lt y x) := by
    rw [← List.mem_append, List.takeWhile_append_dropWhile]
  simp only [insert, hfind, List.mem_append, List.mem_cons, hsplit]
  tauto

theorem insert_of_above (habove : ∀ y ∈ xs, lt y x = true) :
    (insert lt x xs).2 = xs ++ [x] := by
  have htake : xs.takeWhile (fun y => lt y x) = xs := List.takeWhile_eq_self_iff.mpr habove
  have hdrop : xs.dropWhile (fun y => lt y x) = [] := List.dropWhile_eq_nil_iff.mpr habove
  simp [insert, find, htake, hdrop]

/-- Inserting keeps to the elements that are inserted. -/
theorem mem_of_mem_insert {z : α} (h : z ∈ (insert lt x xs).2) : z = x ∨ z ∈ xs := by
  unfold insert at h
  cases hfind : find lt x xs with
  | some i =>
    simp only [hfind] at h
    exact Or.inr h
  | none =>
    simp only [hfind, List.mem_append, List.mem_cons] at h
    rcases h with h | h | h
    · exact Or.inr ((List.takeWhile_sublist _).subset h)
    · exact Or.inl h
    · exact Or.inr ((List.dropWhile_sublist _).subset h)

theorem take_lowerBound (p : α → Bool) (xs : List α) :
    xs.take (lowerBound p xs) = xs.takeWhile p :=
  (List.prefix_iff_eq_take.mp (List.takeWhile_prefix p)).symm

theorem drop_lowerBound (p : α → Bool) (xs : List α) :
    xs.drop (lowerBound p xs) = xs.dropWhile p := by
  have hsplit := List.take_append_drop (lowerBound p xs) xs
  rw [take_lowerBound] at hsplit
  exact List.append_cancel_left (hsplit.trans List.takeWhile_append_dropWhile.symm)

/-- What a range found by `lower_bound` holds, for a test that is downward closed. -/
theorem takeWhile_eq_filter {p : α → Bool}
    (h : xs.Pairwise (fun a b => p b = true → p a = true)) :
    xs.takeWhile p = xs.filter p := by
  induction xs with
  | nil => rfl
  | cons a xs ih =>
    obtain ⟨hhead, htail⟩ := List.pairwise_cons.mp h
    cases ha : p a with
    | true => simp [ha, ih htail]
    | false =>
      have hnone : ∀ b ∈ xs, p b = false := by
        intro b hb
        by_contra hpb
        have hpa := hhead b hb (by simpa using hpb)
        rw [ha] at hpa
        cases hpa
      simpa [ha] using hnone

/-- Nothing behind the range passes the test. -/
theorem eq_false_of_mem_dropWhile {p : α → Bool}
    (h : xs.Pairwise (fun a b => p b = true → p a = true)) (hx : x ∈ xs.dropWhile p) :
    p x = false := by
  induction xs with
  | nil => cases hx
  | cons a xs ih =>
    obtain ⟨hhead, htail⟩ := List.pairwise_cons.mp h
    cases ha : p a with
    | true =>
      rw [List.dropWhile_cons_of_pos ha] at hx
      exact ih htail hx
    | false =>
      by_contra hpx
      have hpx : p x = true := by simpa using hpx
      rw [List.dropWhile_cons_of_neg (by simp [ha])] at hx
      rcases List.mem_cons.mp hx with rfl | hx
      · rw [ha] at hpx
        cases hpx
      · have hpa := hhead x hx hpx
        rw [ha] at hpa
        cases hpa

/-- A range that is extended element by element, to all that pass a weaker test. -/
theorem takeWhile_append_takeWhile {p q r : α → Bool} (hp : ∀ x, p x = true → r x = true)
    (hq : ∀ x ∈ xs.dropWhile p, q x = r x)
    (hr : xs.Pairwise (fun a b => r b = true → r a = true)) :
    xs.takeWhile p ++ (xs.dropWhile p).takeWhile q = xs.filter r := by
  have hfront : (xs.takeWhile p).filter r = xs.takeWhile p :=
    List.filter_eq_self.mpr fun x hx => hp x (List.mem_takeWhile_imp hx)
  have hback : (xs.dropWhile p).takeWhile q = (xs.dropWhile p).filter r := by
    rw [← List.filter_congr hq]
    refine takeWhile_eq_filter ?_
    refine List.Pairwise.imp_of_mem ?_ (hr.sublist (List.dropWhile_sublist p))
    intro a b ha hb hab
    rw [hq a ha, hq b hb]
    exact hab
  have hsplit := congrArg (List.filter r) (List.takeWhile_append_dropWhile (p := p) (l := xs))
  rw [List.filter_append, hfront] at hsplit
  rw [hback, hsplit]

theorem sorted_insertAll (hlt : Strict lt) (xs : List α) : Sorted lt (insertAll lt xs) := by
  refine List.foldlRecOn xs _ List.Pairwise.nil ?_
  intro s hs x _
  exact Sorted.insert hlt hs

theorem mem_of_mem_insertAll (h : x ∈ insertAll lt xs) : x ∈ xs := by
  refine List.foldlRecOn (motive := fun s => x ∈ s → x ∈ xs) xs _ ?_ ?_ h
  · intro hx
    cases hx
  · intro s hs y hy hx
    rcases mem_of_mem_insert hx with rfl | hx
    · exact hy
    · exact hs hx

/-- Inserting the elements of a sorted set in order gives the set. -/
theorem insertAll_of_sorted (h : Sorted lt xs) : insertAll lt xs = xs := by
  induction xs using List.reverseRecOn with
  | nil => rfl
  | append_singleton xs x ih =>
    obtain ⟨hxs, _, habove⟩ := List.pairwise_append.mp h
    have hrest : insertAll lt (xs ++ [x]) = (insert lt x (insertAll lt xs)).2 := by
      simp [insertAll]
    rw [hrest, ih hxs]
    exact insert_of_above (fun y hy => habove y hy x (List.mem_singleton_self x))

end Lemmas

end OrderedSet
end Civan
