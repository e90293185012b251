import Civan.Http.Request

/-!
# The case-insensitive maps of a request

Headers, parameters and cookies are kept in maps whose keys are compared with
`strcasecmp` on their C strings.  Two keys are the same key exactly if they agree
up to the first NUL and up to case.
-/

namespace Civan
namespace Http

/-- `m.insert(std::make_pair(key, val))`: an equivalent key keeps its value. -/
def MapType.insert (key val : List UInt8) (m : MapType) : MapType :=
  match MapType.find key m with
  | some _ => m
  | none => MapType.set key val m

/-- Insert the pairs in order. -/
def MapType.insertAll (pairs : List (List UInt8 × List UInt8)) (m : MapType) : MapType :=
  pairs.foldl (fun m e => MapType.insert e.1 e.2 m) m

section HeaderMap

variable {key k v : List UInt8} {m : MapType}

theorem caseInsensitiveLess_irrefl (h : foldCase k = foldCase key) :
    caseInsensitiveLess k key = false := by
  rw [caseInsensitiveLess, h, decide_eq_false_iff_not]
  exact List.lt_irrefl _

theorem equivalent_iff :
    (!caseInsensitiveLess k key && !caseInsensitiveLess key k) = true ↔
      foldCase k = foldCase key := by
  simp only [caseInsensitiveLess, Bool.and_eq_true, Bool.not_eq_true', decide_eq_false_iff_not]
  constructor
  · rintro ⟨h₁, h₂⟩
    exact List.le_antisymm h₂ h₁
  · intro h
    rw [h]
    exact ⟨List.lt_irrefl _, List.lt_irrefl _⟩

theorem find_cons (e : List UInt8 × List UInt8) :
    MapType.find key (e :: m) =
      if foldCase e.1 = foldCase key then some e.2 else MapType.find key m := by
  rw [MapType.find, List.find?_cons]
  by_cases h : foldCase e.1 = foldCase key
  · rw [equivalent_iff.mpr h, if_pos h]
  · have hfalse : (!caseInsensitiveLess e.1 key && !caseInsensitiveLess key e.1) = false := by
      rw [Bool.eq_false_iff]
      exact fun heq => h (equivalent_iff.mp heq)
    rw [hfalse, if_neg h]
    rfl

/-- What the map holds under a key in lower case. -/
def MapType.slot (m : MapType) (folded : List UInt8) : Option (List UInt8) :=
  (m.find? fun e => foldCase e.1 = folded).map Prod.snd

theorem slot_cons (e : List UInt8 × List UInt8) (folded : List UInt8) :
    MapType.slot (e :: m) folded = if foldCase e.1 = folded then some e.2 else m.slot folded := by
  rw [MapType.slot, List.find?_cons]
  by_cases h : foldCase e.1 = folded
  · rw [if_pos h]
    simp [h]
  · rw [if_neg h]
    simp [h, MapType.slot]

theorem find_eq_slot (key : List UInt8) (m : MapType) :
    MapType.find key m = m.slot (foldCase key) := by
  induction m with
  | nil => rfl
  | cons e m ih => rw [find_cons, slot_cons, ih]

theorem slot_set : (MapType.set k v m).slot = Function.update m.slot (foldCase k) (some v) := by
  funext folded
  induction m with
  | nil =>
    rw [MapType.set, slot_cons, Function.update_apply]
    simp only [eq_comm]
  | cons e m ih =>
    obtain ⟨k', v'⟩ := e
    rw [Function.update_apply] at ih ⊢
    rw [MapType.set]
    by_cases hlt : caseInsensitiveLess k k' = true
    · rw [if_pos hlt, slot_cons]
      simp only [eq_comm]
    · rw [if_neg hlt]
      by_cases hgt : caseInsensitiveLess k' k = true
      · rw [if_pos hgt, slot_cons, slot_cons, ih]
        by_cases hk : folded = foldCase k
        · have hne : foldCase k' ≠ folded := by
            intro heq
            rw [caseInsensitiveLess_irrefl (heq.trans hk)] at hgt
            cases hgt
          rw [if_neg hne, if_pos hk, if_pos hk]
        · rw [if_neg hk, if_neg hk]
      · have hsame : foldCase k = foldCase k' :=
          equivalent_iff.mp (by simp [hlt, hgt])
        rw [if_neg hgt, slot_cons, slot_cons, hsame]
        by_cases hk : foldCase k' = folded
        · rw [if_pos hk, if_pos hk.symm]
        · rw [if_neg hk, if_neg (Ne.symm hk), if_neg hk]

theorem find_set :
    MapType.find key (MapType.set k v m) =
      if foldCase k = foldCase key then some v else MapType.find key m := by
  rw [find_eq_slot, slot_set, Function.update_apply, find_eq_slot]
  simp only [eq_comm]

theorem find_eq_none_iff :
    MapType.find key m = none ↔ ∀ e ∈ m, foldCase e.1 ≠ foldCase key := by
  induction m with
  | nil => simp [MapType.find]
  | cons e m ih =>
    rw [find_cons, List.forall_mem_cons, ← ih]
    by_cases hsame : foldCase e.1 = foldCase key
    · simp [hsame]
    · simp [hsame]

theorem find_of_mem (hdistinct : m.Pairwise fun e f => foldCase e.1 ≠ foldCase f.1)
    {e : List UInt8 × List UInt8} (he : e ∈ m) (hkey : foldCase e.1 = foldCase key) :
    MapType.find key m = some e.2 := by
  induction m with
  | nil => cases he
  | cons f m ih =>
    obtain ⟨hhead, htail⟩ := List.pairwise_cons.mp hdistinct
    rw [find_cons]
    rcases List.mem_cons.mp he with rfl | hmem
    · rw [if_pos hkey]
    · have hne : foldCase f.1 ≠ foldCase key := hkey ▸ hhead e hmem
      rw [if_neg hne, ih htail hmem]

theorem set_perm (hnew : MapType.find k m = none) : (MapType.set k v m).Perm ((k, v) :: m) := by
  induction m with
  | nil => exact List.Perm.refl _
  | cons e m ih =>
    obtain ⟨k', v'⟩ := e
    rw [find_cons] at hnew
    by_cases hsame : foldCase k' = foldCase k
    · rw [if_pos hsame] at hnew
      cases hnew
    · rw [if_neg hsame] at hnew
      rw [MapType.set]
      by_cases hlt : caseInsensitiveLess k k' = true
      · rw [if_pos hlt]
      · rw [if_neg hlt]
        by_cases hgt : caseInsensitiveLess k' k = true
        · rw [if_pos hgt]
          exact ((ih hnew).cons _).trans (List.Perm.swap _ _ _)
        · exact absurd (equivalent_iff.mp (by simp [hlt, hgt])) hsame

theorem find_congr (hsame : foldCase k = foldCase key) :
    MapType.find k m = MapType.find key m := by
  induction m with
  | nil => rfl
  | cons e m ih => rw [find_cons, find_cons, hsame, ih]

theorem find_insert :
    MapType.find key (MapType.insert k v m) =
      (MapType.find key m).or (if foldCase k = foldCase key then some v else none) := by
  rw [MapType.insert]
  cases hk : MapType.find k m with
  | none =>
    rw [find_set]
    by_cases hsame : foldCase k = foldCase key
    · rw [if_pos hsame, if_pos hsame, ← find_congr hsame, hk]
      rfl
    · rw [if_neg hsame, if_neg hsame, Option.or_none]
  | some w =>
    by_cases hsame : foldCase k = foldCase key
    · rw [← find_congr hsame, hk]
      rfl
    · rw [if_neg hsame, Option.or_none]

/-- The first pair with the key counts, unless the map has it already. -/
theorem find_insertAll (pairs : List (List UInt8 × List UInt8)) (m : MapType) :
    MapType.find key (MapType.insertAll pairs m) =
      (MapType.find key m).or (MapType.find key pairs) := by
  induction pairs generalizing m with
  | nil =>
    rw [MapType.insertAll, List.foldl_nil]
    cases MapType.find key m <;> rfl
  | cons e pairs ih =>
    have hfold : MapType.insertAll (e :: pairs) m =
        MapType.insertAll pairs (MapType.insert e.1 e.2 m) := rfl
    rw [hfold, ih, find_insert, find_cons, Option.or_assoc]
    by_cases he : foldCase e.1 = foldCase key
    · rw [if_pos he, if_pos he]
      rfl
    · rw [if_neg he, if_neg he]
      rfl

theorem insertAll_perm {pairs : List (List UInt8 × List UInt8)}
    (hdistinct : pairs.Pairwise fun e f => foldCase e.1 ≠ foldCase f.1)
    (hnew : ∀ e ∈ pairs, MapType.find e.1 m = none) :
    (MapType.insertAll pairs m).Perm (m ++ pairs) := by
  induction pairs generalizing m with
  | nil =>
    rw [List.append_nil]
    exact List.Perm.refl _
  | cons e pairs ih =>
    obtain ⟨hhead, htail⟩ := List.pairwise_cons.mp hdistinct
    have he := hnew e List.mem_cons_self
    have hinsert : MapType.insert e.1 e.2 m = MapType.set e.1 e.2 m := by
      rw [MapType.insert, he]
    have hrest : ∀ f ∈ pairs, MapType.find f.1 (MapType.insert e.1 e.2 m) = none := by
      intro f hf
      rw [find_insert, hnew f (List.mem_cons_of_mem e hf), if_neg (hhead f hf)]
      rfl
    have hperm := ih htail hrest
    rw [hinsert] at hperm
    have hfold : MapType.insertAll (e :: pairs) m =
        MapType.insertAll pairs (MapType.set e.1 e.2 m) := by
      rw [← hinsert]
      rfl
    rw [hfold]
    refine hperm.trans (((set_perm he).append_right pairs).trans ?_)
    exact List.perm_middle.symm

end HeaderMap

end Http
end Civan
