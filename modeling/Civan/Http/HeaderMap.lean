import Mathlib.Data.List.TakeWhile
import Mathlib.Order.Defs.Unbundled
import Civan.Http.MapType
import Civan.Lib.KeyHistory

/-!
# The headers of a request over a history of calls

`m_headers` is a `std::map` ordered by `strcasecmp`.  The comparison is a strict
weak order on all strings, so the map stays sorted and its search finds an entry
if there is one; two keys are one key exactly if they agree up to case (and up to
their first NUL).  Over a history of `setHeader` and `delHeader` the map holds
what the last call for each key left.
-/

namespace Civan
namespace Http

open KeyHistory

section Model

/-- `strcasecmp`; the end of a string is its NUL. -/
def strcasecmp : List UInt8 → List UInt8 → ℤ
  | [], [] => 0
  | [], d :: _ => 0 - (toLower d).toNat
  | c :: _, [] => (toLower c).toNat - 0
  | c :: a, d :: b =>
    let result : ℤ := (toLower c).toNat - (toLower d).toNat
    if result = 0 then
      if c = 0 then 0 else strcasecmp a b
    else
      result

/-- `m.erase(key)`. -/
def MapType.erase (key : List UInt8) (m : MapType) : MapType :=
  m.filter fun e => caseInsensitiveLess e.1 key || caseInsensitiveLess key e.1

/-- The search in a tree: the first entry that is not less than the key, if the key is
not less than it. -/
def MapType.search (key : List UInt8) (m : MapType) : Option (List UInt8) :=
  match m.dropWhile fun e => caseInsensitiveLess e.1 key with
  | [] => none
  | e :: _ => if caseInsensitiveLess key e.1 then none else some e.2

def HttpRequest.delHeader (r : HttpRequest) (key : List UInt8) : HttpRequest :=
  { r with headers := MapType.erase key r.headers }

/-- A call that changes the headers. -/
inductive HeaderCall where
  | setHeader (key val : List UInt8)
  | delHeader (key : List UInt8)
deriving DecidableEq, Repr

def HeaderCall.key : HeaderCall → List UInt8
  | .setHeader key _ => key
  | .delHeader key => key

def HttpRequest.call (r : HttpRequest) : HeaderCall → HttpRequest
  | .setHeader key val => r.setHeader key val
  | .delHeader key => r.delHeader key

end Model

section Purpose

/-- A key in lower case. -/
def lowerCase (key : List UInt8) : List UInt8 :=
  key.map toLower

/-- The call as an edit of a map whose keys are in lower case. -/
def HeaderCall.edit : HeaderCall → Edit (List UInt8) (List UInt8)
  | .setHeader key val => .put (lowerCase key) val
  | .delHeader key => .erase (lowerCase key)

end Purpose

section Order

variable {a b : List UInt8}

theorem toLower_eq_zero_iff (c : UInt8) : toLower c = 0 ↔ c = 0 := by
  rw [toLower]
  by_cases hc : 65 ≤ c ∧ c ≤ 90
  · rw [if_pos hc]
    obtain ⟨hlow, hhigh⟩ := hc
    rw [UInt8.le_iff_toNat_le] at hlow hhigh
    have hsum : (c + 32).toNat = c.toNat + 32 := by
      rw [UInt8.toNat_add]
      exact Nat.mod_eq_of_lt (by simp at hhigh ⊢; omega)
    rw [← UInt8.toNat_inj, ← UInt8.toNat_inj, hsum]
    simp at hlow ⊢
    omega
  · rw [if_neg hc]

theorem foldCase_cons (c : UInt8) (a : List UInt8) :
    foldCase (c :: a) = if c = 0 then [] else toLower c :: foldCase a := by
  rw [foldCase, List.takeWhile_cons]
  by_cases hc : c = 0
  · simp [hc]
  · simp [hc, foldCase]

theorem strcasecmp_neg_iff (a b : List UInt8) :
    strcasecmp a b < 0 ↔ foldCase a < foldCase b := by
  fun_induction strcasecmp a b with
  | case1 => simp [foldCase]
  | case2 d b =>
    rw [foldCase_cons]
    have hzero := toLower_eq_zero_iff d
    rw [← UInt8.toNat_inj] at hzero
    by_cases hd : d = 0
    · simp [hd, foldCase, toLower]
    · have hne : (toLower d).toNat ≠ 0 := fun h => hd (hzero.mp (by simpa using h))
      rw [if_neg hd]
      refine iff_of_true (by omega) ?_
      exact List.nil_lt_cons _ _
  | case3 c a =>
    refine iff_of_false (by omega) ?_
    exact List.not_lt_nil _
  | case4 a d b result hresult =>
    have hd : d = 0 := by
      rw [← toLower_eq_zero_iff, ← UInt8.toNat_inj]
      simp only [result] at hresult
      exact (Int.ofNat_inj.mp (Int.sub_eq_zero.mp hresult)).symm
    simp [hd, foldCase_cons]
  | case5 c a d b result hresult hc ih =>
    have hsame : toLower c = toLower d := by
      rw [← UInt8.toNat_inj]
      exact Int.ofNat_inj.mp (Int.sub_eq_zero.mp hresult)
    have hd : d ≠ 0 := by
      rintro rfl
      exact hc ((toLower_eq_zero_iff c).mp hsame)
    rw [foldCase_cons, foldCase_cons, if_neg hc, if_neg hd, ih, hsame, List.cons_lt_cons_iff]
    simp
  | case6 c a d b result hresult =>
    have hne : toLower c ≠ toLower d := fun heq => hresult (by simp [result, heq])
    have hsign : result < 0 ↔ toLower c < toLower d := by
      rw [UInt8.lt_iff_toNat_lt]
      simp only [result]
      omega
    rw [hsign, foldCase_cons, foldCase_cons]
    by_cases hc : c = 0
    · have hd : d ≠ 0 := by
        rintro rfl
        exact hne (by rw [hc])
      have hpos : toLower d ≠ 0 := fun h => hd ((toLower_eq_zero_iff d).mp h)
      rw [if_pos hc, if_neg hd, hc]
      refine iff_of_true ?_ (List.nil_lt_cons _ _)
      exact UInt8.pos_iff_ne_zero.mpr hpos
    · rw [if_neg hc]
      by_cases hd : d = 0
      · rw [if_pos hd, hd]
        exact iff_of_false UInt8.not_lt_zero (List.not_lt_nil _)
      · rw [if_neg hd, List.cons_lt_cons_iff]
        simp [hne]

theorem caseInsensitiveLess_eq_strcasecmp (a b : List UInt8) :
    caseInsensitiveLess a b = decide (strcasecmp a b < 0) := by
  rw [caseInsensitiveLess, decide_eq_decide, strcasecmp_neg_iff]

theorem foldCase_of_notMem (ha : 0 ∉ a) : foldCase a = lowerCase a := by
  rw [foldCase, lowerCase, List.takeWhile_eq_self_iff.mpr]
  exact fun c hc => decide_eq_true (ne_of_mem_of_not_mem hc ha)

theorem strcasecmp_incomparable_iff :
    ¬ strcasecmp a b < 0 ∧ ¬ strcasecmp b a < 0 ↔ foldCase a = foldCase b := by
  rw [strcasecmp_neg_iff, strcasecmp_neg_iff]
  constructor
  · rintro ⟨h₁, h₂⟩
    exact List.le_antisymm h₂ h₁
  · intro h
    rw [h]
    exact ⟨List.lt_irrefl _, List.lt_irrefl _⟩

/-- The comparison of the map is a strict weak order on all strings. -/
theorem isStrictWeakOrder_strcasecmp :
    IsStrictWeakOrder (List UInt8) fun a b => strcasecmp a b < 0 where
  irrefl a := by
    rw [strcasecmp_neg_iff]
    exact List.lt_irrefl _
  trans a b c := by
    rw [strcasecmp_neg_iff, strcasecmp_neg_iff, strcasecmp_neg_iff]
    exact List.lt_trans
  incomp_trans a b c := by
    rw [strcasecmp_incomparable_iff, strcasecmp_incomparable_iff, strcasecmp_incomparable_iff]
    exact Eq.trans

end Order

section Search

variable {key : List UInt8} {m : MapType}

/-- The order in which a map keeps its entries. -/
def MapType.Sorted (m : MapType) : Prop :=
  m.Pairwise fun e f => foldCase e.1 < foldCase f.1

theorem MapType.Sorted.search_eq (h : m.Sorted) :
    MapType.search key m = MapType.find key m := by
  induction m with
  | nil => rfl
  | cons e m ih =>
    obtain ⟨hhead, htail⟩ := List.pairwise_cons.mp h
    rw [MapType.search, List.dropWhile_cons, find_cons]
    by_cases hless : foldCase e.1 < foldCase key
    · -- the entry comes before the key: the search goes on behind it
      have hne : foldCase e.1 ≠ foldCase key := fun heq => List.lt_irrefl _ (heq ▸ hless)
      rw [caseInsensitiveLess, if_pos (decide_eq_true hless), if_neg hne, ← ih htail]
      rfl
    · rw [caseInsensitiveLess, if_neg (by simpa using hless)]
      by_cases hsame : foldCase e.1 = foldCase key
      · rw [if_pos hsame]
        dsimp only
        rw [caseInsensitiveLess_irrefl hsame.symm]
        rfl
      · -- the key would stand here: no later entry has it
        have hafter : foldCase key < foldCase e.1 := by
          by_contra hnot
          exact hsame (List.le_antisymm hnot hless)
        have hnone : MapType.find key m = none := by
          rw [find_eq_none_iff]
          intro f hf heq
          exact List.lt_irrefl _ (heq ▸ List.lt_trans hafter (hhead f hf))
        dsimp only
        rw [if_neg hsame, hnone, caseInsensitiveLess, if_pos (decide_eq_true hafter)]

theorem mem_set {k v : List UInt8} {f : List UInt8 × List UInt8} (hf : f ∈ MapType.set k v m) :
    foldCase f.1 = foldCase k ∨ ∃ e ∈ m, foldCase f.1 = foldCase e.1 := by
  induction m with
  | nil =>
    rw [MapType.set, List.mem_singleton] at hf
    rw [hf]
    exact Or.inl rfl
  | cons e m ih =>
    obtain ⟨k', v'⟩ := e
    rw [MapType.set] at hf
    by_cases hlt : caseInsensitiveLess k k' = true
    · rw [if_pos hlt] at hf
      rcases List.mem_cons.mp hf with rfl | hmem
      · exact Or.inl rfl
      · exact Or.inr ⟨f, hmem, rfl⟩
    · rw [if_neg hlt] at hf
      by_cases hgt : caseInsensitiveLess k' k = true
      · rw [if_pos hgt] at hf
        rcases List.mem_cons.mp hf with rfl | hmem
        · exact Or.inr ⟨_, List.mem_cons_self, rfl⟩
        · rcases ih hmem with hkey | ⟨e, he, hsame⟩
          · exact Or.inl hkey
          · exact Or.inr ⟨e, List.mem_cons_of_mem _ he, hsame⟩
      · rw [if_neg hgt] at hf
        rcases List.mem_cons.mp hf with rfl | hmem
        · exact Or.inr ⟨_, List.mem_cons_self, rfl⟩
        · exact Or.inr ⟨f, List.mem_cons_of_mem _ hmem, rfl⟩

theorem MapType.Sorted.set (h : m.Sorted) (k v : List UInt8) : (MapType.set k v m).Sorted := by
  induction m with
  | nil => exact List.pairwise_singleton _ _
  | cons e m ih =>
    obtain ⟨k', v'⟩ := e
    obtain ⟨hhead, htail⟩ := List.pairwise_cons.mp h
    rw [MapType.set]
    by_cases hlt : caseInsensitiveLess k k' = true
    · rw [if_pos hlt]
      have hbefore : foldCase k < foldCase k' := of_decide_eq_true hlt
      refine List.pairwise_cons.mpr ⟨?_, h⟩
      intro f hf
      rcases List.mem_cons.mp hf with rfl | hmem
      · exact hbefore
      · exact List.lt_trans hbefore (hhead f hmem)
    · rw [if_neg hlt]
      by_cases hgt : caseInsensitiveLess k' k = true
      · rw [if_pos hgt]
        refine List.pairwise_cons.mpr ⟨?_, ih htail⟩
        intro f hf
        rcases mem_set hf with hkey | ⟨e, he, hsame⟩
        · rw [hkey]
          exact of_decide_eq_true hgt
        · rw [hsame]
          exact hhead e he
      · rw [if_neg hgt]
        exact List.pairwise_cons.mpr ⟨hhead, htail⟩

theorem MapType.Sorted.erase (h : m.Sorted) (k : List UInt8) : (MapType.erase k m).Sorted :=
  List.Pairwise.filter _ h

theorem erase_cons (k : List UInt8) (e : List UInt8 × List UInt8) :
    MapType.erase k (e :: m) =
      if foldCase e.1 = foldCase k then MapType.erase k m else e :: MapType.erase k m := by
  rw [MapType.erase, List.filter_cons]
  by_cases hsame : foldCase e.1 = foldCase k
  · rw [caseInsensitiveLess_irrefl hsame, caseInsensitiveLess_irrefl hsame.symm, if_pos hsame]
    rfl
  · have hother : (caseInsensitiveLess e.1 k || caseInsensitiveLess k e.1) = true := by
      by_contra hnot
      exact hsame (equivalent_iff.mp (by simpa using hnot))
    rw [if_pos hother, if_neg hsame]
    rfl

theorem slot_erase (k : List UInt8) :
    (MapType.erase k m).slot = Function.update m.slot (foldCase k) none := by
  funext folded
  rw [Function.update_apply]
  induction m with
  | nil =>
    split_ifs
    · rfl
    · rfl
  | cons e m ih =>
    rw [erase_cons, slot_cons]
    by_cases hsame : foldCase e.1 = foldCase k
    · rw [if_pos hsame, ih]
      by_cases hk : folded = foldCase k
      · rw [if_pos hk, if_pos hk]
      · rw [if_neg hk, if_neg hk, if_neg (fun h => hk (h.symm.trans hsame))]
    · rw [if_neg hsame, slot_cons, ih]
      by_cases hk : folded = foldCase k
      · rw [if_pos hk, if_pos hk, if_neg (fun h => hsame (h.trans hk))]
      · rw [if_neg hk, if_neg hk]

end Search

section History

variable {r : HttpRequest}

theorem sorted_call (h : r.headers.Sorted) (c : HeaderCall) : (r.call c).headers.Sorted := by
  cases c with
  | setHeader key val => exact h.set key val
  | delHeader key => exact h.erase key

theorem slot_call {c : HeaderCall} (hc : 0 ∉ c.key) :
    (r.call c).headers.slot = c.edit.onMap r.headers.slot := by
  cases c with
  | setHeader key val =>
    have hfold : foldCase key = lowerCase key := foldCase_of_notMem hc
    rw [HeaderCall.edit, ← hfold]
    exact slot_set
  | delHeader key =>
    have hfold : foldCase key = lowerCase key := foldCase_of_notMem hc
    rw [HeaderCall.edit, ← hfold]
    exact slot_erase key

theorem calls_current (hempty : r.headers = [])
    {calls : List HeaderCall} (hkeys : ∀ c ∈ calls, 0 ∉ c.key) :
    (calls.foldl HttpRequest.call r).headers.Sorted ∧
      Current (calls.map HeaderCall.edit) (calls.foldl HttpRequest.call r).headers.slot := by
  -- Induction on the history from its end: the last call is one edit.
  induction calls using List.reverseRecOn with
  | nil =>
    rw [List.foldl_nil, hempty]
    exact ⟨List.Pairwise.nil, current_nil⟩
  | append_singleton calls c ih =>
    obtain ⟨hsorted, hcurrent⟩ := ih fun c' hc' => hkeys c' (List.mem_append_left _ hc')
    have hc : 0 ∉ c.key := hkeys c (by simp)
    rw [List.foldl_append, List.foldl_cons, List.foldl_nil, List.map_append, List.map_cons,
      List.map_nil]
    refine ⟨sorted_call hsorted c, ?_⟩
    rw [slot_call hc]
    exact hcurrent.append_singleton c.edit

end History

/--
**Header map.**  `strcasecmp` is a strict weak order whose equivalence, on strings
without NUL, is equality up to case; so over any history of calls the search in the map
finds what is there, and `getHeader` returns the value of the last `setHeader` for the
key that no later call for the key follows, or the default if there is none.
-/
theorem getHeader_latest (version : UInt8) (close : Bool)
    {calls : List HeaderCall} (hkeys : ∀ c ∈ calls, 0 ∉ c.key)
    {key : List UInt8} (hkey : 0 ∉ key) (dflt : List UInt8) :
    let r := calls.foldl HttpRequest.call (HttpRequest.new version close)
    let history := calls.map HeaderCall.edit
    IsStrictWeakOrder (List UInt8) (fun a b => strcasecmp a b < 0) ∧
    (∀ a b, 0 ∉ a → 0 ∉ b →
      (¬ strcasecmp a b < 0 ∧ ¬ strcasecmp b a < 0 ↔ lowerCase a = lowerCase b)) ∧
    MapType.search key r.headers = MapType.find key r.headers ∧
    (∀ v i, Live history (lowerCase key) v i → r.getHeader key dflt = v) ∧
    ((∀ v i, ¬ Live history (lowerCase key) v i) → r.getHeader key dflt = dflt) := by
  intro r history
  obtain ⟨hsorted, hcurrent⟩ := calls_current (r := HttpRequest.new version close) rfl hkeys
  have hget : r.getHeader key dflt = (r.headers.slot (lowerCase key)).getD dflt := by
    rw [HttpRequest.getHeader, find_eq_slot, foldCase_of_notMem hkey]
  refine ⟨isStrictWeakOrder_strcasecmp, ?_, hsorted.search_eq, ?_, ?_⟩
  · intro a b ha hb
    rw [strcasecmp_incomparable_iff, foldCase_of_notMem ha, foldCase_of_notMem hb]
  · intro v i hlive
    rw [hget, (hcurrent _ _).mpr ⟨i, hlive⟩]
    rfl
  · intro hnone
    have hslot : r.headers.slot (lowerCase key) = none := by
      rw [Option.eq_none_iff_forall_ne_some]
      intro v hv
      obtain ⟨i, hlive⟩ := (hcurrent _ _).mp hv
      exact hnone v i hlive
    rw [hget, hslot]
    rfl

/-- A header set twice in different case, and one that was deleted. -/
def mixedCaseCalls : List HeaderCall :=
  [.setHeader (bytesOf "Host") (bytesOf "a"), .setHeader (bytesOf "Via") (bytesOf "b"),
    .setHeader (bytesOf "HOST") (bytesOf "c"), .delHeader (bytesOf "vIA")]

theorem getHeader_latest_mixed_case :
    (mixedCaseCalls.foldl HttpRequest.call (HttpRequest.new 0x11 true)).getHeader
      (bytesOf "host") [] = bytesOf "c" := by
  have hkeys : ∀ c ∈ mixedCaseCalls, 0 ∉ c.key := by decide
  have hlive : Live (mixedCaseCalls.map HeaderCall.edit) (lowerCase (bytesOf "host"))
      (bytesOf "c") 2 := by
    refine ⟨rfl, ?_⟩
    intro j e hj he
    obtain rfl : j = 3 := by
      have := (List.getElem?_eq_some_iff.mp he).1
      simp [mixedCaseCalls] at this
      omega
    cases he
    exact (by decide : ¬ lowerCase (bytesOf "vIA") = lowerCase (bytesOf "host"))
  exact (getHeader_latest 0x11 true hkeys (by decide) []).2.2.2.1 _ _ hlive

end Http
end Civan
