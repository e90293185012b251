import Mathlib.Data.List.DropRight
import Civan.Lib.Split

/-!
# The text form of a 128-bit address

RFC 4291, section 2.2: eight groups of one to four hexadecimal digits with `:`
between them, or fewer groups with one `::` that stands for the groups of zeros
left out.  `Denotes` says which groups a text stands for, `DenotesBytes` which
sixteen bytes.  A text stands for one address at most.
-/

namespace Civan
namespace Ipv6Text

/-- The value of one hexadecimal digit. -/
def hexDigit (c : Char) : Option ℕ :=
  if '0' ≤ c ∧ c ≤ '9' then
    some (c.toNat - '0'.toNat)
  else if 'a' ≤ c ∧ c ≤ 'f' then
    some (c.toNat - 'a'.toNat + 10)
  else if 'A' ≤ c ∧ c ≤ 'F' then
    some (c.toNat - 'A'.toNat + 10)
  else
    none

def hexNumber (text : List Char) : Option ℕ :=
  text.foldlM (fun n c => (hexDigit c).map (16 * n + ·)) 0

/-- A group has one to four digits. -/
def group (text : List Char) : Option ℕ :=
  if 1 ≤ text.length ∧ text.length ≤ 4 then hexNumber text else none

/-- One or more groups with `:` between them. -/
def groups (text : List Char) : Option (List ℕ) :=
  (text.splitOn ':').mapM group

/-- The pieces on one side of `::`, where nothing at all may stand. -/
def sidePieces (text : List Char) : List (List Char) :=
  if text = [] then [] else text.splitOn ':'

def side (text : List Char) : Option (List ℕ) :=
  (sidePieces text).mapM group

/-- The groups a text stands for. -/
inductive Denotes : List Char → List ℕ → Prop
  | full {text : List Char} {gs : List ℕ} (hgs : groups text = some gs)
      (hlength : gs.length = 8) :
      Denotes text gs
  | compressed {left right : List Char} {ls rs : List ℕ} (hleft : side left = some ls)
      (hright : side right = some rs) (hlength : ls.length + rs.length ≤ 7) :
      Denotes
        (left ++ ':' :: ':' :: right)
        (ls ++ List.replicate (8 - (ls.length + rs.length)) 0 ++ rs)

/-- Each group is two bytes, the high one first. -/
def groupBytes (g : ℕ) : List UInt8 :=
  [UInt8.ofNat (g / 256), UInt8.ofNat (g % 256)]

def DenotesBytes (text : List Char) (bytes : List UInt8) : Prop :=
  ∃ gs, Denotes text gs ∧ bytes = gs.flatMap groupBytes

variable {text left right : List Char} {ls rs gs gs' : List ℕ}

theorem group_nil : group [] = none :=
  rfl

theorem splitOn_append_colon (l r : List Char) :
    (l ++ ':' :: r).splitOn ':' = l.splitOn ':' ++ r.splitOn ':' := by
  induction l using Split.cut_induction ':' with
  | hlast l hl =>
    rw [Split.splitOn_append_cons hl, List.splitOn_eq_singleton hl, List.singleton_append]
  | hcut a l ha ih =>
    rw [List.append_assoc, List.cons_append, Split.splitOn_append_cons ha, ih,
      Split.splitOn_append_cons ha, List.cons_append]

theorem splitOn_compressed (left right : List Char) :
    (left ++ ':' :: ':' :: right).splitOn ':' = left.splitOn ':' ++ [] :: right.splitOn ':' := by
  have hempty : (':' :: right).splitOn ':' = [] :: right.splitOn ':' :=
    Split.splitOn_append_cons List.not_mem_nil right
  rw [splitOn_append_colon, hempty]

theorem ne_nil_of_mapM_group {pieces : List (List Char)} (h : pieces.mapM group = some gs) :
    ∀ p ∈ pieces, p ≠ [] := by
  induction pieces generalizing gs with
  | nil => simp
  | cons p pieces ih =>
    rw [List.mapM_cons] at h
    obtain ⟨g, hg, h⟩ := Option.bind_eq_some_iff.mp h
    obtain ⟨gs, hgs, -⟩ := Option.bind_eq_some_iff.mp h
    rw [List.forall_mem_cons]
    refine ⟨?_, ih hgs⟩
    rintro rfl
    rw [group_nil] at hg
    cases hg

theorem takeWhile_left_pieces (h : side left = some ls) (rest : List (List Char)) :
    (left.splitOn ':' ++ [] :: rest).takeWhile (· ≠ []) = sidePieces left := by
  have hne := ne_nil_of_mapM_group h
  unfold sidePieces at hne ⊢
  split_ifs at hne ⊢ with hnil
  · rw [hnil]
    rfl
  · rw [List.takeWhile_append_of_pos (fun p hp => decide_eq_true (hne p hp)),
      List.takeWhile_cons_of_neg (by simp), List.append_nil]

theorem rtakeWhile_right_pieces (h : side right = some rs) (rest : List (List Char)) :
    (rest ++ [] :: right.splitOn ':').rtakeWhile (· ≠ []) = sidePieces right := by
  have hne := ne_nil_of_mapM_group h
  unfold sidePieces at hne ⊢
  unfold List.rtakeWhile
  rw [List.reverse_append, List.reverse_cons, List.append_assoc, List.singleton_append]
  split_ifs at hne ⊢ with hnil
  · rw [hnil]
    rfl
  · have hrev : ∀ p ∈ (right.splitOn ':').reverse, decide (p ≠ []) = true :=
      fun p hp => decide_eq_true (hne p (List.mem_reverse.mp hp))
    rw [List.takeWhile_append_of_pos hrev, List.takeWhile_cons_of_neg (by simp),
      List.append_nil, List.reverse_reverse]

theorem Denotes.unique (h : Denotes text gs) (h' : Denotes text gs') : gs = gs' := by
  -- an empty piece is no group, so a text with `::` is not in the full form
  have hno :
      ∀ {l r : List Char} {gs : List ℕ}, groups (l ++ ':' :: ':' :: r) ≠ some gs := by
    intro l r gs hgs
    unfold groups at hgs
    rw [splitOn_compressed] at hgs
    exact ne_nil_of_mapM_group hgs [] (by simp) rfl
  cases h with
  | full hgs =>
    generalize htext : text = t at h'
    cases h' with
    | full hgs' =>
      rw [htext, hgs'] at hgs
      exact (Option.some.inj hgs).symm
    | compressed => exact absurd (htext ▸ hgs) hno
  | @compressed left right ls rs hleft hright =>
    generalize htext : left ++ ':' :: ':' :: right = t at h'
    cases h' with
    | full hgs' => exact absurd (htext ▸ hgs') hno
    | @compressed left' right' ls' rs' hleft' hright' =>
      have hpieces := congrArg (List.splitOn ':') htext
      rw [splitOn_compressed, splitOn_compressed] at hpieces
      have hl : sidePieces left = sidePieces left' := by
        rw [← takeWhile_left_pieces hleft, hpieces, takeWhile_left_pieces hleft']
      have hr : sidePieces right = sidePieces right' := by
        rw [← rtakeWhile_right_pieces hright, hpieces, rtakeWhile_right_pieces hright']
      unfold side at hleft hright hleft' hright'
      rw [hl, hleft'] at hleft
      rw [hr, hright'] at hright
      rw [Option.some.inj hleft, Option.some.inj hright]

/-- A text that stands for some address stands for that one only. -/
theorem Denotes.bytes_iff (h : Denotes text gs) (bytes : List UInt8) :
    DenotesBytes text bytes ↔ bytes = gs.flatMap groupBytes := by
  constructor
  · rintro ⟨gs', h', rfl⟩
    rw [h.unique h']
  · intro hbytes
    exact ⟨gs, h, hbytes⟩

/-- The digits of a group, without leading zeros. -/
def hex (g : ℕ) : List Char :=
  Nat.toDigits 16 g

/-- Groups with `:` between them. -/
def joined (gs : List ℕ) : List Char :=
  [':'].intercalate (gs.map hex)

@[simp] theorem joined_nil : joined [] = [] :=
  rfl

@[simp] theorem joined_singleton (g : ℕ) : joined [g] = hex g := by
  simp [joined]

theorem hexDigit_digitChar : ∀ d < 16, hexDigit d.digitChar = some d := by
  decide

theorem hexNumber_append_singleton (text : List Char) (c : Char) :
    hexNumber (text ++ [c]) = (hexNumber text).bind fun n => (hexDigit c).map (16 * n + ·) := by
  unfold hexNumber
  rw [List.foldlM_append]
  simp

theorem hexNumber_hex (g : ℕ) : hexNumber (hex g) = some g := by
  induction g using Nat.strong_induction_on with
  | _ g ih =>
    unfold hex at ih ⊢
    by_cases hg : g < 16
    · rw [Nat.toDigits_of_lt_base hg]
      change hexNumber ([] ++ [g.digitChar]) = some g
      rw [hexNumber_append_singleton, hexDigit_digitChar g hg]
      simp [hexNumber]
    · rw [Nat.toDigits_of_base_le (by omega) (by omega), hexNumber_append_singleton,
        ih (g / 16) (by omega), hexDigit_digitChar _ (by omega)]
      simp
      omega

theorem length_hex_le {k : ℕ} : ∀ {g : ℕ}, g < 16 ^ (k + 1) → (hex g).length ≤ k + 1 := by
  induction k with
  | zero =>
    intro g hg
    unfold hex
    rw [Nat.toDigits_of_lt_base (by omega)]
    exact le_rfl
  | succ k ih =>
    intro g hg
    by_cases hlt : g < 16
    · unfold hex
      rw [Nat.toDigits_of_lt_base hlt]
      exact Nat.le_add_left ..
    · have hdiv : g / 16 < 16 ^ (k + 1) := by
        rw [pow_succ] at hg
        omega
      have hlength := ih hdiv
      unfold hex at hlength ⊢
      rw [Nat.toDigits_of_base_le (by omega) (by omega), List.length_append]
      exact Nat.add_le_add_right hlength 1

theorem hex_ne_nil (g : ℕ) : hex g ≠ [] := by
  unfold hex
  rw [Nat.toDigits_eq_if (by omega)]
  split_ifs <;> simp

theorem group_hex {g : ℕ} (hg : g < 2 ^ 16) : group (hex g) = some g := by
  have hle : (hex g).length ≤ 3 + 1 := length_hex_le (by omega)
  have hpos : 0 < (hex g).length := List.length_pos_of_ne_nil (hex_ne_nil g)
  unfold group
  rw [if_pos ⟨hpos, hle⟩, hexNumber_hex]

theorem colon_notMem_hex (g : ℕ) : ':' ∉ hex g := by
  induction g using Nat.strong_induction_on with
  | _ g ih =>
    have hdigit : ∀ d < 16, ':' ≠ d.digitChar := by decide
    unfold hex at ih ⊢
    by_cases hg : g < 16
    · rw [Nat.toDigits_of_lt_base hg, List.mem_singleton]
      exact hdigit g hg
    · rw [Nat.toDigits_of_base_le (by omega) (by omega), List.mem_append, List.mem_singleton]
      exact not_or.mpr ⟨ih (g / 16) (by omega), hdigit _ (by omega)⟩

theorem groups_joined (hne : gs ≠ []) (hlt : ∀ g ∈ gs, g < 2 ^ 16) :
    groups (joined gs) = some gs := by
  have hcolon : ∀ t ∈ gs.map hex, ':' ∉ t := by
    intro t ht
    obtain ⟨g, -, rfl⟩ := List.mem_map.mp ht
    exact colon_notMem_hex g
  unfold groups joined
  rw [List.splitOn_intercalate ':' hcolon (by simpa using hne), List.mapM_map]
  clear hne hcolon
  induction gs with
  | nil => rfl
  | cons g gs ih =>
    rw [List.forall_mem_cons] at hlt
    rw [List.mapM_cons, Function.comp_apply, group_hex hlt.1, ih hlt.2]
    rfl

theorem joined_append_singleton (hne : gs ≠ []) (g : ℕ) :
    joined (gs ++ [g]) = joined gs ++ ':' :: hex g := by
  unfold joined
  induction gs with
  | nil => exact absurd rfl hne
  | cons a gs ih =>
    cases gs with
    | nil => simp
    | cons b gs =>
      have ih := ih (List.cons_ne_nil b gs)
      simp only [List.cons_append, List.map_cons, List.intercalate_cons_cons] at ih ⊢
      rw [ih]
      simp only [List.append_assoc]

theorem joined_ne_nil (hne : gs ≠ []) : joined gs ≠ [] := by
  cases gs with
  | nil => exact absurd rfl hne
  | cons g gs =>
    unfold joined
    cases gs <;> simp [hex_ne_nil, List.intercalate_cons_cons]

theorem side_joined (hlt : ∀ g ∈ gs, g < 2 ^ 16) : side (joined gs) = some gs := by
  by_cases hne : gs = []
  · rw [hne]
    rfl
  · unfold side sidePieces
    rw [if_neg (joined_ne_nil hne)]
    exact groups_joined hne hlt

theorem denotes_joined (hlength : gs.length = 8) (hlt : ∀ g ∈ gs, g < 2 ^ 16) :
    Denotes (joined gs) gs := by
  have hne : gs ≠ [] := by
    rintro rfl
    cases hlength
  exact .full (groups_joined hne hlt) hlength

theorem denotes_compressed {zeros : ℕ} (hzeros : 0 < zeros)
    (hlength : ls.length + zeros + rs.length = 8) (hls : ∀ g ∈ ls, g < 2 ^ 16)
    (hrs : ∀ g ∈ rs, g < 2 ^ 16) :
    Denotes
      (joined ls ++ ':' :: ':' :: joined rs)
      (ls ++ List.replicate zeros 0 ++ rs) := by
  have h := Denotes.compressed (side_joined hls) (side_joined hrs) (by omega)
  rwa [show 8 - (ls.length + rs.length) = zeros by omega] at h

end Ipv6Text
end Civan
