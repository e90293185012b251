import Civan.Util.StringUtil

/-!
# StringUtil: the three trimming functions compared

`Trim` and `TrimLeft` cut exactly the delimiters off.  `TrimRight` takes the
index of the last character to keep for the length of the result, so it cuts that
character off as well.

The functions are compared by the number of characters that are not delimiters:
`Trim` and `TrimLeft` keep all of them, `TrimRight` loses one.
-/

namespace Civan
namespace StringUtil

section Model

/-- `StringUtil::TrimLeft`. -/
def trimLeft (str delimit : List UInt8) : List UInt8 :=
  match findFirstNotOf str delimit with
  | some first => str.drop first
  | none => []

/-- `StringUtil::TrimRight`. -/
def trimRight (str delimit : List UInt8) : List UInt8 :=
  match findLastNotOf str delimit with
  | some last => substr str 0 last
  | none => []

end Model

section Purpose

variable (delimit : List UInt8)

/-- Nothing but delimiters. -/
def Blank (str : List UInt8) : Prop :=
  ∀ c ∈ str, c ∈ delimit

/-- Empty, or the last character is not a delimiter. -/
def EndsClean (str : List UInt8) : Prop :=
  ∀ c ∈ str.getLast?, c ∉ delimit

/-- The longest prefix with a clean end. -/
structure LongestCleanPrefix (str r : List UInt8) : Prop where
  isPrefix : r <+: str
  clean : EndsClean delimit r
  longest : ∀ p, p <+: str → EndsClean delimit p → p.length ≤ r.length

end Purpose

section Cutting

variable {str delimit : List UInt8}

theorem trimLeft_eq (str delimit : List UInt8) :
    trimLeft str delimit = str.dropWhile fun c => decide (c ∈ delimit) := by
  have hnot : (fun c => decide (c ∉ delimit)) = fun c => !decide (c ∈ delimit) :=
    funext fun c => decide_not
  rw [trimLeft, findFirstNotOf, hnot, List.dropWhile_eq_drop_findIdx_not]
  cases hfirst : str.findIdx? fun c => !decide (c ∈ delimit) with
  | none =>
    have hall := List.findIdx?_eq_none_iff.mp hfirst
    rw [List.findIdx_eq_length_of_false hall, List.drop_length]
  | some first => rw [(List.findIdx?_eq_some_iff_findIdx_eq.mp hfirst).2]

/-- `TrimRight` looks at the last character first. -/
theorem trimRight_concat (str delimit : List UInt8) (c : UInt8) :
    trimRight (str ++ [c]) delimit = if c ∈ delimit then trimRight str delimit else str := by
  rw [trimRight, findLastNotOf, List.reverse_append, List.reverse_singleton,
    List.singleton_append, List.findIdx?_cons, List.length_append, List.length_singleton]
  by_cases hc : c ∈ delimit
  · rw [if_neg (by simpa using hc), if_pos hc, trimRight, findLastNotOf]
    cases hk : str.reverse.findIdx? fun c => decide (c ∉ delimit) with
    | none => rfl
    | some k =>
      have hlt := (List.findIdx?_eq_some_iff_findIdx_eq.mp hk).1
      rw [List.length_reverse] at hlt
      have hend : str.length + 1 - 1 - (k + 1) = str.length - 1 - k := by omega
      simp only [Option.map_some, substr, List.drop_zero, hend]
      exact List.take_append_of_le_length (by omega)
  · rw [if_pos (by simpa using hc), if_neg hc]
    simp [substr]

/-- `TrimRight` cuts the delimiters off, and one more character. -/
theorem trimRight_eq (str delimit : List UInt8) :
    trimRight str delimit = (str.rdropWhile fun c => decide (c ∈ delimit)).dropLast := by
  induction str using List.reverseRecOn with
  | nil => rfl
  | append_singleton str c ih =>
    rw [trimRight_concat]
    by_cases hc : c ∈ delimit
    · rw [if_pos hc, ih, List.rdropWhile_concat_pos _ _ _ (by simpa using hc)]
    · rw [if_neg hc, List.rdropWhile_concat_neg _ _ _ (by simpa using hc), List.dropLast_concat]

end Cutting

section Counting

variable {str delimit : List UInt8}

/-- The number of characters that are not delimiters. -/
def kept (delimit str : List UInt8) : ℕ :=
  str.countP fun c => !decide (c ∈ delimit)

theorem kept_eq_zero_iff : kept delimit str = 0 ↔ Blank delimit str := by
  rw [kept, List.countP_eq_zero]
  simp [Blank]

theorem kept_append (delimit a b : List UInt8) :
    kept delimit (a ++ b) = kept delimit a + kept delimit b :=
  List.countP_append

theorem kept_takeWhile (l : List UInt8) :
    kept delimit (l.takeWhile fun c => decide (c ∈ delimit)) = 0 := by
  rw [kept_eq_zero_iff]
  intro c hc
  have htest := List.mem_takeWhile_imp hc
  exact of_decide_eq_true htest

theorem kept_dropWhile (delimit l : List UInt8) :
    kept delimit (l.dropWhile fun c => decide (c ∈ delimit)) = kept delimit l := by
  have hsplit := List.takeWhile_append_dropWhile (p := fun c => decide (c ∈ delimit)) (l := l)
  have happend := kept_append delimit (l.takeWhile fun c => decide (c ∈ delimit))
    (l.dropWhile fun c => decide (c ∈ delimit))
  rw [hsplit, kept_takeWhile, Nat.zero_add] at happend
  exact happend.symm

theorem kept_rdropWhile (l : List UInt8) :
    kept delimit (l.rdropWhile fun c => decide (c ∈ delimit)) = kept delimit l := by
  have hreverse := kept_dropWhile delimit l.reverse
  rw [kept, kept, List.countP_reverse] at hreverse
  rw [List.rdropWhile, kept, List.countP_reverse]
  exact hreverse

/-- What is left without its last character has one character less that counts. -/
theorem kept_dropLast (h : EndsClean delimit str) :
    kept delimit str.dropLast = kept delimit str - 1 := by
  cases str using List.reverseRecOn with
  | nil => rfl
  | append_singleton str c =>
    have hc : c ∉ delimit := h c (by simp)
    have hone : kept delimit [c] = 1 := by simp [kept, hc]
    rw [List.dropLast_concat, kept_append, hone, Nat.add_sub_cancel]

theorem endsClean_rdropWhile (l : List UInt8) :
    EndsClean delimit (l.rdropWhile fun c => decide (c ∈ delimit)) := by
  intro c hc
  have hne : (l.rdropWhile fun c => decide (c ∈ delimit)) ≠ [] := by
    rintro hnil
    rw [hnil] at hc
    cases hc
  have hlast := List.rdropWhile_last_not _ _ hne
  rw [List.getLast?_eq_some_getLast hne] at hc
  cases hc
  simpa using hlast

theorem kept_trim : kept delimit (trim str delimit) = kept delimit str := by
  rw [trim_eq, kept_rdropWhile, kept_dropWhile]

theorem kept_trimLeft : kept delimit (trimLeft str delimit) = kept delimit str := by
  rw [trimLeft_eq, kept_dropWhile]

theorem kept_trimRight : kept delimit (trimRight str delimit) = kept delimit str - 1 := by
  rw [trimRight_eq, kept_dropLast (endsClean_rdropWhile str), kept_rdropWhile]

end Counting

section Comparison

variable {str delimit : List UInt8}

theorem Blank.trim_eq (h : Blank delimit str) : trim str delimit = [] := by
  rw [StringUtil.trim_eq, List.dropWhile_eq_nil_iff.mpr fun c hc => decide_eq_true (h c hc)]
  rfl

theorem Blank.trimLeft_eq (h : Blank delimit str) : trimLeft str delimit = [] := by
  rw [StringUtil.trimLeft_eq, List.dropWhile_eq_nil_iff.mpr fun c hc => decide_eq_true (h c hc)]

theorem Blank.trimRight_eq (h : Blank delimit str) : trimRight str delimit = [] := by
  rw [StringUtil.trimRight_eq, List.rdropWhile_eq_nil_iff.mpr fun c hc => decide_eq_true (h c hc)]
  rfl

theorem blank_of_kept_eq (h : kept delimit str = kept delimit str - 1) : Blank delimit str := by
  rw [← kept_eq_zero_iff]
  omega

theorem trimLeft_idempotent :
    trimLeft (trimLeft str delimit) delimit = trimLeft str delimit := by
  rw [trimLeft_eq str, trimLeft_eq]
  exact List.dropWhile_idempotent _ _

/-- What `Trim` leaves starts where `TrimLeft` starts, so there is nothing to cut. -/
theorem trim_idempotent : trim (trim str delimit) delimit = trim str delimit := by
  have hfront : (trim str delimit).dropWhile (fun c => decide (c ∈ delimit)) =
      trim str delimit := by
    rw [List.dropWhile_eq_self_iff]
    intro hlen
    have hpre := List.rdropWhile_prefix (fun c => decide (c ∈ delimit))
      (str.dropWhile fun c => decide (c ∈ delimit))
    rw [← trim_eq] at hpre
    rw [hpre.getElem hlen]
    exact List.dropWhile_get_zero_not _ _ (Nat.lt_of_lt_of_le hlen hpre.length_le)
  rw [trim_eq (trim str delimit), hfront, trim_eq, List.rdropWhile_idempotent]

theorem trim_eq_right_left_iff :
    trim str delimit = trimRight (trimLeft str delimit) delimit ↔ Blank delimit str := by
  constructor
  · intro heq
    have hkept := congrArg (kept delimit) heq
    rw [kept_trim, kept_trimRight, kept_trimLeft] at hkept
    exact blank_of_kept_eq hkept
  · intro hblank
    rw [hblank.trim_eq, hblank.trimLeft_eq]
    rfl

theorem trim_eq_left_right_iff :
    trim str delimit = trimLeft (trimRight str delimit) delimit ↔ Blank delimit str := by
  constructor
  · intro heq
    have hkept := congrArg (kept delimit) heq
    rw [kept_trim, kept_trimLeft, kept_trimRight] at hkept
    exact blank_of_kept_eq hkept
  · intro hblank
    rw [hblank.trim_eq, hblank.trimRight_eq]
    rfl

/-- `TrimRight` leaves nothing exactly if only the first character may count. -/
theorem trimRight_eq_nil_iff : trimRight str delimit = [] ↔ Blank delimit str.tail := by
  induction str using List.reverseRecOn with
  | nil => simp [trimRight, findLastNotOf, Blank]
  | append_singleton str c ih =>
    rw [trimRight_concat]
    cases str with
    | nil =>
      by_cases hc : c ∈ delimit
      · rw [if_pos hc]
        simp [trimRight, findLastNotOf, Blank]
      · rw [if_neg hc]
        simp [Blank]
    | cons d str =>
      by_cases hc : c ∈ delimit
      · rw [if_pos hc, ih]
        simp [Blank, or_imp, forall_and, hc]
      · rw [if_neg hc]
        simp [Blank, or_imp, forall_and, hc]

theorem trimRight_idempotent_iff :
    trimRight (trimRight str delimit) delimit = trimRight str delimit ↔
      Blank delimit str.tail := by
  rw [← trimRight_eq_nil_iff]
  constructor
  · intro heq
    -- a second call cuts again, unless there is nothing left
    have hkept := congrArg (kept delimit) heq
    rw [kept_trimRight] at hkept
    have hblank := blank_of_kept_eq hkept.symm
    rw [← heq, hblank.trimRight_eq]
  · intro hnil
    rw [hnil]
    rfl

theorem longestCleanPrefix_trimRight_iff :
    LongestCleanPrefix delimit str (trimRight str delimit) ↔ Blank delimit str := by
  constructor
  · intro h
    have hpre := List.rdropWhile_prefix (fun c => decide (c ∈ delimit)) str
    have hlen := h.longest _ hpre (endsClean_rdropWhile str)
    rw [trimRight_eq, List.length_dropLast] at hlen
    have hnil : str.rdropWhile (fun c => decide (c ∈ delimit)) = [] :=
      List.length_eq_zero_iff.mp (by omega)
    intro c hc
    have htest := List.rdropWhile_eq_nil_iff.mp hnil c hc
    exact of_decide_eq_true htest
  · intro hblank
    rw [hblank.trimRight_eq]
    refine ⟨List.nil_prefix, nofun, ?_⟩
    intro p hp hclean
    cases p using List.reverseRecOn with
    | nil => exact Nat.le_refl 0
    | append_singleton p c =>
      have hc : c ∈ str := hp.subset (by simp)
      exact absurd (hblank c hc) (hclean c (by simp))

end Comparison

/--
**Trimming.**  `Trim` and `TrimLeft` are idempotent.  `TrimRight` agrees with `Trim`, in
either order with `TrimLeft`, and is the longest prefix with a clean end, only on strings
of delimiters; it is idempotent only if every character behind the first one is a
delimiter.
-/
theorem trimmers_agree_iff (str delimit : List UInt8) :
    trim (trim str delimit) delimit = trim str delimit ∧
    trimLeft (trimLeft str delimit) delimit = trimLeft str delimit ∧
    (trim str delimit = trimRight (trimLeft str delimit) delimit ↔ Blank delimit str) ∧
    (trim str delimit = trimLeft (trimRight str delimit) delimit ↔ Blank delimit str) ∧
    (trimRight (trimRight str delimit) delimit = trimRight str delimit ↔ Blank delimit str.tail) ∧
    (LongestCleanPrefix delimit str (trimRight str delimit) ↔ Blank delimit str) :=
  ⟨trim_idempotent, trimLeft_idempotent, trim_eq_right_left_iff, trim_eq_left_right_iff,
    trimRight_idempotent_iff, longestCleanPrefix_trimRight_iff⟩

/-- The last letter of a trimmed word is lost, and lost again by a second call. -/
theorem trimRight_loses_last :
    trim [97, 98, 99] whitespace = [97, 98, 99] ∧
    trimRight (trimLeft [97, 98, 99] whitespace) whitespace = [97, 98] ∧
    trimLeft (trimRight [97, 98, 99] whitespace) whitespace = [97, 98] ∧
    trimRight (trimRight [97, 98, 99] whitespace) whitespace = [97] ∧
    ¬ LongestCleanPrefix whitespace [97, 98, 99] (trimRight [97, 98, 99] whitespace) := by
  refine ⟨by decide, by decide, by decide, by decide, ?_⟩
  intro h
  have hclean : EndsClean whitespace [97, 98, 99] := by
    intro c hc
    cases hc
    decide
  have hlen := h.longest [97, 98, 99] (List.prefix_refl _) hclean
  exact absurd hlen (by decide)

end StringUtil
end Civan
