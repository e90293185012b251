import Mathlib.Data.List.DropRight
import Mathlib.Tactic

/-!
# StringUtil: trimming and URL coding

`UrlEncode` and `UrlDecode` copy their argument only when the first character
changes: until then the result is the argument itself, and `ss` is null.  Both
are compared with their plain definitions, one character after the other, and
with each other.

A string is its list of bytes.  `isxdigit` is the one of the C locale, which
rejects the bytes that are negative as `char`.
-/

namespace Civan
namespace StringUtil

section Model

/-- `str.substr(pos, count)`. -/
def substr (str : List UInt8) (pos count : ℕ) : List UInt8 :=
  (str.drop pos).take count

/-- `str.find_first_not_of(delimit)`. -/
def findFirstNotOf (str delimit : List UInt8) : Option ℕ :=
  str.findIdx? fun c => c ∉ delimit

/-- `str.find_last_not_of(delimit)`. -/
def findLastNotOf (str delimit : List UInt8) : Option ℕ :=
  (str.reverse.findIdx? fun c => c ∉ delimit).map fun k => str.length - 1 - k

/-- `StringUtil::Trim`. -/
def trim (str delimit : List UInt8) : List UInt8 :=
  match findFirstNotOf str delimit, findLastNotOf str delimit with
  | some first, some last => substr str first (last - first + 1)
  | _, _ => []

/-- The default delimiters of `Trim`. -/
def whitespace : List UInt8 :=
  [32, 9, 13, 10]

/-- `uri_chars`. -/
def uriChars : List ℕ :=
  [0, 0, 0, 0, 0, 0, 0, 0,   0, 0, 0, 0, 0, 0, 0, 0,
    0, 0, 0, 0, 0, 0, 0, 0,   0, 0, 0, 0, 0, 0, 0, 0,
    0, 0, 0, 0, 0, 0, 0, 0,   0, 0, 0, 0, 0, 1, 1, 0,
    1, 1, 1, 1, 1, 1, 1, 1,   1, 1, 0, 0, 0, 1, 0, 0,
    -- 64
    0, 1, 1, 1, 1, 1, 1, 1,   1, 1, 1, 1, 1, 1, 1, 1,
    1, 1, 1, 1, 1, 1, 1, 1,   1, 1, 1, 0, 0, 0, 0, 1,
    0, 1, 1, 1, 1, 1, 1, 1,   1, 1, 1, 1, 1, 1, 1, 1,
    1, 1, 1, 1, 1, 1, 1, 1,   1, 1, 1, 0, 0, 0, 1, 0] ++
  -- 128
  List.replicate 128 0

/-- `xdigit_chars`. -/
def xdigitChars : List ℕ :=
  [0, 0, 0, 0, 0, 0, 0, 0, 0, 0, 0, 0, 0, 0, 0, 0,
    0, 0, 0, 0, 0, 0, 0, 0, 0, 0, 0, 0, 0, 0, 0, 0,
    0, 0, 0, 0, 0, 0, 0, 0, 0, 0, 0, 0, 0, 0, 0, 0,
    0, 1, 2, 3, 4, 5, 6, 7, 8, 9, 0, 0, 0, 0, 0, 0,
    0, 10, 11, 12, 13, 14, 15, 0, 0, 0, 0, 0, 0, 0, 0, 0,
    0, 0, 0, 0, 0, 0, 0, 0, 0, 0, 0, 0, 0, 0, 0, 0,
    0, 10, 11, 12, 13, 14, 15, 0, 0, 0, 0, 0, 0, 0, 0, 0,
    0, 0, 0, 0, 0, 0, 0, 0, 0, 0, 0, 0, 0, 0, 0, 0] ++
  List.replicate 128 0

/-- `CHAR_IS_UNRESERVED(c)`. -/
def charIsUnreserved (c : UInt8) : Bool :=
  uriChars.getD c.toNat 0 ≠ 0

/-- `hexdigits`. -/
def hexdigits : List UInt8 :=
  [48, 49, 50, 51, 52, 53, 54, 55, 56, 57, 65, 66, 67, 68, 69, 70]

def isxdigit (c : UInt8) : Bool :=
  (48 ≤ c ∧ c ≤ 57) ∨ (65 ≤ c ∧ c ≤ 70) ∨ (97 ≤ c ∧ c ≤ 102)

/-- What `UrlEncode` appends for a character that is not unreserved. -/
def escape (spaceAsPlus : Bool) (c : UInt8) : List UInt8 :=
  if c = 32 ∧ spaceAsPlus = true then
    [43]
  else
    [37, hexdigits.getD (c.toNat >>> 4) 0, hexdigits.getD (c.toNat &&& 0xf) 0]

/-- The loop of `UrlEncode`, with the rest of the string at `c = str + i`. -/
def urlEncodeLoop (str : List UInt8) (spaceAsPlus : Bool) :
    ℕ → List UInt8 → Option (List UInt8) → Option (List UInt8)
  | _, [], ss => ss
  | i, c :: cs, ss =>
    if charIsUnreserved c = false then
      urlEncodeLoop str spaceAsPlus (i + 1) cs
        (some (ss.getD (str.take i) ++ escape spaceAsPlus c))
    else
      urlEncodeLoop str spaceAsPlus (i + 1) cs (ss.map (· ++ [c]))

/-- `StringUtil::UrlEncode`. -/
def urlEncode (str : List UInt8) (spaceAsPlus : Bool) : List UInt8 :=
  (urlEncodeLoop str spaceAsPlus 0 str none).getD str

/-- The byte of `%xy`. -/
def unescape (x y : UInt8) : UInt8 :=
  UInt8.ofNat (xdigitChars.getD x.toNat 0 <<< 4 ||| xdigitChars.getD y.toNat 0)

/-- The loop of `UrlDecode`; an escape takes two more characters. -/
def urlDecodeLoop (str : List UInt8) (spaceAsPlus : Bool) :
    ℕ → List UInt8 → Option (List UInt8) → Option (List UInt8)
  | i, c :: x :: y :: cs, ss =>
    if c = 43 ∧ spaceAsPlus = true then
      urlDecodeLoop str spaceAsPlus (i + 1) (x :: y :: cs) (some (ss.getD (str.take i) ++ [32]))
    else if c = 37 ∧ isxdigit x = true ∧ isxdigit y = true then
      urlDecodeLoop str spaceAsPlus (i + 3) cs (some (ss.getD (str.take i) ++ [unescape x y]))
    else
      urlDecodeLoop str spaceAsPlus (i + 1) (x :: y :: cs) (ss.map (· ++ [c]))
  | i, c :: cs, ss =>
    -- fewer than two characters follow
    if c = 43 ∧ spaceAsPlus = true then
      urlDecodeLoop str spaceAsPlus (i + 1) cs (some (ss.getD (str.take i) ++ [32]))
    else
      urlDecodeLoop str spaceAsPlus (i + 1) cs (ss.map (· ++ [c]))
  | _, [], ss => ss

/-- `StringUtil::UrlDecode`. -/
def urlDecode (str : List UInt8) (spaceAsPlus : Bool) : List UInt8 :=
  (urlDecodeLoop str spaceAsPlus 0 str none).getD str

end Model

section Plain

/-- The value of a hexadecimal digit. -/
def hexValue (c : UInt8) : Option ℕ :=
  if 48 ≤ c ∧ c ≤ 57 then some (c.toNat - 48)
  else if 65 ≤ c ∧ c ≤ 70 then some (c.toNat - 55)
  else if 97 ≤ c ∧ c ≤ 102 then some (c.toNat - 87)
  else none

/-- The byte that three characters stand for, if they are an escape. -/
def escapedByte (c x y : UInt8) : Option UInt8 :=
  if c = 37 then
    match hexValue x, hexValue y with
    | some a, some b => some (UInt8.ofNat (16 * a + b))
    | _, _ => none
  else
    none

def plainByte (spaceAsPlus : Bool) (c : UInt8) : UInt8 :=
  if c = 43 ∧ spaceAsPlus = true then 32 else c

/-- The meaning of a coded string, from left to right. -/
def plainDecode (spaceAsPlus : Bool) : List UInt8 → List UInt8
  | c :: x :: y :: cs =>
    match escapedByte c x y with
    | some v => v :: plainDecode spaceAsPlus cs
    | none => plainByte spaceAsPlus c :: plainDecode spaceAsPlus (x :: y :: cs)
  | c :: cs => plainByte spaceAsPlus c :: plainDecode spaceAsPlus cs
  | [] => []

/-- The code of one character. -/
def encodeByte (spaceAsPlus : Bool) (c : UInt8) : List UInt8 :=
  if charIsUnreserved c = true then [c] else escape spaceAsPlus c

end Plain

section Digits

theorem forall_byte {P : UInt8 → Prop} (h : ∀ n < 256, P (UInt8.ofNat n)) (c : UInt8) :
    P c := by
  have hc := h c.toNat c.toNat_lt
  rw [UInt8.ofNat_toNat] at hc
  exact hc

/-- The table and `isxdigit` agree with the values of the digits. -/
theorem hexValue_eq (c : UInt8) :
    hexValue c = if isxdigit c = true then some (xdigitChars.getD c.toNat 0) else none :=
  forall_byte (P := fun c => hexValue c =
    if isxdigit c = true then some (xdigitChars.getD c.toNat 0) else none) (by decide +kernel) c

theorem isxdigit_hexdigits {n : ℕ} (hn : n < 16) :
    isxdigit (hexdigits.getD n 0) = true ∧ xdigitChars.getD (hexdigits.getD n 0).toNat 0 = n := by
  revert n
  decide

theorem charIsUnreserved_hexdigits {n : ℕ} (hn : n < 16) :
    charIsUnreserved (hexdigits.getD n 0) = true := by
  revert n
  decide

theorem hexdigit_halves (c : UInt8) :
    c.toNat >>> 4 < 16 ∧ c.toNat &&& 0xf < 16 ∧
      16 * (c.toNat >>> 4) + (c.toNat &&& 0xf) = c.toNat := by
  have hc := c.toNat_lt
  have hmask : c.toNat &&& 0xf = c.toNat % 16 := Nat.and_two_pow_sub_one_eq_mod _ 4
  rw [Nat.shiftRight_eq_div_pow, hmask]
  omega

/-- Putting two digits together, with the table and with their values. -/
theorem unescape_eq {x y : UInt8} {a b : ℕ}
    (hx : hexValue x = some a) (hy : hexValue y = some b) :
    unescape x y = UInt8.ofNat (16 * a + b) := by
  have hsmall : ∀ n < 256, xdigitChars.getD n 0 < 2 ^ 4 := by decide +kernel
  rw [hexValue_eq] at hx hy
  by_cases hdx : isxdigit x = true
  · by_cases hdy : isxdigit y = true
    · rw [if_pos hdx, Option.some.injEq] at hx
      rw [if_pos hdy, Option.some.injEq] at hy
      rw [unescape, ← Nat.shiftLeft_add_eq_or_of_lt (hsmall _ y.toNat_lt), hx, hy,
        Nat.shiftLeft_eq, Nat.mul_comm]
    · rw [if_neg hdy] at hy
      cases hy
  · rw [if_neg hdx] at hx
    cases hx

/-- The escape test of the loop and the one of the definition. -/
theorem escapedByte_of_digits
    {c x y : UInt8} (hc : c = 37) (hx : isxdigit x = true) (hy : isxdigit y = true) :
    escapedByte c x y = some (unescape x y) := by
  have hvx := hexValue_eq x
  have hvy := hexValue_eq y
  rw [if_pos hx] at hvx
  rw [if_pos hy] at hvy
  rw [escapedByte, if_pos hc, hvx, hvy, unescape_eq hvx hvy]

theorem escapedByte_of_not
    {c x y : UInt8} (h : ¬ (c = 37 ∧ isxdigit x = true ∧ isxdigit y = true)) :
    escapedByte c x y = none := by
  rw [escapedByte]
  by_cases hc : c = 37
  · rw [if_pos hc, hexValue_eq, hexValue_eq]
    by_cases hx : isxdigit x = true
    · have hy : ¬ isxdigit y = true := fun hy => h ⟨hc, hx, hy⟩
      rw [if_pos hx, if_neg hy]
    · rw [if_neg hx]
  · rw [if_neg hc]

end Digits

section LazyCopy

variable {str cs : List UInt8} {c : UInt8} {i : ℕ}

theorem take_succ_of_rest (hrest : str.drop i = c :: cs) :
    str.take (i + 1) = str.take i ++ [c] := by
  have hget : str[i]? = some c := by rw [← List.head?_drop, hrest, List.head?_cons]
  rw [List.take_add_one, hget, Option.toList_some]

theorem drop_succ_of_rest (hrest : str.drop i = c :: cs) : str.drop (i + 1) = cs := by
  rw [← List.drop_drop, hrest, List.drop_one, List.tail_cons]

theorem getD_map_append (ss : Option (List UInt8)) (hrest : str.drop i = c :: cs) :
    (ss.map (· ++ [c])).getD (str.take (i + 1)) = ss.getD (str.take i) ++ [c] := by
  cases ss with
  | none => exact take_succ_of_rest hrest
  | some buf => rfl

theorem getD_at_end (ss : Option (List UInt8)) (hrest : str.drop i = []) :
    ss.getD str = ss.getD (str.take i) := by
  rw [List.take_of_length_le (List.drop_eq_nil_iff.mp hrest)]

end LazyCopy

section Coding

variable {str cs : List UInt8} {i : ℕ}

theorem urlEncodeLoop_getD (spaceAsPlus : Bool) (ss : Option (List UInt8))
    (hrest : str.drop i = cs) :
    (urlEncodeLoop str spaceAsPlus i cs ss).getD str =
      ss.getD (str.take i) ++ cs.flatMap (encodeByte spaceAsPlus) := by
  induction cs generalizing i ss with
  | nil =>
    rw [urlEncodeLoop, List.flatMap_nil, List.append_nil]
    exact getD_at_end ss hrest
  | cons c cs ih =>
    have hnext := drop_succ_of_rest hrest
    rw [urlEncodeLoop, List.flatMap_cons, encodeByte]
    cases hc : charIsUnreserved c with
    | true =>
      rw [if_neg (by simp), if_pos rfl, ih _ hnext, getD_map_append ss hrest,
        List.append_assoc]
    | false =>
      rw [if_pos rfl, if_neg (by simp), ih _ hnext, Option.getD_some, List.append_assoc]

/-- `UrlEncode` codes one character after the other. -/
theorem urlEncode_eq (str : List UInt8) (spaceAsPlus : Bool) :
    urlEncode str spaceAsPlus = str.flatMap (encodeByte spaceAsPlus) :=
  urlEncodeLoop_getD spaceAsPlus none List.drop_zero

theorem urlDecodeLoop_getD (spaceAsPlus : Bool) (ss : Option (List UInt8))
    (hrest : str.drop i = cs) :
    (urlDecodeLoop str spaceAsPlus i cs ss).getD str =
      ss.getD (str.take i) ++ plainDecode spaceAsPlus cs := by
  fun_induction urlDecodeLoop str spaceAsPlus i cs ss with
  | case1 i c x y cs ss hplus ih =>
    have hnot : ¬ (c = 37 ∧ isxdigit x = true ∧ isxdigit y = true) := by
      rw [hplus.1]
      simp
    rw [ih (drop_succ_of_rest hrest), plainDecode, escapedByte_of_not hnot]
    simp [plainByte, hplus]
  | case2 i c x y cs ss hplus hescape ih =>
    obtain ⟨hc, hx, hy⟩ := hescape
    have hthird := drop_succ_of_rest (drop_succ_of_rest (drop_succ_of_rest hrest))
    rw [ih hthird, plainDecode, escapedByte_of_digits hc hx hy]
    simp
  | case3 i c x y cs ss hplus hescape ih =>
    rw [ih (drop_succ_of_rest hrest), plainDecode, escapedByte_of_not hescape,
      getD_map_append ss hrest]
    simp [plainByte, hplus]
  | case4 i c cs ss hshort hplus ih =>
    rw [ih (drop_succ_of_rest hrest), plainDecode]
    · simp [plainByte, hplus]
    · exact hshort
  | case5 i c cs ss hshort hplus ih =>
    rw [ih (drop_succ_of_rest hrest), plainDecode, getD_map_append ss hrest]
    · simp [plainByte, hplus]
    · exact hshort
  | case6 i ss =>
    rw [plainDecode, List.append_nil]
    exact getD_at_end ss hrest

theorem urlDecode_eq (str : List UInt8) (spaceAsPlus : Bool) :
    urlDecode str spaceAsPlus = plainDecode spaceAsPlus str :=
  urlDecodeLoop_getD spaceAsPlus none List.drop_zero

/-- A character that does not start an escape stands for itself or for a space. -/
theorem plainDecode_cons (spaceAsPlus : Bool) {c : UInt8} (hc : c ≠ 37) (cs : List UInt8) :
    plainDecode spaceAsPlus (c :: cs) =
      plainByte spaceAsPlus c :: plainDecode spaceAsPlus cs := by
  match cs with
  | [] => rfl
  | [_] => rfl
  | x :: y :: cs =>
    have hnone : escapedByte c x y = none := by rw [escapedByte, if_neg hc]
    rw [plainDecode, hnone]

/-- The code of a character is read back as the character. -/
theorem plainDecode_encodeByte {e d : Bool} (hed : e = true → d = true)
    (c : UInt8) (rest : List UInt8) :
    plainDecode d (encodeByte e c ++ rest) = c :: plainDecode d rest := by
  rw [encodeByte]
  by_cases hc : charIsUnreserved c = true
  · -- neither `%` nor `+` is unreserved
    have hpercent : c ≠ 37 := by
      rintro rfl
      cases hc
    have hplus : c ≠ 43 := by
      rintro rfl
      cases hc
    rw [if_pos hc, List.singleton_append, plainDecode_cons d hpercent, plainByte,
      if_neg fun h => hplus h.1]
  · rw [if_neg hc, escape]
    by_cases hspace : c = 32 ∧ e = true
    · rw [if_pos hspace, List.singleton_append, plainDecode_cons d (by decide), plainByte,
        if_pos ⟨rfl, hed hspace.2⟩, hspace.1]
    · obtain ⟨hhigh, hlow, hsum⟩ := hexdigit_halves c
      obtain ⟨hdigit₁, hvalue₁⟩ := isxdigit_hexdigits hhigh
      obtain ⟨hdigit₂, hvalue₂⟩ := isxdigit_hexdigits hlow
      have hx := hexValue_eq (hexdigits.getD (c.toNat >>> 4) 0)
      have hy := hexValue_eq (hexdigits.getD (c.toNat &&& 0xf) 0)
      rw [if_pos hdigit₁, hvalue₁] at hx
      rw [if_pos hdigit₂, hvalue₂] at hy
      rw [if_neg hspace, List.cons_append, List.cons_append, List.singleton_append, plainDecode,
        escapedByte_of_digits rfl hdigit₁ hdigit₂, unescape_eq hx hy, hsum, UInt8.ofNat_toNat]

/-- Codes are made of unreserved characters, `+` and `%`. -/
theorem charIsUnreserved_of_mem_encodeByte {spaceAsPlus : Bool} {c x : UInt8}
    (hx : x ∈ encodeByte spaceAsPlus c) :
    charIsUnreserved x = true ∨ x = 43 ∨ x = 37 := by
  rw [encodeByte] at hx
  by_cases hc : charIsUnreserved c = true
  · rw [if_pos hc, List.mem_singleton] at hx
    exact Or.inl (hx ▸ hc)
  · rw [if_neg hc, escape] at hx
    by_cases hspace : c = 32 ∧ spaceAsPlus = true
    · rw [if_pos hspace, List.mem_singleton] at hx
      exact Or.inr (Or.inl hx)
    · obtain ⟨hhigh, hlow, _⟩ := hexdigit_halves c
      rw [if_neg hspace, List.mem_cons, List.mem_cons, List.mem_singleton] at hx
      rcases hx with hpercent | hdigit | hdigit
      · exact Or.inr (Or.inr hpercent)
      · rw [hdigit]
        exact Or.inl (charIsUnreserved_hexdigits hhigh)
      · rw [hdigit]
        exact Or.inl (charIsUnreserved_hexdigits hlow)

theorem plainDecode_flatMap {e d : Bool} (hed : e = true → d = true) (str : List UInt8) :
    plainDecode d (str.flatMap (encodeByte e)) = str := by
  induction str with
  | nil => rfl
  | cons c str ih => rw [List.flatMap_cons, plainDecode_encodeByte hed, ih]

end Coding

/--
**URL coding.**  What `UrlEncode` makes of a string is decoded to that string, unless
spaces were coded as `+` and `+` is not decoded to a space; and `UrlDecode` has the plain
meaning on every string, well-formed or not.
-/
theorem urlDecode_urlEncode (str : List UInt8) {e d : Bool} (hed : e = true → d = true)
    (coded : List UInt8) (spaceAsPlus : Bool) :
    urlDecode (urlEncode str e) d = str ∧
      urlDecode coded spaceAsPlus = plainDecode spaceAsPlus coded := by
  refine ⟨?_, urlDecode_eq coded spaceAsPlus⟩
  rw [urlEncode_eq, urlDecode_eq, plainDecode_flatMap hed]

/-- A string with every special character, and one with a truncated escape. -/
theorem urlDecode_urlEncode_special :
    (true = true → true = true) ∧
      urlDecode (urlEncode [37, 43, 32, 61, 38, 0, 255] true) true =
        [37, 43, 32, 61, 38, 0, 255] ∧
      urlDecode [37, 52, 49, 37, 52] true = plainDecode true [37, 52, 49, 37, 52] :=
  ⟨id, urlDecode_urlEncode [37, 43, 32, 61, 38, 0, 255] id [37, 52, 49, 37, 52] true⟩

section Trimming

variable {str delimit : List UInt8}

theorem trim_eq (str delimit : List UInt8) :
    trim str delimit =
      List.rdropWhile (fun c => decide (c ∈ delimit))
        (List.dropWhile (fun c => decide (c ∈ delimit)) str) := by
  have hnot : (fun c => decide (c ∉ delimit)) = fun c => !decide (c ∈ delimit) :=
    funext fun c => decide_not
  rw [trim, findFirstNotOf, findLastNotOf, hnot, List.rdropWhile]
  cases hfirst : str.findIdx? fun c => !decide (c ∈ delimit) with
  | none =>
    have hall := List.findIdx?_eq_none_iff.mp hfirst
    have hdrop : List.dropWhile (fun c => decide (c ∈ delimit)) str = [] := by
      rw [List.dropWhile_eq_nil_iff]
      intro c hc
      simpa using hall c hc
    rw [hdrop]
    rfl
  | some first =>
    obtain ⟨hlt, hidx⟩ := List.findIdx?_eq_some_iff_findIdx_eq.mp hfirst
    have hhead : ∃ c ∈ (str.drop first).reverse, (!decide (c ∈ delimit)) = true := by
      subst hidx
      refine ⟨_, ?_, List.findIdx_getElem (w := hlt)⟩
      rw [List.mem_reverse, List.drop_eq_getElem_cons hlt]
      exact List.mem_cons_self
    -- the last such character lies behind the first
    have hlast := List.findIdx_lt_length.mpr hhead
    have hreverse : (str.drop first).reverse = str.reverse.take (str.length - first) :=
      List.reverse_drop
    rw [List.length_reverse, List.length_drop] at hlast
    set k := (str.drop first).reverse.findIdx fun c => !decide (c ∈ delimit) with hk
    have hk' : str.reverse.findIdx (fun c => !decide (c ∈ delimit)) = k := by
      rw [hreverse, List.findIdx_take] at hk
      omega
    have hsome : str.reverse.findIdx? (fun c => !decide (c ∈ delimit)) = some k := by
      rw [List.findIdx?_eq_some_iff_findIdx_eq, List.length_reverse]
      exact ⟨by omega, hk'⟩
    have hfront : str.dropWhile (fun c => decide (c ∈ delimit)) = str.drop first := by
      rw [List.dropWhile_eq_drop_findIdx_not, hidx]
    rw [hsome, hfront, List.dropWhile_eq_drop_findIdx_not, ← hk, List.drop_reverse,
      List.reverse_reverse, List.length_drop]
    simp only [Option.map_some, substr]
    congr 1
    omega

theorem mem_of_mem_trim {c : UInt8} (hc : c ∈ trim str delimit) : c ∈ str := by
  rw [trim_eq] at hc
  have hfront := List.rdropWhile_prefix (fun c => decide (c ∈ delimit))
    (str.dropWhile fun c => decide (c ∈ delimit))
  exact (List.dropWhile_suffix _).subset (hfront.subset hc)

theorem mem_dropWhile {c : UInt8} (hc : c ∈ str) (hdelimit : c ∉ delimit) :
    c ∈ str.dropWhile fun c => decide (c ∈ delimit) := by
  rw [← List.takeWhile_append_dropWhile (p := fun c => decide (c ∈ delimit)) (l := str)] at hc
  rcases List.mem_append.mp hc with hfront | hrest
  · have hin := List.mem_takeWhile_imp hfront
    exact absurd (of_decide_eq_true hin) hdelimit
  · exact hrest

theorem mem_trim {c : UInt8} (hc : c ∈ str) (hdelimit : c ∉ delimit) :
    c ∈ trim str delimit := by
  rw [trim_eq, List.rdropWhile, List.mem_reverse]
  exact mem_dropWhile (List.mem_reverse.mpr (mem_dropWhile hc hdelimit)) hdelimit

end Trimming

end StringUtil
end Civan
