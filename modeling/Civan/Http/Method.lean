import Mathlib.Data.List.TakeWhile
import Civan.Http.Request

/-!
# The two method parsers

`StringToHttpMethod` compares a whole string with each method name,
`CharsToHttpMethod` compares the characters at a pointer with a name up to the
length of the name.  No method name is a prefix of another one, so the table order
does not matter; but a token that goes on behind a name is taken for that name.
-/

namespace Civan
namespace Http

open MachineInt

section Model

/-- `StringToHttpMethod`: `strcmp` sees the string up to its first NUL. -/
def stringToHttpMethod (m : List UInt8) : HttpMethod :=
  match httpMethodMap.find? fun e => bytesOf e.2 = m.takeWhile (· ≠ 0) with
  | some e => e.1
  | none => .invalidMethod

/-- A method token of the grammar. -/
structure MethodToken (s : List UInt8) : Prop where
  length_pos : 1 ≤ s.length
  length_le : s.length ≤ 20
  chars : ∀ c ∈ s, (65 ≤ c ∧ c ≤ 90) ∨ (48 ≤ c ∧ c ≤ 57)

/-- No name of the table goes on inside the token. -/
def NoNameExtended (s : List UInt8) : Prop :=
  ∀ e ∈ httpMethodMap, bytesOf e.2 <+: s → bytesOf e.2 = s

/-- The callback takes the method and reports no error. -/
def MethodAccepted (d : ParserData) (ptr : List UInt8) (length : ℕ) : Prop :=
  ∃ d', onRequestMethod d ptr length = .ok d' ∧ d'.error = 0

end Model

section Names

theorem space_not_mem_methodName : ∀ e ∈ httpMethodMap, (32 : UInt8) ∉ bytesOf e.2 := by
  decide

/-- No name is a prefix of another. -/
theorem methodName_prefixFree :
    ∀ e ∈ httpMethodMap, ∀ f ∈ httpMethodMap, bytesOf e.2 <+: bytesOf f.2 →
      bytesOf e.2 = bytesOf f.2 := by
  decide +kernel

theorem method_ne_invalid : ∀ e ∈ httpMethodMap, e.1 ≠ .invalidMethod := by
  decide

/-- A name without the byte `c` is matched before that byte or not at all. -/
theorem prefix_stop_iff {c : UInt8} {name : List UInt8} (hc : c ∉ name)
    (bytes rest : List UInt8) :
    name <+: bytes ++ c :: rest ↔ name <+: bytes := by
  constructor
  · intro h
    by_cases hle : name.length ≤ bytes.length
    · exact List.prefix_of_prefix_length_le h (List.prefix_append _ _) hle
    · -- the name would reach over the byte
      have hstop : bytes ++ [c] <+: bytes ++ c :: rest := by
        rw [List.prefix_append_right_inj]
        exact ⟨rest, rfl⟩
      have hover : bytes ++ [c] <+: name := by
        apply List.prefix_of_prefix_length_le hstop h
        rw [List.length_append, List.length_singleton]
        omega
      exact absurd (hover.subset (by simp)) hc
  · intro h
    exact h.trans (List.prefix_append _ _)

/-- The characters behind a space do not matter. -/
theorem charsToHttpMethod_stop (bytes rest : List UInt8) :
    charsToHttpMethod (bytes ++ 32 :: rest) = charsToHttpMethod bytes := by
  have hfind :
      httpMethodMap.find? (fun e => (bytesOf e.2).isPrefixOf (bytes ++ 32 :: rest)) =
        httpMethodMap.find? (fun e => (bytesOf e.2).isPrefixOf bytes) := by
    apply List.find?_congr
    intro e he
    rw [Bool.eq_iff_iff, List.isPrefixOf_iff_prefix, List.isPrefixOf_iff_prefix]
    exact prefix_stop_iff (space_not_mem_methodName e he) bytes rest
  rw [charsToHttpMethod, charsToHttpMethod, hfind]

end Names

section Parsers

variable {s : List UInt8}

/-- The method of the first entry that passes a test. -/
def firstMethod (p : HttpMethod × String → Bool) : HttpMethod :=
  (httpMethodMap.find? p).elim .invalidMethod Prod.fst

theorem firstMethod_eq_invalid_iff (p : HttpMethod × String → Bool) :
    firstMethod p = .invalidMethod ↔ ∀ e ∈ httpMethodMap, p e = false := by
  rw [firstMethod]
  cases hfind : httpMethodMap.find? p with
  | none => simpa using hfind
  | some e =>
    have hmem := List.mem_of_find?_eq_some hfind
    refine iff_of_false (method_ne_invalid e hmem) fun hall => ?_
    have hp := List.find?_some hfind
    rw [hall e hmem] at hp
    cases hp

theorem charsToHttpMethod_eq_firstMethod (m : List UInt8) :
    charsToHttpMethod m = firstMethod fun e => (bytesOf e.2).isPrefixOf m := by
  rw [charsToHttpMethod, firstMethod]
  cases httpMethodMap.find? fun e => (bytesOf e.2).isPrefixOf m <;> rfl

theorem stringToHttpMethod_eq_firstMethod (m : List UInt8) :
    stringToHttpMethod m = firstMethod fun e => bytesOf e.2 = m.takeWhile (· ≠ 0) := by
  rw [stringToHttpMethod, firstMethod]
  cases httpMethodMap.find? fun e => bytesOf e.2 = m.takeWhile (· ≠ 0) <;> rfl

theorem charsToHttpMethod_eq_invalid_iff :
    charsToHttpMethod s = .invalidMethod ↔ ∀ e ∈ httpMethodMap, ¬ bytesOf e.2 <+: s := by
  rw [charsToHttpMethod_eq_firstMethod, firstMethod_eq_invalid_iff]
  simp only [← Bool.not_eq_true, List.isPrefixOf_iff_prefix]

theorem MethodToken.takeWhile_eq (hs : MethodToken s) : s.takeWhile (· ≠ 0) = s := by
  rw [List.takeWhile_eq_self_iff]
  intro c hc
  rw [decide_eq_true_iff]
  rintro rfl
  exact absurd (hs.chars 0 hc) (by decide)

theorem stringToHttpMethod_eq_invalid_iff (hs : MethodToken s) :
    stringToHttpMethod s = .invalidMethod ↔ ∀ e ∈ httpMethodMap, bytesOf e.2 ≠ s := by
  rw [stringToHttpMethod_eq_firstMethod, firstMethod_eq_invalid_iff, hs.takeWhile_eq]
  simp only [decide_eq_false_iff_not, ne_eq]

/-- Where no name goes on, both parsers test for equality. -/
theorem charsToHttpMethod_eq (hs : MethodToken s) (hnone : NoNameExtended s) :
    charsToHttpMethod s = stringToHttpMethod s := by
  have hfind :
      httpMethodMap.find? (fun e => (bytesOf e.2).isPrefixOf s) =
        httpMethodMap.find? (fun e => bytesOf e.2 = s.takeWhile (· ≠ 0)) := by
    apply List.find?_congr
    intro e he
    rw [hs.takeWhile_eq, Bool.eq_iff_iff, List.isPrefixOf_iff_prefix, decide_eq_true_iff]
    constructor
    · exact hnone e he
    · intro heq
      rw [heq]
  rw [charsToHttpMethod_eq_firstMethod, stringToHttpMethod_eq_firstMethod, firstMethod,
    firstMethod, hfind]

/-- A token that goes on behind a name is accepted by the prefix parser only. -/
theorem extended_parsers (hs : MethodToken s) (hext : ¬ NoNameExtended s) :
    charsToHttpMethod s ≠ .invalidMethod ∧ stringToHttpMethod s = .invalidMethod := by
  simp only [NoNameExtended, not_forall] at hext
  obtain ⟨e, he, hpre, hne⟩ := hext
  constructor
  · intro hinvalid
    exact charsToHttpMethod_eq_invalid_iff.mp hinvalid e he hpre
  · rw [stringToHttpMethod_eq_invalid_iff hs]
    intro f hf heq
    rw [← heq] at hpre hne
    exact hne (methodName_prefixFree e he f hf hpre)

theorem methodAccepted_iff (hs : MethodToken s) (rest : List UInt8)
    {d : ParserData} (hd : d.error = 0) :
    MethodAccepted d (s ++ 32 :: rest) s.length ↔ charsToHttpMethod s ≠ .invalidMethod := by
  have hlen := hs.length_le
  have hstring : newString (s ++ 32 :: rest) s.length = .ok s := by
    rw [newString, if_neg (by unfold stringMaxSize; omega), List.take_left]
  simp only [MethodAccepted, onRequestMethod, charsToHttpMethod_stop, hstring]
  by_cases hm : charsToHttpMethod s = .invalidMethod
  · simp [hm]
  · simp [hm, hd]

end Parsers

/--
**Method parsers.**  On a token followed by a space the two parsers agree, and the
callback accepts exactly the names of the table, if and only if no name of the table
goes on inside the token.
-/
theorem method_parsers_agree_iff {s : List UInt8} (hs : MethodToken s) (rest : List UInt8)
    {d : ParserData} (hd : d.error = 0) :
    (charsToHttpMethod (s ++ 32 :: rest) = stringToHttpMethod s ↔ NoNameExtended s) ∧
    ((MethodAccepted d (s ++ 32 :: rest) s.length ↔ ∃ e ∈ httpMethodMap, bytesOf e.2 = s) ↔
      NoNameExtended s) := by
  have hname : (∃ e ∈ httpMethodMap, bytesOf e.2 = s) ↔
      stringToHttpMethod s ≠ .invalidMethod := by
    rw [Ne, stringToHttpMethod_eq_invalid_iff hs]
    simp
  rw [charsToHttpMethod_stop, methodAccepted_iff hs rest hd, hname]
  by_cases hext : NoNameExtended s
  · rw [charsToHttpMethod_eq hs hext]
    simp [hext]
  · obtain ⟨hchars, hstring⟩ := extended_parsers hs hext
    rw [hstring]
    simp [hext, hchars]

/-- `SEARCH`, which is also the end of `M-SEARCH`. -/
theorem method_parsers_agree_search :
    (charsToHttpMethod (bytesOf "SEARCH" ++ 32 :: bytesOf "/ HTTP/1.1") =
      stringToHttpMethod (bytesOf "SEARCH") ↔ NoNameExtended (bytesOf "SEARCH")) ∧
    ((MethodAccepted ⟨HttpRequest.new 0x11 true, 0⟩
        (bytesOf "SEARCH" ++ 32 :: bytesOf "/ HTTP/1.1") (bytesOf "SEARCH").length ↔
      ∃ e ∈ httpMethodMap, bytesOf e.2 = bytesOf "SEARCH") ↔ NoNameExtended (bytesOf "SEARCH")) :=
  method_parsers_agree_iff ⟨by decide, by decide, by simp [bytesOf]⟩ (bytesOf "/ HTTP/1.1") rfl

/-- A token that starts with `GET` is accepted as `GET`. -/
theorem extended_method_accepted :
    charsToHttpMethod (bytesOf "GETX" ++ 32 :: bytesOf "/ HTTP/1.1") = .get ∧
      stringToHttpMethod (bytesOf "GETX") = .invalidMethod := by
  decide

end Http
end Civan
