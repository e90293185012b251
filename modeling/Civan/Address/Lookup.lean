import Mathlib.Data.List.TakeWhile
import Mathlib.Tactic

/-!
# Address::Lookup: host and service

`Lookup` splits its argument by two rules that share the variables `node` and
`service`: a name in brackets first, then a single `:`.  A pointer into the string is
its offset.  `getaddrinfo` reads both arguments up to the first NUL.

The second rule sets `service` to the first `:` before it looks for another one and
leaves it there when it finds one, so a bare IPv6 literal is looked up with a service
that no one asked for.
-/

namespace Civan
namespace Address

section Model

/-- `memchr`, as an offset. -/
def memchr (c : Char) (l : List Char) : Option ℕ :=
  l.findIdx? (· = c)

def nul : Char :=
  Char.ofNat 0

/-- What is read through a `const char*`. -/
def cString (l : List Char) : List Char :=
  l.takeWhile (· ≠ nul)

/-- `node` and `service`. -/
abbrev NodeService : Type :=
  List Char × Option ℕ

/-- A name in brackets. -/
def bracketSplit (host : List Char) : NodeService :=
  if host.head? = some '[' then
    match memchr ']' (host.drop 1) with
    | some k =>
      let endipv6 := k + 1
      let service := if host[endipv6 + 1]? = some ':' then some (endipv6 + 2) else none
      ((host.drop 1).take (endipv6 - 1), service)
    | none => ([], none)
  else
    ([], none)

/-- Node and service with one `:` between them.  `service` keeps its offset if there is
another `:`. -/
def colonSplit (host : List Char) : NodeService :=
  match memchr ':' host with
  | some service =>
    match memchr ':' (host.drop (service + 1)) with
    | none => (host.take service, some (service + 1))
    | some _ => ([], some service)
  | none => ([], none)

/-- The two rules, and the whole string if neither finds a node. -/
def lookupSplit (host : List Char) : NodeService :=
  let s := bracketSplit host
  let s := if s.1 = [] then colonSplit host else s
  if s.1 = [] then (host, s.2) else s

/-- The first two arguments of `getaddrinfo`. -/
def lookupArgs (host : List Char) : List Char × Option (List Char) :=
  let s := lookupSplit host
  (cString s.1, s.2.map fun service => cString (host.drop service))

end Model

section Rules

variable {c : Char} {host X H S l rest : List Char}

theorem memchr_append_cons (h : c ∉ l) (rest : List Char) :
    memchr c (l ++ c :: rest) = some l.length := by
  have hnone : l.findIdx? (· = c) = none := by
    rw [List.findIdx?_eq_none_iff]
    intro x hx
    exact decide_eq_false (fun hc => h (hc ▸ hx))
  rw [memchr, List.findIdx?_append, hnone, List.findIdx?_cons]
  simp

theorem memchr_eq_none (h : c ∉ l) : memchr c l = none := by
  rw [memchr, List.findIdx?_eq_none_iff]
  intro x hx
  exact decide_eq_false (fun hc => h (hc ▸ hx))

theorem cString_eq_self_iff : cString l = l ↔ nul ∉ l := by
  rw [cString, List.takeWhile_eq_self_iff]
  constructor
  · intro h hmem
    simpa using h nul hmem
  · rintro h x hx
    exact decide_eq_true (fun hc => h (hc ▸ hx))

/-- The string starts with a name in brackets. -/
def Bracketed (host : List Char) : Prop :=
  ∃ X rest, X ≠ [] ∧ ']' ∉ X ∧ host = '[' :: (X ++ ']' :: rest)

theorem bracketSplit_closed
    (hX : ']' ∉ X)
    (rest : List Char) :
    bracketSplit ('[' :: (X ++ ']' :: rest)) =
      (X, if rest.head? = some ':' then some (X.length + 3) else none) := by
  have hnext : ('[' :: (X ++ ']' :: rest))[X.length + 2]? = rest.head? := by
    rw [List.getElem?_cons_succ, List.getElem?_append_right (Nat.le_succ _),
      Nat.succ_sub (le_refl _), Nat.sub_self, List.getElem?_cons_succ, List.head?_eq_getElem?]
  rw [bracketSplit, if_pos List.head?_cons, List.drop_one, List.tail_cons, memchr_append_cons hX]
  simp only [hnext, Nat.add_sub_cancel, List.take_left']

theorem bracketSplit_fst (h : ¬ Bracketed host) : (bracketSplit host).1 = [] := by
  cases host with
  | nil => rfl
  | cons c l =>
    by_cases hc : c = '['
    · subst hc
      by_cases hmem : ']' ∈ l
      · obtain ⟨X, rest, rfl, hX⟩ := List.eq_append_cons_of_mem hmem
        rw [bracketSplit_closed hX]
        by_contra hne
        exact h ⟨X, rest, hne, hX, rfl⟩
      · rw [bracketSplit, if_pos List.head?_cons, List.drop_one, List.tail_cons,
          memchr_eq_none hmem]
    · rw [bracketSplit, if_neg (by simpa using hc)]

theorem colonSplit_append (hH : ':' ∉ H) (S : List Char) :
    colonSplit (H ++ ':' :: S) =
      if ':' ∈ S then ([], some H.length) else (H, some (H.length + 1)) := by
  have hdrop : (H ++ ':' :: S).drop (H.length + 1) = S := by
    rw [List.drop_append, List.drop_of_length_le (Nat.le_succ _), Nat.add_sub_cancel_left]
    rfl
  rw [colonSplit, memchr_append_cons hH]
  simp only [hdrop]
  split_ifs with hS
  · obtain ⟨a, l, rfl, ha⟩ := List.eq_append_cons_of_mem hS
    rw [memchr_append_cons ha]
  · rw [memchr_eq_none hS]
    simp

theorem colonSplit_eq_none (h : ':' ∉ host) : colonSplit host = ([], none) := by
  rw [colonSplit, memchr_eq_none h]

end Rules

section Arguments

variable {host X H S rest : List Char}

theorem lookupArgs_bracketed (hne : X ≠ [])
    (hX : ']' ∉ X)
    (rest : List Char) :
    lookupArgs ('[' :: (X ++ ']' :: rest)) =
      (cString X, if rest.head? = some ':' then some (cString rest.tail) else none) := by
  have hdrop : ('[' :: (X ++ ']' :: rest)).drop (X.length + 3) = rest.tail := by
    simp [List.drop_append]
  rw [lookupArgs, lookupSplit, bracketSplit_closed hX]
  simp only [hne, if_false]
  split_ifs with hcolon
  · rw [Option.map_some, hdrop]
  · rfl

/-- Without a name in brackets the second rule decides. -/
theorem lookupSplit_of_not_bracketed (h : ¬ Bracketed host) :
    lookupSplit host =
      if (colonSplit host).1 = [] then (host, (colonSplit host).2) else colonSplit host := by
  rw [lookupSplit]
  simp only [bracketSplit_fst h, if_true]

theorem lookupArgs_service (h : ¬ Bracketed (H ++ ':' :: S)) (hne : H ≠ []) (hH : ':' ∉ H)
    (hS : ':' ∉ S) :
    lookupArgs (H ++ ':' :: S) = (cString H, some (cString S)) := by
  have hdrop : (H ++ ':' :: S).drop (H.length + 1) = S := by simp [List.drop_append]
  rw [lookupArgs, lookupSplit_of_not_bracketed h, colonSplit_append hH, if_neg hS]
  simp only [hne, if_false, Option.map_some, hdrop]

theorem lookupArgs_whole (h : ¬ Bracketed host) (hcolon : ':' ∉ host) :
    lookupArgs host = (cString host, none) := by
  rw [lookupArgs, lookupSplit_of_not_bracketed h, colonSplit_eq_none hcolon]
  rfl

/-- With two `:` the service is what stands from the first one on. -/
theorem lookupArgs_colons (h : ¬ Bracketed (H ++ ':' :: S)) (hH : ':' ∉ H) (hS : ':' ∈ S) :
    lookupArgs (H ++ ':' :: S) = (cString (H ++ ':' :: S), some (cString (':' :: S))) := by
  rw [lookupArgs, lookupSplit_of_not_bracketed h, colonSplit_append hH, if_pos hS]
  simp

end Arguments

section Asked

/-- `[X]` and `[X]:S`. -/
def BracketForm (host : List Char) : Prop :=
  ∃ X rest, X ≠ [] ∧ ']' ∉ X ∧ host = '[' :: (X ++ ']' :: rest) ∧
    (rest = [] ∨ rest.head? = some ':')

/-- The node and the service that a host string asks for.  A string in one of the two
forms with brackets is not read as `H:S`. -/
inductive Asked : List Char → List Char → Option (List Char) → Prop
  | bracketService {X S : List Char} (hne : X ≠ []) (hX : ']' ∉ X) :
      Asked ('[' :: (X ++ ']' :: ':' :: S)) X (some S)
  | bracket {X : List Char} (hne : X ≠ []) (hX : ']' ∉ X) :
      Asked ('[' :: (X ++ [']'])) X none
  | service {H S : List Char} (hne : H ≠ []) (hH : ':' ∉ H) (hS : ':' ∉ S)
      (hform : ¬ BracketForm (H ++ ':' :: S)) :
      Asked (H ++ ':' :: S) H (some S)
  | whole {host : List Char} (hhead : host.head? ≠ some '[') (hcount : host.count ':' ≠ 1) :
      Asked host host none

variable {host node X H S rest : List Char} {service : Option (List Char)}

theorem BracketForm.bracketed (h : BracketForm host) : Bracketed host := by
  obtain ⟨X, rest, hne, hX, hhost, -⟩ := h
  exact ⟨X, rest, hne, hX, hhost⟩

theorem not_bracketed_of_head
    (h : host.head? ≠ some '[') :
    ¬ Bracketed host := by
  rintro ⟨X, rest, -, -, rfl⟩
  exact h List.head?_cons

theorem nul_notMem_bracketed : nul ∉ '[' :: (X ++ ']' :: rest) ↔ nul ∉ X ∧ nul ∉ rest := by
  have hopen : nul ≠ '[' := by decide
  have hclose : nul ≠ ']' := by decide
  simp [hopen, hclose]

theorem nul_notMem_colon : nul ∉ H ++ ':' :: S ↔ nul ∉ H ∧ nul ∉ S := by
  have hcolon : nul ≠ ':' := by decide
  simp [hcolon]

/-- `H:S` goes wrong if `H` starts with a name in brackets. -/
theorem lookup_service_iff (hne : H ≠ []) (hH : ':' ∉ H) (hS : ':' ∉ S)
    (hform : ¬ BracketForm (H ++ ':' :: S)) :
    lookupArgs (H ++ ':' :: S) = (H, some S) ↔
      nul ∉ H ++ ':' :: S ∧ ¬ Bracketed (H ++ ':' :: S) := by
  by_cases hbracket : Bracketed (H ++ ':' :: S)
  · -- the name in brackets is taken for the node, and there is no service
    have hnone : (lookupArgs (H ++ ':' :: S)).2 = none := by
      obtain ⟨X, rest, hX, hmem, hhost⟩ := hbracket
      have hrest : rest.head? ≠ some ':' :=
        fun hcolon => hform ⟨X, rest, hX, hmem, hhost, .inr hcolon⟩
      rw [hhost, lookupArgs_bracketed hX hmem, if_neg hrest]
    constructor
    · intro h
      rw [h] at hnone
      cases hnone
    · intro h
      exact absurd hbracket h.2
  · rw [lookupArgs_service hbracket hne hH hS, nul_notMem_colon, Prod.mk.injEq,
      Option.some.injEq, cString_eq_self_iff, cString_eq_self_iff]
    exact ⟨fun h => ⟨h, hbracket⟩, fun h => h.1⟩

/-- The whole string goes wrong if there is a `:` in it. -/
theorem lookup_whole_iff
    (hhead : host.head? ≠ some '[')
    (hcount : host.count ':' ≠ 1) :
    lookupArgs host = (host, none) ↔ nul ∉ host ∧ host.count ':' ≤ 1 := by
  have hbracket := not_bracketed_of_head hhead
  by_cases hcolon : ':' ∈ host
  · obtain ⟨H, S, rfl, hH⟩ := List.eq_append_cons_of_mem hcolon
    rw [List.count_append, List.count_cons_self, List.count_eq_zero_of_not_mem hH] at *
    have hS : ':' ∈ S := by
      by_contra hS
      rw [List.count_eq_zero_of_not_mem hS] at hcount
      exact hcount rfl
    have hpos := List.count_pos_iff.mpr hS
    rw [lookupArgs_colons hbracket hH hS]
    constructor
    · intro h
      cases (Prod.mk.inj h).2
    · rintro ⟨-, h⟩
      omega
  · rw [lookupArgs_whole hbracket hcolon, Prod.mk.injEq, cString_eq_self_iff,
      List.count_eq_zero_of_not_mem hcolon]
    exact ⟨fun h => ⟨h.1, Nat.zero_le 1⟩, fun h => ⟨h.1, rfl⟩⟩

/-- `getaddrinfo` gets the node and the service asked for if and only if the string has
no NUL in it and is in one of the forms with brackets, or does not start with a name in
brackets and has one `:` at most. -/
theorem lookup_iff (h : Asked host node service) :
    lookupArgs host = (node, service) ↔
      nul ∉ host ∧ (BracketForm host ∨ (¬ Bracketed host ∧ host.count ':' ≤ 1)) := by
  cases h with
  | @bracketService _ S hne hX =>
    have hform : BracketForm ('[' :: (node ++ ']' :: ':' :: S)) :=
      ⟨node, ':' :: S, hne, hX, rfl, .inr List.head?_cons⟩
    have hS : nul ∉ ':' :: S ↔ nul ∉ S := (nul_notMem_colon (H := [])).trans (by simp)
    rw [lookupArgs_bracketed hne hX, if_pos List.head?_cons, List.tail_cons,
      nul_notMem_bracketed, hS, Prod.mk.injEq, Option.some.injEq, cString_eq_self_iff,
      cString_eq_self_iff]
    exact ⟨fun h => ⟨h, .inl hform⟩, fun h => h.1⟩
  | bracket hne hX =>
    have hform : BracketForm ('[' :: (node ++ [']'])) :=
      ⟨node, [], hne, hX, rfl, .inl rfl⟩
    rw [lookupArgs_bracketed hne hX, if_neg (by simp), nul_notMem_bracketed, Prod.mk.injEq,
      cString_eq_self_iff]
    constructor
    · rintro ⟨hnul, -⟩
      exact ⟨⟨hnul, List.not_mem_nil⟩, .inl hform⟩
    · rintro ⟨⟨hnul, -⟩, -⟩
      exact ⟨hnul, rfl⟩
  | @service _ S hne hH hS hform =>
    have hcount : (node ++ ':' :: S).count ':' ≤ 1 := by
      rw [List.count_append, List.count_cons_self, List.count_eq_zero_of_not_mem hH,
        List.count_eq_zero_of_not_mem hS]
    rw [lookup_service_iff hne hH hS hform]
    simp only [hform, hcount, and_true, false_or]
  | whole hhead hcount =>
    have hbracket := not_bracketed_of_head hhead
    have hform : ¬ BracketForm host := fun h => hbracket h.bracketed
    rw [lookup_whole_iff hhead hcount]
    simp only [hform, hbracket, not_false_eq_true, true_and, false_or]

/-- `[::1]:80`. -/
theorem lookup_loopback :
    Asked "[::1]:80".toList "::1".toList (some "80".toList) ∧
      lookupArgs "[::1]:80".toList = ("::1".toList, some "80".toList) := by
  have h : Asked "[::1]:80".toList "::1".toList (some "80".toList) :=
    Asked.bracketService (X := "::1".toList) (S := "80".toList) (by decide) (by decide)
  have hform : BracketForm "[::1]:80".toList :=
    ⟨"::1".toList, ":80".toList, by decide, by decide, rfl, .inr rfl⟩
  exact ⟨h, (lookup_iff h).mpr ⟨by decide, .inl hform⟩⟩

/-- A bare IPv6 literal is passed with a service. -/
theorem lookup_bare_literal :
    Asked "fe80::1".toList "fe80::1".toList none ∧
      lookupArgs "fe80::1".toList = ("fe80::1".toList, some "::1".toList) := by
  exact ⟨.whole (by decide) (by decide), by decide⟩

end Asked

end Address
end Civan
