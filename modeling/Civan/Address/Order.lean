import Mathlib.Data.List.Lex
import Mathlib.Tactic

/-!
# The order of addresses

`Address::operator<` compares as many bytes as the shorter socket address has, and then
the lengths.  This is the lexicographic order of the bytes that count, so that it is
total for addresses of any families.
-/

namespace Civan
namespace Address

/-- What an address shows to the operators: the object behind `getAddr()`, and the
`getAddrLen()` bytes of it that count. -/
structure Sockaddr where
  getAddr : List UInt8
  getAddrLen : ℕ
  inside : getAddrLen ≤ getAddr.length

/-- The bytes that count. -/
def Sockaddr.image (a : Sockaddr) : List UInt8 :=
  a.getAddr.take a.getAddrLen

/-- `memcmp(s, t, n)`, of which the callers look at the sign. -/
def memcmp : ℕ → List UInt8 → List UInt8 → ℤ
  | 0, _, _ => 0
  | n + 1, x :: s, y :: t => if x = y then memcmp n s t else (x.toNat : ℤ) - y.toNat
  | _ + 1, _, _ => 0

namespace Sockaddr

/-- `operator<` -/
def less (a rhs : Sockaddr) : Bool :=
  let minlen := min a.getAddrLen rhs.getAddrLen
  let result := memcmp minlen a.getAddr rhs.getAddr
  if result < 0 then
    true
  else if result > 0 then
    false
  else if a.getAddrLen < rhs.getAddrLen then
    true
  else
    false

/-- `operator==` -/
def equal (a rhs : Sockaddr) : Bool :=
  a.getAddrLen == rhs.getAddrLen && memcmp a.getAddrLen a.getAddr rhs.getAddr == 0

/-- `operator!=` -/
def notEqual (a rhs : Sockaddr) : Bool :=
  !a.equal rhs

end Sockaddr

section Bytes

theorem memcmp_eq_zero_iff {n : ℕ} {s t : List UInt8} (hs : n ≤ s.length) (ht : n ≤ t.length) :
    memcmp n s t = 0 ↔ s.take n = t.take n := by
  induction n generalizing s t with
  | zero => simp [memcmp]
  | succ n ih =>
    cases s with
    | nil => simp at hs
    | cons x s =>
      cases t with
      | nil => simp at ht
      | cons y t =>
        rw [List.length_cons, Nat.succ_le_succ_iff] at hs ht
        rw [memcmp, List.take_succ_cons, List.take_succ_cons, List.cons.injEq]
        by_cases hxy : x = y
        · rw [if_pos hxy, ih hs ht, and_iff_right hxy]
        · have hne : x.toNat ≠ y.toNat := fun h => hxy (UInt8.toNat.inj h)
          rw [if_neg hxy]
          exact iff_of_false (by omega) (fun h => hxy h.1)

/-- The common part decides, and after it the lengths: this is the lexicographic order. -/
theorem memcmp_lt_iff {m n : ℕ} {s t : List UInt8} (hs : m ≤ s.length) (ht : n ≤ t.length) :
    (memcmp (min m n) s t < 0 ∨ memcmp (min m n) s t = 0 ∧ m < n) ↔
      (s.take m).map UInt8.toNat < (t.take n).map UInt8.toNat := by
  induction m generalizing n s t with
  | zero =>
    cases n with
    | zero => simp [memcmp]
    | succ n =>
      cases t with
      | nil => simp at ht
      | cons y t => simp [memcmp]
  | succ m ih =>
    cases n with
    | zero => simp [memcmp]
    | succ n =>
      cases s with
      | nil => simp at hs
      | cons x s =>
        cases t with
        | nil => simp at ht
        | cons y t =>
          rw [List.length_cons, Nat.succ_le_succ_iff] at hs ht
          rw [Nat.succ_min_succ, memcmp, List.take_succ_cons, List.take_succ_cons,
            List.map_cons, List.map_cons, List.cons_lt_cons_iff, Nat.succ_lt_succ_iff]
          by_cases hxy : x = y
          · rw [if_pos hxy, ih hs ht, hxy]
            simp
          · have hne : x.toNat ≠ y.toNat := fun h => hxy (UInt8.toNat.inj h)
            rw [if_neg hxy]
            omega

end Bytes

section Order

variable (a b : Sockaddr)

theorem length_image : a.image.length = a.getAddrLen :=
  List.length_take_of_le a.inside

/-- The bytes that count, as numbers. -/
def Sockaddr.key (a : Sockaddr) : List ℕ :=
  a.image.map UInt8.toNat

theorem key_inj : a.key = b.key ↔ a.image = b.image :=
  (List.map_injective_iff.mpr fun _ _ h => UInt8.toNat.inj h).eq_iff

theorem less_iff : a.less b = true ↔ a.key < b.key := by
  rw [Sockaddr.key, Sockaddr.key, Sockaddr.image, Sockaddr.image,
    ← memcmp_lt_iff a.inside b.inside, Sockaddr.less]
  split_ifs with hneg hpos hlen
  · simp [hneg]
  · simp [hneg]
    omega
  · simp [hneg, hlen]
    omega
  · simp [hneg, hlen]

theorem equal_iff : a.equal b = true ↔ a.image = b.image := by
  rw [Sockaddr.equal, Bool.and_eq_true, beq_iff_eq, beq_iff_eq]
  constructor
  · rintro ⟨heq, hcmp⟩
    rw [memcmp_eq_zero_iff a.inside (heq.le.trans b.inside)] at hcmp
    rw [Sockaddr.image, Sockaddr.image, hcmp, heq]
  · intro himage
    have heq : a.getAddrLen = b.getAddrLen := by rw [← length_image, ← length_image, himage]
    refine ⟨heq, ?_⟩
    rw [memcmp_eq_zero_iff a.inside (heq.le.trans b.inside)]
    rw [Sockaddr.image, Sockaddr.image, ← heq] at himage
    exact himage

/-- Exactly one of three. -/
def ExactlyOne (p q r : Prop) : Prop :=
  (p ∧ ¬ q ∧ ¬ r) ∨ (¬ p ∧ q ∧ ¬ r) ∨ (¬ p ∧ ¬ q ∧ r)

/--
Addresses of any lengths are totally ordered: `operator<` is irreflexive and transitive,
of `a < b`, `b < a` and `a == b` exactly one holds, and `operator==` is equality of the
bytes, which `operator!=` denies.
-/
theorem addresses_totally_ordered :
    (∀ a : Sockaddr, a.less a = false) ∧
    (∀ a b c : Sockaddr, a.less b = true → b.less c = true → a.less c = true) ∧
    (∀ a b : Sockaddr, ExactlyOne (a.less b = true) (b.less a = true) (a.equal b = true)) ∧
    (∀ a b : Sockaddr, a.equal b = true ↔ a.getAddrLen = b.getAddrLen ∧ a.image = b.image) ∧
    (∀ a b : Sockaddr, a.notEqual b = true ↔ ¬ a.equal b = true) := by
  refine ⟨?_, ?_, ?_, ?_, ?_⟩
  · intro a
    rw [← Bool.not_eq_true, less_iff]
    exact lt_irrefl _
  · intro a b c hab hbc
    rw [less_iff] at hab hbc ⊢
    exact hab.trans hbc
  · intro a b
    rw [ExactlyOne, less_iff, less_iff, equal_iff, ← key_inj]
    rcases lt_trichotomy a.key b.key with hlt | heq | hgt
    · exact Or.inl ⟨hlt, hlt.asymm, hlt.ne⟩
    · exact Or.inr (Or.inr ⟨heq.not_lt, heq.not_gt, heq⟩)
    · exact Or.inr (Or.inl ⟨hgt.asymm, hgt, hgt.ne'⟩)
  · intro a b
    rw [equal_iff]
    constructor
    · intro himage
      exact ⟨by rw [← length_image, ← length_image, himage], himage⟩
    · exact And.right
  · intro a b
    simp [Sockaddr.notEqual]

end Order

end Address
end Civan
