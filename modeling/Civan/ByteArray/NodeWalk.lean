import Civan.ByteArray.Model

/-!
# ByteArray: what the node loops compute

One specification for each loop of `bytearray.cc`, over an arbitrary list of
nodes of one size `b`.  A loop succeeds exactly when the bytes it is asked for
lie inside the list it starts on, and it then acts on the concatenation of the
nodes as if that were one array.
-/

namespace Civan

open Segment

namespace Node

theorem store_size (n : Node) (pos : ℕ) (src : List UInt8) :
    (n.store pos src).size = n.size := by
  rfl

theorem store_ptr (n : Node) {pos : ℕ} {src : List UInt8} (h : pos + src.length ≤ n.size) :
    (n.store pos src).ptr = splice n.ptr pos src := by
  apply overwrite_eq_splice
  rw [n.length_ptr]
  exact h

theorem load_eq_drop (n : Node) {npos k : ℕ} (h : n.size - npos ≤ k) :
    n.load npos k = n.ptr.drop npos := by
  rw [load, List.take_of_length_le]
  rw [List.length_drop, n.length_ptr]
  exact h

theorem load_append (n : Node) {npos k : ℕ} (h : npos + k ≤ n.size) (rest : List UInt8) :
    n.load npos k = ((n.ptr ++ rest).drop npos).take k := by
  have hlen := n.length_ptr
  rw [load, List.drop_append_of_le_length (by omega),
    List.take_append_of_le_length (by rw [List.length_drop]; omega)]

theorem load_append_cross (n : Node) (npos k : ℕ) (hpos : npos ≤ n.size)
    (h : n.size - npos ≤ k) (rest : List UInt8) :
    n.load npos (n.size - npos) ++ rest.take (k - (n.size - npos)) =
      ((n.ptr ++ rest).drop npos).take k := by
  have hlen : (n.ptr.drop npos).length = n.size - npos := by rw [List.length_drop, n.length_ptr]
  obtain ⟨m, rfl⟩ := Nat.exists_eq_add_of_le h
  rw [n.load_eq_drop (Nat.le_refl _),
    List.drop_append_of_le_length (by rw [n.length_ptr]; exact hpos),
    ← hlen, List.take_length_add_append, Nat.add_sub_cancel_left]

end Node

namespace ByteArray

/-- All nodes have size `b`. -/
def Sized (b : ℕ) (ns : List Node) : Prop :=
  ∀ n ∈ ns, n.size = b

section Sized

variable {b : ℕ} {n : Node} {ns ms : List Node}

theorem Sized.head (h : Sized b (n :: ns)) : n.size = b :=
  h n List.mem_cons_self

theorem Sized.tail (h : Sized b (n :: ns)) : Sized b ns := by
  intro m hm
  exact h m (List.mem_cons_of_mem _ hm)

theorem Sized.cons (hn : n.size = b) (h : Sized b ns) : Sized b (n :: ns) := by
  intro m hm
  rcases List.mem_cons.mp hm with rfl | hm
  · exact hn
  · exact h m hm

theorem Sized.append (h : Sized b ns) (h' : Sized b ms) : Sized b (ns ++ ms) := by
  intro m hm
  rcases List.mem_append.mp hm with hm | hm
  · exact h m hm
  · exact h' m hm

theorem Sized.drop (h : Sized b ns) (i : ℕ) : Sized b (ns.drop i) :=
  fun m hm => h m (List.mem_of_mem_drop hm)

theorem Sized.take (h : Sized b ns) (i : ℕ) : Sized b (ns.take i) :=
  fun m hm => h m (List.mem_of_mem_take hm)

theorem Sized.uniform (h : Sized b ns) : Uniform b (ns.map Node.ptr) := by
  intro x hx
  obtain ⟨m, hm, rfl⟩ := List.mem_map.mp hx
  rw [m.length_ptr, h m hm]

end Sized

@[simp] theorem flat_nil : flat [] = [] := by
  rfl

@[simp] theorem flat_cons (n : Node) (ns : List Node) : flat (n :: ns) = n.ptr ++ flat ns := by
  rfl

@[simp] theorem flat_append (ns ms : List Node) : flat (ns ++ ms) = flat ns ++ flat ms := by
  simp [flat]

theorem Sized.length_flat {b : ℕ} {ns : List Node} (h : Sized b ns) :
    (flat ns).length = ns.length * b := by
  have hlen := h.uniform.length_flatten
  rwa [List.length_map] at hlen

theorem Sized.flat_drop {b : ℕ} {ns : List Node} (h : Sized b ns) (i : ℕ) :
    flat (ns.drop i) = (flat ns).drop (i * b) := by
  rw [flat, flat, List.map_drop]
  exact (h.uniform.drop_flatten i).symm

theorem length_cons_mul (n : Node) (rest : List Node) (b : ℕ) :
    (n :: rest).length * b = rest.length * b + b := by
  rw [List.length_cons]
  ring

theorem add_div_succ_of_block {b p m : ℕ} (hb : 0 < b) (h : p = b + m) : p / b = m / b + 1 := by
  rw [h, Nat.add_div_left m hb]

section Write

variable {b pos : ℕ} {ns : List Node} {src : List UInt8}

/-- With enough room from the cursor on, the write loop splices the bytes in
and leaves the cursor on the node of the last byte written. -/
theorem fill_eq_some (hns : Sized b ns) (hpos : pos < b) (hsrc : 0 < src.length)
    (hroom : pos + src.length ≤ ns.length * b) :
    ∃ ns',
      fill ns pos src = some (ns', (pos + src.length - 1) / b) ∧
      Sized b ns' ∧
      ns'.length = ns.length ∧
      flat ns' = splice (flat ns) pos src := by
  induction ns generalizing pos src with
  | nil =>
    rw [List.length_nil, Nat.zero_mul] at hroom
    omega
  | cons n rest ih =>
    have hn : n.size = b := hns.head
    rw [fill]
    by_cases hfit : src.length ≤ n.size - pos
    · rw [if_pos hfit]
      have hin : pos + src.length ≤ n.size := by omega
      have hdiv : (pos + src.length - 1) / b = 0 :=
        Nat.div_eq_of_lt (by omega)
      refine ⟨n.store pos src :: rest, by rw [hdiv], ?_, by simp, ?_⟩
      · exact Sized.cons ((n.store_size pos src).trans hn) hns.tail
      · rw [flat_cons, flat_cons, n.store_ptr hin]
        rw [splice_append_left (by rw [n.length_ptr]; exact hin)]
    · rw [if_neg hfit]
      have hlen : (src.drop (n.size - pos)).length = src.length - (b - pos) := by
        rw [List.length_drop, hn]
      have htake : (src.take (n.size - pos)).length = b - pos := by
        rw [List.length_take, hn]
        omega
      have hrest := length_cons_mul n rest b
      obtain ⟨rest', hfill, hsized, hlength, hflat⟩ :=
        @ih 0 (src.drop (n.size - pos)) hns.tail (by omega) (by omega) (by omega)
      have hdiv :
          (0 + (src.drop (n.size - pos)).length - 1) / b + 1 = (pos + src.length - 1) / b := by
        rw [hlen]
        exact (add_div_succ_of_block (by omega) (by omega)).symm
      refine ⟨n.store pos (src.take (n.size - pos)) :: rest', ?_, ?_, ?_, ?_⟩
      · simp only [hfill, hdiv]
      · exact Sized.cons ((n.store_size _ _).trans hn) hsized
      · simp [hlength]
      · have hend : pos + (src.take (n.size - pos)).length = n.ptr.length := by
          rw [htake, n.length_ptr, hn]
          omega
        have hcross :=
          splice_append_cross hend (flat rest) (src.drop (n.size - pos))
        rw [List.take_append_drop] at hcross
        rw [flat_cons, flat_cons, hflat, hcross, n.store_ptr (by rw [hend, n.length_ptr])]

end Write

section Read

variable {b npos : ℕ} {ns : List Node}

/-- The read loop returns the bytes at the cursor and moves one node on for
every node end it reaches. -/
theorem copyOut_eq_some {size : ℕ} (hns : Sized b ns) (hne : ns ≠ []) (hpos : npos < b)
    (hroom : npos + size ≤ ns.length * b) :
    copyOut ns npos size = some (((flat ns).drop npos).take size, (npos + size) / b) := by
  induction ns generalizing npos size with
  | nil => exact absurd rfl hne
  | cons n rest ih =>
    have hn : n.size = b := hns.head
    have hrest := length_cons_mul n rest b
    rw [copyOut]
    by_cases hzero : size = 0
    · rw [if_pos hzero]
      subst hzero
      simp [Nat.div_eq_of_lt hpos]
    · rw [if_neg hzero]
      by_cases hfit : n.size - npos ≥ size
      · have hin : npos + size ≤ n.size := by omega
        simp only [ge_iff_le] at hfit ⊢
        rw [if_pos hfit, n.load_append hin (flat rest), flat_cons]
        by_cases hend : n.size = npos + size
        · rw [if_pos hend, ← hend, hn, Nat.div_self (by omega)]
        · rw [if_neg hend, Nat.div_eq_of_lt (by omega)]
      · have hne' : rest ≠ [] := by
          rintro rfl
          rw [List.length_nil, Nat.zero_mul] at hrest
          omega
        have hih :=
          @ih 0 (size - (n.size - npos)) hns.tail hne' (by omega) (by omega)
        have hdiv : (0 + (size - (n.size - npos))) / b + 1 = (npos + size) / b :=
          (add_div_succ_of_block (by omega) (by omega)).symm
        have hcross :=
          n.load_append_cross npos size (by omega) (by omega) (flat rest)
        simp only [ge_iff_le] at hfit ⊢
        rw [if_neg hfit, hih]
        simp only [List.drop_zero, hcross, hdiv, flat_cons]

theorem copyOut_eq_none {size : ℕ} (hns : Sized b ns) (hpos : npos < b)
    (hroom : ns.length * b < npos + size) :
    copyOut ns npos size = none := by
  induction ns generalizing npos size with
  | nil => rfl
  | cons n rest ih =>
    have hn : n.size = b := hns.head
    have hrest := length_cons_mul n rest b
    have hnone : copyOut rest 0 (size - (n.size - npos)) = none :=
      ih hns.tail (by omega) (by omega)
    rw [copyOut, if_neg (by omega)]
    simp only [ge_iff_le]
    rw [if_neg (by omega), hnone]

end Read

/-- The search loop of `setPosition` finds the node of offset `v`, or the null
pointer behind the last node when `v` is the capacity. -/
theorem seek_eq_some {b v : ℕ} {ns : List Node} (hb : 0 < b) (hns : Sized b ns) (hne : ns ≠ [])
    (hv : v ≤ ns.length * b) :
    seek ns v = some (v / b) := by
  induction ns generalizing v with
  | nil => exact absurd rfl hne
  | cons n rest ih =>
    have hn : n.size = b := hns.head
    have hrest := length_cons_mul n rest b
    rw [seek, hn]
    by_cases hgt : v > b
    · have hne' : rest ≠ [] := by
        rintro rfl
        rw [List.length_nil, Nat.zero_mul] at hrest
        omega
      rw [if_pos hgt, ih hns.tail hne' (by omega)]
      simp only [Option.some.injEq]
      exact (add_div_succ_of_block hb (by omega)).symm
    · rw [if_neg hgt]
      by_cases heq : v = b
      · rw [if_pos heq, heq, Nat.div_self hb]
      · rw [if_neg heq, Nat.div_eq_of_lt (by omega)]

section Regions

variable {b npos ncap len : ℕ} {ns : List Node} {nextCap : Node → ℕ}

theorem head_nextCap (hcap : ∀ n ∈ ns, nextCap n = b) (hne : ns ≠ []) :
    ns.head?.elim 0 nextCap = b := by
  cases ns with
  | nil => exact absurd rfl hne
  | cons n rest => exact hcap n List.mem_cons_self

/-- The regions cut out of a chain that starts at node `i` of `b` hold exactly
the bytes at the cursor; none is empty and none leaves its node. -/
theorem regions_eq_some {ba : ByteArray} {i : ℕ} (hns : Sized b ns)
    (hcap : ∀ n ∈ ns, nextCap n = b) (hchain : ba.nodes.drop i = ns) (hpos : npos < b)
    (hncap : ncap = b - npos) (hlen : 0 < len) (hroom : npos + len ≤ ns.length * b) :
    ∃ iovs,
      regions nextCap i ns npos ncap len = some iovs ∧
      iovs.flatMap ba.iovBytes = ((flat ns).drop npos).take len ∧
      (iovs.map Iovec.len).sum = len ∧
      ∀ iov ∈ iovs, 0 < iov.len ∧ iov.base + iov.len ≤ b := by
  subst hncap
  induction ns generalizing npos len i with
  | nil =>
    rw [List.length_nil, Nat.zero_mul] at hroom
    omega
  | cons n rest ih =>
    have hn : n.size = b := hns.head
    have hrest := length_cons_mul n rest b
    have hget : ba.nodes[i]? = some n := by rw [← List.head?_drop, hchain, List.head?_cons]
    have hbytes : ∀ base k, ba.iovBytes ⟨i, base, k⟩ = n.load base k := by
      intro base k
      simp [iovBytes, hget]
    rw [regions]
    by_cases hfit : len ≤ b - npos
    · rw [if_pos hfit]
      refine ⟨[⟨i, npos, len⟩], rfl, ?_, by simp, ?_⟩
      · rw [flat_cons, ← n.load_append (by omega)]
        simp [hbytes]
      · intro iov hiov
        rw [List.mem_singleton.mp hiov]
        dsimp only
        omega
    · rw [if_neg hfit]
      have hne : rest ≠ [] := by
        rintro rfl
        rw [List.length_nil, Nat.zero_mul] at hrest
        omega
      have hnext : ba.nodes.drop (i + 1) = rest := by
        rw [← List.drop_drop, hchain, List.drop_succ_cons, List.drop_zero]
      obtain ⟨iovs, hreg, hflat, hsum, hall⟩ :=
        @ih 0 (len - (b - npos)) (i + 1)
          hns.tail (fun m hm => hcap m (List.mem_cons_of_mem _ hm)) hnext
          (by omega) (by omega) (by omega)
      have hcross :=
        n.load_append_cross npos len (by omega) (by omega) (flat rest)
      rw [head_nextCap (fun m hm => hcap m (List.mem_cons_of_mem _ hm)) hne]
      rw [Nat.sub_zero] at hreg
      refine ⟨⟨i, npos, b - npos⟩ :: iovs, by rw [hreg], ?_, ?_, ?_⟩
      · rw [List.flatMap_cons, hflat, hbytes, flat_cons, ← hcross, hn, List.drop_zero]
      · rw [List.map_cons, List.sum_cons, hsum]
        dsimp only
        omega
      · intro iov hiov
        rcases List.mem_cons.mp hiov with rfl | hiov
        · dsimp only
          omega
        · exact hall iov hiov

theorem regions_eq_none {i : ℕ} (hcap : ∀ n ∈ ns, nextCap n = b) (hpos : npos < b)
    (hncap : ncap = b - npos) (hroom : ns.length * b < npos + len) :
    regions nextCap i ns npos ncap len = none := by
  subst hncap
  induction ns generalizing npos len i with
  | nil => rfl
  | cons n rest ih =>
    have hrest := length_cons_mul n rest b
    have hcap' : ∀ m ∈ rest, nextCap m = b :=
      fun m hm => hcap m (List.mem_cons_of_mem _ hm)
    rw [regions, if_neg (by omega)]
    cases rest with
    | nil => rfl
    | cons m rest' =>
      have hnone :=
        @ih 0 (len - (b - npos)) (i + 1) hcap' (by omega) (by omega)
      rw [head_nextCap hcap' (List.cons_ne_nil m rest')]
      rw [Nat.sub_zero] at hnone
      rw [hnone]

end Regions

end ByteArray
end Civan
