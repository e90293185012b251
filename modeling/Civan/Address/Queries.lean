import Civan.Address.Subnet
import Civan.Lib.Transition

/-!
# IP addresses: what the subnet queries leave behind

A sequence of queries on one address object.  The methods copy the socket address and
patch the copy; only `IPv6Address::subnetMask` clears `m_addr` itself where it means
the copy, so after it the object is `[::]:0`.
-/

namespace Civan
namespace Address

open Transition

section Model

/-- An object of one of the two classes. -/
inductive IPAddress where
  | v4 (addr : SockaddrIn)
  | v6 (addr : SockaddrIn6)
deriving DecidableEq, Repr

/-- A subnet query with its prefix length. -/
inductive Query where
  | broadcastAddress (prefixLen : ℕ)
  | networdAddress (prefixLen : ℕ)
  | subnetMask (prefixLen : ℕ)
deriving DecidableEq, Repr

def Query.prefixLen : Query → ℕ
  | .broadcastAddress p => p
  | .networdAddress p => p
  | .subnetMask p => p

def IPv4Address.query (host : Endian) (u : Undefined) (m : SockaddrIn) :
    Query → Option SockaddrIn × SockaddrIn
  | .broadcastAddress p => IPv4Address.broadcastAddress host u m p
  | .networdAddress p => IPv4Address.networdAddress host u m p
  | .subnetMask p => IPv4Address.subnetMask host u m p

def IPv6Address.query (u : Undefined) (m : SockaddrIn6) :
    Query → Option (SockaddrIn6 × SockaddrIn6)
  | .broadcastAddress p => IPv6Address.broadcastAddress u m p
  | .networdAddress p => IPv6Address.networdAddress u m p
  | .subnetMask p => IPv6Address.subnetMask u m p

/-- The queries as steps of the object they are made on; the output is the address that
is returned. -/
def queries (host : Endian) (u : Undefined) : System IPAddress Query (Option IPAddress) where
  step
    | .v4 m, q =>
      some ((IPv4Address.query host u m q).1.map .v4, .v4 (IPv4Address.query host u m q).2)
    | .v6 m, q => (IPv6Address.query u m q).map fun r => (some (.v6 r.1), .v6 r.2)

end Model

section Purpose

/-- Family, port and address of an object. -/
def IPAddress.shown : IPAddress → BitVec 16 × BitVec 16 × (BitVec 32 ⊕ Vector UInt8 16)
  | .v4 m => (m.family, m.port, .inl m.addr)
  | .v6 m => (m.family, m.port, .inr m.addr)

/-- The longest prefix that the methods of the class admit. -/
def IPAddress.maxPrefixLen : IPAddress → ℕ
  | .v4 _ => 32
  | .v6 _ => 127

/-- The query is the one that clears its object. -/
def IPAddress.clears : IPAddress → Query → Bool
  | .v6 _, .subnetMask _ => true
  | _, _ => false

/-- None of the queries clears the object. -/
def IPAddress.Untouched (s : IPAddress) (qs : List Query) : Prop :=
  ∀ q ∈ qs, s.clears q = false

end Purpose

section Steps

variable (host : Endian) (u : Undefined)

theorem ipv4_query_snd (m : SockaddrIn) (q : Query) : (IPv4Address.query host u m q).2 = m := by
  cases q with
  | broadcastAddress p =>
    simp only [IPv4Address.query, IPv4Address.broadcastAddress]
    split_ifs
    · rfl
    · rfl
  | networdAddress p =>
    simp only [IPv4Address.query, IPv4Address.networdAddress]
    split_ifs
    · rfl
    · rfl
  | subnetMask p => rfl

theorem ipv6_query_snd (m : SockaddrIn6) {q : Query} (hq : q.prefixLen < 128) :
    ∃ r, IPv6Address.query u m q =
      some (r, if (IPAddress.v6 m).clears q then .zeroed else m) := by
  cases q with
  | broadcastAddress p =>
    obtain ⟨b, hb, _⟩ := broadcastAddress6 (u := u) hq m
    exact ⟨_, hb⟩
  | networdAddress p =>
    obtain ⟨b, hb, _⟩ := networdAddress6 (u := u) hq m
    exact ⟨_, hb⟩
  | subnetMask p =>
    obtain ⟨b, hb, _⟩ := subnetMask6 (u := u) hq m
    exact ⟨_, hb⟩

/-- The object after a query. -/
def IPAddress.after (s : IPAddress) (q : Query) : IPAddress :=
  if s.clears q then .v6 .zeroed else s

theorem queries_step {s : IPAddress} {q : Query} (hq : q.prefixLen ≤ s.maxPrefixLen) :
    ∃ o, (queries host u).step s q = some (o, s.after q) := by
  cases s with
  | v4 m =>
    have hafter : (IPAddress.v4 m).after q = .v4 (IPv4Address.query host u m q).2 := by
      rw [ipv4_query_snd]
      rfl
    rw [hafter]
    exact ⟨_, rfl⟩
  | v6 m =>
    obtain ⟨r, hr⟩ := ipv6_query_snd u m (Nat.lt_succ_of_le hq)
    refine ⟨some (.v6 r), ?_⟩
    simp only [queries, hr, Option.map_some, IPAddress.after]
    split_ifs
    · rfl
    · rfl

/-- A query keeps the class of its object, and a cleared object stays cleared. -/
theorem after_maxPrefixLen (s : IPAddress) (q : Query) :
    (s.after q).maxPrefixLen = s.maxPrefixLen := by
  unfold IPAddress.after
  split_ifs with hclears
  · cases s with
    | v4 m => cases hclears
    | v6 m => rfl
  · rfl

theorem clears_after (s : IPAddress) (q q' : Query) : (s.after q).clears q' = s.clears q' := by
  unfold IPAddress.after
  split_ifs with hclears
  · cases s with
    | v4 m => cases hclears
    | v6 m => cases q' <;> rfl
  · rfl

theorem untouched_iff {s : IPAddress} {qs : List Query} :
    s.Untouched qs ↔ ¬ qs.any s.clears = true := by
  simp [IPAddress.Untouched]

theorem queries_run
    {s : IPAddress} {qs : List Query} (hqs : ∀ q ∈ qs, q.prefixLen ≤ s.maxPrefixLen) :
    ∃ os, (queries host u).run s qs = some (os, if qs.any s.clears then .v6 .zeroed else s) := by
  induction qs generalizing s with
  | nil => exact ⟨[], rfl⟩
  | cons q qs ih =>
    obtain ⟨o, hstep⟩ := queries_step host u (hqs q List.mem_cons_self)
    have hrest : ∀ q' ∈ qs, q'.prefixLen ≤ (s.after q).maxPrefixLen := by
      intro q' hq'
      rw [after_maxPrefixLen]
      exact hqs q' (List.mem_cons_of_mem q hq')
    obtain ⟨os, hrun⟩ := ih hrest
    have hsame : (s.after q).clears = s.clears := funext (clears_after s q)
    refine ⟨o :: os, ?_⟩
    rw [System.run_cons_eq_some]
    refine ⟨o, s.after q, os, hstep, ?_, rfl⟩
    rw [hrun, hsame, List.any_cons, IPAddress.after]
    by_cases hq : s.clears q = true
    · simp [hq]
    · simp [hq]

/-- While the object is left alone, each query gets the answer it would get at the start. -/
theorem queries_answers
    {s : IPAddress} {qs : List Query} (hqs : ∀ q ∈ qs, q.prefixLen ≤ s.maxPrefixLen)
    (huntouched : s.Untouched qs) {os : List (Option IPAddress)} {t : IPAddress}
    (hrun : (queries host u).run s qs = some (os, t)) :
    os.map some = qs.map fun q => ((queries host u).step s q).map Prod.fst := by
  induction qs generalizing os with
  | nil =>
    cases hrun
    rfl
  | cons q qs ih =>
    obtain ⟨o, s', os', hstep, hrest, rfl⟩ := (queries host u).run_cons_eq_some.mp hrun
    obtain ⟨o', hstep'⟩ := queries_step host u (hqs q List.mem_cons_self)
    have hafter : s.after q = s := by
      rw [IPAddress.after, huntouched q List.mem_cons_self]
      rfl
    rw [hafter] at hstep'
    rw [hstep] at hstep'
    cases hstep'
    rw [List.map_cons, List.map_cons, hstep,
      ih (fun q' hq' => hqs q' (List.mem_cons_of_mem q hq'))
        (fun q' hq' => huntouched q' (List.mem_cons_of_mem q hq')) hrest]
    rfl

end Steps

/--
**Subnet queries.**  Queries with admitted prefix lengths are all answered.  Family, port
and address are afterwards what they were exactly if none of the queries was `subnetMask`
on an IPv6 address, or the address was `[::]:0` already; and without such a query each
answer is the one the query would have got first.
-/
theorem queries_frame_iff (host : Endian) (u : Undefined) (s : IPAddress)
    {qs : List Query} (hqs : ∀ q ∈ qs, q.prefixLen ≤ s.maxPrefixLen) :
    ∃ os t, (queries host u).run s qs = some (os, t) ∧
      (t.shown = s.shown ↔ s.Untouched qs ∨ s.shown = (IPAddress.v6 .zeroed).shown) ∧
      (s.Untouched qs →
        t = s ∧ os.map some = qs.map fun q => ((queries host u).step s q).map Prod.fst) := by
  obtain ⟨os, hrun⟩ := queries_run host u hqs
  refine ⟨os, _, hrun, ?_, ?_⟩
  · by_cases hclears : qs.any s.clears = true
    · have htouched : ¬ s.Untouched qs := fun huntouched => untouched_iff.mp huntouched hclears
      rw [if_pos hclears, or_iff_right htouched, eq_comm]
    · rw [if_neg hclears]
      exact iff_of_true rfl (Or.inl (untouched_iff.mpr hclears))
  · intro huntouched
    exact ⟨if_neg (untouched_iff.mp huntouched), queries_answers host u hqs huntouched hrun⟩

/-- Two queries of an IPv6 address that leave it alone. -/
theorem queries_frame_broadcast_network :
    ∃ os, (queries .little x86Undefined).run (.v6 (documentationAddress 1))
      [.broadcastAddress 64, .networdAddress 32] = some (os, .v6 (documentationAddress 1)) := by
  obtain ⟨os, t, hrun, _, hframe⟩ :=
    queries_frame_iff .little x86Undefined (.v6 (documentationAddress 1))
      (by decide : ∀ q ∈ [Query.broadcastAddress 64, .networdAddress 32], q.prefixLen ≤ 127)
  obtain ⟨rfl, _⟩ := hframe (by unfold IPAddress.Untouched; decide)
  exact ⟨os, hrun⟩

/-- The first `subnetMask` of an IPv6 address clears it, so that the second one has another
answer. -/
theorem subnetMask_clears_receiver :
    (queries .little x86Undefined).run (.v6 (documentationAddress 1))
        [.subnetMask 64, .subnetMask 64] =
      some ([some (.v6 { SockaddrIn6.zeroed with
          addr := #v[0xff, 0xff, 0xff, 0xff, 0xff, 0xff, 0xff, 0xff, 0, 0, 0, 0, 0, 0, 0, 1] }),
        some (.v6 { SockaddrIn6.zeroed with
          addr := #v[0xff, 0xff, 0xff, 0xff, 0xff, 0xff, 0xff, 0xff, 0, 0, 0, 0, 0, 0, 0, 0] })],
        .v6 .zeroed) ∧
    (IPAddress.v6 .zeroed).shown ≠ (IPAddress.v6 (documentationAddress 1)).shown := by
  decide

end Address
end Civan
