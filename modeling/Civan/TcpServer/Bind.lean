import Mathlib.Tactic

/-!
# TcpServer::bind

`bind` makes a socket for every address, binds it and puts it in the listening state.
It is meant to keep all the new sockets or none of them.

What the system calls answer is given with each address.  `Socket::listen` reports
success whatever `::listen` answers, and after a failure `m_socks` is cleared as a
whole, with the sockets of earlier calls.
-/

namespace Civan
namespace TcpServer

universe u

section Model

/-- `bound` and `listening` are what the kernel did with the descriptor. -/
structure Socket (Addr : Type u) where
  family : ℤ
  sock : ℤ
  bound : Option Addr
  listening : Bool
deriving DecidableEq, Repr

/-- What `::socket`, `::bind` and `::listen` return. -/
structure Answers where
  socket : ℤ
  bind : ℤ
  listen : ℤ
deriving DecidableEq, Repr

variable {Addr : Type u} (getFamily : Addr → ℤ)

namespace Socket

/-- `Socket::CreateTCP`. -/
def createTCP (addr : Addr) : Socket Addr :=
  { family := getFamily addr, sock := -1, bound := none, listening := false }

def isValid (s : Socket Addr) : Bool :=
  s.sock != -1

def newSock (k : Answers) (s : Socket Addr) : Socket Addr :=
  { s with sock := k.socket }

def bind (k : Answers) (addr : Addr) (s : Socket Addr) : Bool × Socket Addr :=
  let s := if s.isValid = false then s.newSock k else s
  if s.isValid = false then
    (false, s)
  else if getFamily addr ≠ s.family then
    (false, s)
  else if k.bind ≠ 0 then
    (false, s)
  else
    (true, { s with bound := some addr })

/-- A failure of `::listen` is logged and nothing else. -/
def listen (k : Answers) (s : Socket Addr) : Bool × Socket Addr :=
  if s.isValid = false then
    (false, s)
  else if k.listen ≠ 0 then
    (true, s)
  else
    (true, { s with listening := true })

end Socket

/-- One round of the loop, with `m_socks` and `fails`. -/
def bindOne (st : List (Socket Addr) × List Addr) (c : Addr × Answers) :
    List (Socket Addr) × List Addr :=
  let b := (Socket.createTCP getFamily c.1).bind getFamily c.2 c.1
  if b.1 = false then
    (st.1, st.2 ++ [c.1])
  else
    let l := b.2.listen c.2
    if l.1 = false then (st.1, st.2 ++ [c.1]) else (st.1 ++ [l.2], st.2)

structure BindResult (Addr : Type u) where
  ret : Bool
  socks : List (Socket Addr)
  fails : List Addr
deriving DecidableEq, Repr

/-- `TcpServer::bind`, called with `m_socks` and `fails`. -/
def bind (socks : List (Socket Addr)) (fails : List Addr) (calls : List (Addr × Answers)) :
    BindResult Addr :=
  let st := calls.foldl (bindOne getFamily) (socks, fails)
  if st.2 ≠ [] then
    { ret := false, socks := [], fails := st.2 }
  else
    { ret := true, socks := st.1, fails := st.2 }

end Model

section Purpose

variable {Addr : Type u} (getFamily : Addr → ℤ)

/-- There is a socket, and it is bound. -/
def Answers.Bound (k : Answers) : Prop :=
  k.socket ≠ -1 ∧ k.bind = 0

/-- It is bound and it listens. -/
def Answers.Served (k : Answers) : Prop :=
  k.Bound ∧ k.listen = 0

instance : DecidablePred Answers.Bound :=
  fun k => inferInstanceAs (Decidable (k.socket ≠ -1 ∧ k.bind = 0))

instance : DecidablePred Answers.Served :=
  fun k => inferInstanceAs (Decidable (k.Bound ∧ k.listen = 0))

/-- The socket of an address that is served. -/
def servedSocket (c : Addr × Answers) : Socket Addr :=
  { family := getFamily c.1, sock := c.2.socket, bound := some c.1, listening := true }

/-- All the new sockets are kept, or none and the addresses at fault are listed. -/
structure AllOrNothing
    (prior : List (Socket Addr)) (calls : List (Addr × Answers)) (r : BindResult Addr) :
    Prop where
  ret_iff : r.ret = true ↔ ∀ c ∈ calls, c.2.Served
  all : r.ret = true → r.socks = prior ++ calls.map (servedSocket getFamily)
  fails : r.ret = false → r.fails = (calls.filter fun c => ¬ c.2.Served).map Prod.fst
  nothing : r.ret = false → r.socks = prior

end Purpose

section Loop

variable {Addr : Type u} (getFamily : Addr → ℤ)

/-- The socket of an address that is bound, whether it listens or not. -/
def boundSocket (c : Addr × Answers) : Socket Addr :=
  { servedSocket getFamily c with listening := decide (c.2.listen = 0) }

theorem bind_createTCP (k : Answers) (addr : Addr) :
    (Socket.createTCP getFamily addr).bind getFamily k addr =
      if k.Bound then
        (true, ⟨getFamily addr, k.socket, some addr, false⟩)
      else
        (false, ⟨getFamily addr, k.socket, none, false⟩) := by
  have hfresh : (Socket.createTCP getFamily addr).isValid = false := rfl
  rw [Socket.bind, if_pos hfresh]
  by_cases hsocket : k.socket = -1
  · simp [Socket.createTCP, Socket.newSock, Socket.isValid, Answers.Bound, hsocket]
  · by_cases hbind : k.bind = 0
    · simp [Socket.createTCP, Socket.newSock, Socket.isValid, Answers.Bound, hsocket, hbind]
    · simp [Socket.createTCP, Socket.newSock, Socket.isValid, Answers.Bound, hsocket, hbind]

theorem listen_eq (k : Answers)
    {s : Socket Addr} (hvalid : s.sock ≠ -1) (hfresh : s.listening = false) :
    s.listen k = (true, { s with listening := decide (k.listen = 0) }) := by
  have hvalid' : s.isValid = true := by simpa [Socket.isValid] using hvalid
  rw [Socket.listen, hvalid', if_neg Bool.noConfusion]
  by_cases hlisten : k.listen = 0
  · simp [hlisten]
  · simp [hlisten, ← hfresh]

/-- `::listen` has no say in what becomes of an address. -/
theorem bindOne_eq (st : List (Socket Addr) × List Addr) (c : Addr × Answers) :
    bindOne getFamily st c =
      if c.2.Bound then
        (st.1 ++ [boundSocket getFamily c], st.2)
      else
        (st.1, st.2 ++ [c.1]) := by
  rw [bindOne, bind_createTCP]
  by_cases hbound : c.2.Bound
  · rw [if_pos hbound, if_pos hbound]
    dsimp only
    rw [listen_eq c.2 hbound.1 rfl]
    rfl
  · rw [if_neg hbound, if_neg hbound]
    rfl

theorem foldl_bindOne (calls : List (Addr × Answers)) (st : List (Socket Addr) × List Addr) :
    calls.foldl (bindOne getFamily) st =
      (st.1 ++ (calls.filter fun c => c.2.Bound).map (boundSocket getFamily),
        st.2 ++ (calls.filter fun c => ¬ c.2.Bound).map Prod.fst) := by
  induction calls generalizing st with
  | nil => simp
  | cons c calls ih =>
    rw [List.foldl_cons, ih, bindOne_eq]
    by_cases hbound : c.2.Bound
    · simp [hbound]
    · simp [hbound]

theorem bind_eq (prior : List (Socket Addr)) (calls : List (Addr × Answers)) :
    bind getFamily prior [] calls =
      if ∀ c ∈ calls, c.2.Bound then
        ⟨true, prior ++ calls.map (boundSocket getFamily), []⟩
      else
        ⟨false, [], (calls.filter fun c => ¬ c.2.Bound).map Prod.fst⟩ := by
  rw [bind, foldl_bindOne]
  dsimp only
  rw [List.nil_append]
  by_cases hall : ∀ c ∈ calls, c.2.Bound
  · have hbound : (calls.filter fun c => c.2.Bound) = calls :=
      List.filter_eq_self.mpr fun c hc => decide_eq_true (hall c hc)
    have hnone : (calls.filter fun c => ¬ c.2.Bound) = [] :=
      List.filter_eq_nil_iff.mpr fun c hc => by simpa using hall c hc
    rw [if_pos hall, hnone, hbound]
    rfl
  · have hsome : (calls.filter fun c => ¬ c.2.Bound).map Prod.fst ≠ [] := by
      rw [ne_eq, List.map_eq_nil_iff, List.filter_eq_nil_iff]
      simpa using hall
    rw [if_neg hall, if_pos hsome]

end Loop

section Result

variable {Addr : Type u} (getFamily : Addr → ℤ) {calls : List (Addr × Answers)}

/-- The addresses that are not bound are all that are not served if and only if no
`::listen` fails. -/
theorem fails_eq_iff :
    (calls.filter fun c => ¬ c.2.Bound).map Prod.fst =
        (calls.filter fun c => ¬ c.2.Served).map Prod.fst ↔
      ∀ c ∈ calls, c.2.Bound → c.2.listen = 0 := by
  constructor
  · intro h c hc hbound
    -- the first list is a part of the second, so it is as long only if they are equal
    have hpart :
        ((calls.filter fun c => ¬ c.2.Served).filter fun c => ¬ c.2.Bound) =
          calls.filter fun c => ¬ c.2.Bound := by
      rw [List.filter_filter]
      apply List.filter_congr
      intro d _
      by_cases hd : d.2.Bound
      · simp [hd]
      · simp [hd, Answers.Served]
    have hlength := congrArg List.length h
    rw [List.length_map, List.length_map, ← hpart] at hlength
    have heq := List.filter_sublist.eq_of_length hlength
    by_contra hlisten
    have hmem : c ∈ calls.filter fun c => ¬ c.2.Served := by
      rw [List.mem_filter]
      exact ⟨hc, decide_eq_true fun hserved => hlisten hserved.2⟩
    rw [← heq, List.mem_filter] at hmem
    exact of_decide_eq_true hmem.2 hbound
  · intro h
    congr 1
    apply List.filter_congr
    intro c hc
    have hiff : c.2.Bound ↔ c.2.Served :=
      ⟨fun hbound => ⟨hbound, h c hc hbound⟩, fun hserved => hserved.1⟩
    simp only [hiff]

/-- `bind` is all or nothing if and only if no `::listen` fails and, unless every address
is bound, there were no sockets before. -/
theorem bind_all_or_nothing_iff (prior : List (Socket Addr)) (calls : List (Addr × Answers)) :
    AllOrNothing getFamily prior calls (bind getFamily prior [] calls) ↔
      (∀ c ∈ calls, c.2.Bound → c.2.listen = 0) ∧ ((∀ c ∈ calls, c.2.Bound) ∨ prior = []) := by
  rw [bind_eq]
  by_cases hall : ∀ c ∈ calls, c.2.Bound
  · rw [if_pos hall]
    constructor
    · intro h
      exact ⟨fun c hc _ => (h.ret_iff.mp rfl c hc).2, .inl hall⟩
    · rintro ⟨hlisten, -⟩
      have hserved : ∀ c ∈ calls, c.2.Served :=
        fun c hc => ⟨hall c hc, hlisten c hc (hall c hc)⟩
      have hsockets : calls.map (boundSocket getFamily) = calls.map (servedSocket getFamily) := by
        apply List.map_congr_left
        intro c hc
        rw [boundSocket, (hserved c hc).2]
        rfl
      exact
        { ret_iff := ⟨fun _ => hserved, fun _ => rfl⟩
          all := fun _ => congrArg (prior ++ ·) hsockets
          fails := fun h => by cases h
          nothing := fun h => by cases h }
  · rw [if_neg hall]
    constructor
    · intro h
      exact ⟨fails_eq_iff.mp (h.fails rfl), .inr (h.nothing rfl).symm⟩
    · rintro ⟨hlisten, hbound | rfl⟩
      · exact absurd hbound hall
      · exact
          { ret_iff := ⟨fun h => (by cases h), fun h => absurd (fun c hc => (h c hc).1) hall⟩
            all := fun h => by cases h
            fails := fun _ => fails_eq_iff.mpr hlisten
            nothing := fun _ => rfl }

/-- An address whose `::listen` fails is reported as served; and a port in use costs the
server the socket it had. -/
theorem bind_not_all_or_nothing :
    ¬ AllOrNothing (fun _ : ℕ => 2) [] [(80, ⟨3, 0, -1⟩)]
        (bind (fun _ => 2) [] [] [(80, ⟨3, 0, -1⟩)]) ∧
      ¬ AllOrNothing (fun _ : ℕ => 2) [⟨2, 3, some 80, true⟩] [(81, ⟨4, -1, 0⟩)]
        (bind (fun _ => 2) [⟨2, 3, some 80, true⟩] [] [(81, ⟨4, -1, 0⟩)]) := by
  constructor
  · intro h
    have hserved := h.ret_iff.mp (by decide) _ (List.mem_singleton_self _)
    exact absurd hserved.2 (by decide)
  · intro h
    have hsocks := h.nothing (by decide)
    exact absurd hsocks (by decide)

end Result

end TcpServer
end Civan
