import Civan.Address.Subnet
import Civan.Lib.Ipv6Text

/-!
# IP addresses: the text of an IPv6 address

`IPv6Address::insert` walks once over the eight groups.  Until the first group that is
not zero behind a zero it leaves zeros out and remembers nothing about them; the `::`
is written when it meets that group, or after the loop.

The invariant of the walk says what the text so far stands for: groups that are not
zero and a run of zeros not written yet, or two lists of groups with `::` between them.
-/

namespace Civan
namespace Address

open Bytes Ipv6Text

/-- What `insert` uses of a `std::ostream`: its text and whether `std::hex` is set. -/
structure Ostream where
  text : List Char
  hex : Bool
deriving DecidableEq, Repr

namespace Ostream

/-- `os << text`. -/
def str (os : Ostream) (text : String) : Ostream :=
  { os with text := os.text ++ text.toList }

/-- `os << value`. -/
def int (os : Ostream) (value : ℕ) : Ostream :=
  { os with text := os.text ++ Nat.toDigits (if os.hex then 16 else 10) value }

/-- `os << std::hex` and `os << std::dec`. -/
def setHex (os : Ostream) (hex : Bool) : Ostream :=
  { os with hex := hex }

end Ostream

/-- The two bytes of `s6_addr16[i]`, as they stand in memory. -/
def s6Pair (b : Vector UInt8 16) (i : ℕ) : List UInt8 :=
  (b.toList.drop (2 * i)).take 2

/-- `s6_addr16[i]`, loaded as an integer. -/
def s6Addr16 (host : Endian) (b : Vector UInt8 16) (i : ℕ) : BitVec 16 :=
  match host with
  | .little => BitVec.ofNat 16 (ofLeBytes (s6Pair b i))
  | .big => BitVec.ofNat 16 (ofLeBytes (s6Pair b i).reverse)

namespace IPv6Address

variable (host : Endian)

def getPort (m : SockaddrIn6) : BitVec 16 :=
  byteswapOnLittleEndian host 2 m.port

/-- One round of the loop of `insert`, with the stream and `used_zeros`. -/
def insertGroup (addr : ℕ → BitVec 16) (s : Ostream × Bool) (i : ℕ) : Ostream × Bool :=
  if addr i = 0 ∧ s.2 = false then
    s
  else
    let s := if i ≠ 0 ∧ addr (i - 1) = 0 ∧ s.2 = false then (s.1.str ":", true) else s
    let os := if i ≠ 0 then s.1.str ":" else s.1
    let value := byteswapOnLittleEndian host 2 (addr i)
    (((os.setHex true).int value.toNat).setHex false, s.2)

/-- The loop of `insert`, and the `::` of zeros at the end. -/
def insertGroups (addr : ℕ → BitVec 16) (os : Ostream) : Ostream :=
  let s := (List.range 8).foldl (insertGroup host addr) (os, false)
  if s.2 = false ∧ addr 7 = 0 then s.1.str "::" else s.1

def insert (m : SockaddrIn6) (os : Ostream) : Ostream :=
  let os := insertGroups host (s6Addr16 host m.addr) (os.str "[")
  (os.str "]:").int (byteswapOnLittleEndian host 2 m.port).toNat

end IPv6Address

section Groups

variable (host : Endian)

/-- The groups of an address, as `insert` prints them. -/
def groupValue (addr : ℕ → BitVec 16) (i : ℕ) : ℕ :=
  (byteswapOnLittleEndian host 2 (addr i)).toNat

def firstGroups (addr : ℕ → BitVec 16) (n : ℕ) : List ℕ :=
  (List.range n).map (groupValue host addr)

theorem firstGroups_succ (addr : ℕ → BitVec 16) (n : ℕ) :
    firstGroups host addr (n + 1) = firstGroups host addr n ++ [groupValue host addr n] := by
  rw [firstGroups, List.range_succ, List.map_append]
  rfl

theorem length_firstGroups (addr : ℕ → BitVec 16) (n : ℕ) :
    (firstGroups host addr n).length = n := by
  rw [firstGroups, List.length_map, List.length_range]

theorem firstGroups_lt (addr : ℕ → BitVec 16) (n : ℕ) :
    ∀ g ∈ firstGroups host addr n, g < 2 ^ 16 := by
  intro g hg
  obtain ⟨i, -, rfl⟩ := List.mem_map.mp hg
  exact BitVec.isLt _

theorem groupValue_eq_zero_iff (addr : ℕ → BitVec 16) (i : ℕ) :
    groupValue host addr i = 0 ↔ addr i = 0 := by
  have hzero : byteswapOnLittleEndian host 2 0 = 0 := by
    cases host with
    | little => rfl
    | big => rfl
  constructor
  · intro h
    have hswap : byteswapOnLittleEndian host 2 (addr i) = 0 := BitVec.eq_of_toNat_eq h
    rw [← byteswapOnLittleEndian_twice host (k := 2) (addr i), hswap, hzero]
  · intro h
    rw [groupValue, h, hzero]
    rfl

theorem length_s6Pair (b : Vector UInt8 16) {i : ℕ} (hi : i < 8) : (s6Pair b i).length = 2 := by
  simp [s6Pair]
  omega

theorem toNat_ofNat_ofLeBytes {l : List UInt8} (hl : l.length = 2) :
    (BitVec.ofNat 16 (ofLeBytes l)).toNat = ofLeBytes l := by
  have hlt := ofLeBytes_lt l
  rw [hl] at hlt
  exact Nat.mod_eq_of_lt hlt

/-- Both hosts print the two bytes with the first one high. -/
theorem groupValue_s6Addr16 (b : Vector UInt8 16) {i : ℕ} (hi : i < 8) :
    groupValue host (s6Addr16 host b) i = ofLeBytes (s6Pair b i).reverse := by
  have hlength := length_s6Pair b hi
  have hbig := toNat_ofNat_ofLeBytes ((List.length_reverse).trans hlength)
  cases host with
  | little =>
    have hbytes : leBytes 2 (ofLeBytes (s6Pair b i)) = s6Pair b i := by
      rw [← hlength, leBytes_ofLeBytes]
    change (byteswap 2 (BitVec.ofNat 16 (ofLeBytes (s6Pair b i)))).toNat = _
    rw [byteswap, toNat_ofNat_ofLeBytes hlength, hbytes]
    exact hbig
  | big => exact hbig

theorem groupBytes_ofLeBytes (x y : UInt8) : groupBytes (ofLeBytes [y, x]) = [x, y] := by
  have hx := x.toNat_lt
  have hy := y.toNat_lt
  have hvalue : ofLeBytes [y, x] = y.toNat + 256 * x.toNat := rfl
  rw [groupBytes, hvalue, show (y.toNat + 256 * x.toNat) / 256 = x.toNat by omega,
    show (y.toNat + 256 * x.toNat) % 256 = y.toNat by omega, UInt8.ofNat_toNat,
    UInt8.ofNat_toNat]

theorem flatMap_s6Pair (b : Vector UInt8 16) (n : ℕ) :
    (List.range n).flatMap (s6Pair b) = b.toList.take (2 * n) := by
  induction n with
  | zero => rfl
  | succ n ih =>
    rw [List.range_succ, List.flatMap_append, ih, List.flatMap_singleton, s6Pair,
      Nat.mul_succ, List.take_add]

theorem firstGroups_bytes (b : Vector UInt8 16) :
    (firstGroups host (s6Addr16 host b) 8).flatMap groupBytes = b.toList := by
  have hpair :
      ∀ i ∈ List.range 8, groupBytes (groupValue host (s6Addr16 host b) i) = s6Pair b i := by
    intro i hi
    have hi := List.mem_range.mp hi
    obtain ⟨x, y, hxy⟩ := List.length_eq_two.mp (length_s6Pair b hi)
    rw [groupValue_s6Addr16 host b hi, hxy]
    exact groupBytes_ofLeBytes x y
  rw [firstGroups, List.flatMap_map, List.flatMap_congr hpair, flatMap_s6Pair]
  exact List.take_of_length_le (by simp)

end Groups

section Walk

variable {host : Endian} {addr : ℕ → BitVec 16} {n zeros : ℕ} {ls : List ℕ} {start : List Char}

open IPv6Address

theorem insertGroup_skip (hzero : addr n = 0) (os : Ostream) :
    insertGroup host addr (os, false) n = (os, false) := by
  rw [insertGroup, if_pos ⟨hzero, rfl⟩]

theorem insertGroup_first (hzero : addr 0 ≠ 0) (text : List Char) :
    insertGroup host addr ({ text, hex := false }, false) 0 =
      ({ text := text ++ hex (groupValue host addr 0), hex := false }, false) := by
  rw [insertGroup, if_neg (fun h => hzero h.1)]
  rfl

theorem insertGroup_mark (hzero : addr (n + 1) ≠ 0) (hprev : addr n = 0) (text : List Char) :
    insertGroup host addr ({ text, hex := false }, false) (n + 1) =
      ({ text := text ++ ':' :: ':' :: hex (groupValue host addr (n + 1)), hex := false },
        true) := by
  rw [insertGroup, if_neg (fun h => hzero h.1), if_pos ⟨n.succ_ne_zero, hprev, rfl⟩]
  simp [Ostream.str, Ostream.int, Ostream.setHex, groupValue, hex]

theorem insertGroup_next {used : Bool} (hzero : addr (n + 1) ≠ 0 ∨ used = true)
    (hprev : addr n ≠ 0 ∨ used = true) (text : List Char) :
    insertGroup host addr ({ text, hex := false }, used) (n + 1) =
      ({ text := text ++ ':' :: hex (groupValue host addr (n + 1)), hex := false }, used) := by
  have hskip : ¬ (addr (n + 1) = 0 ∧ used = false) := by
    rintro ⟨h, rfl⟩
    exact hzero.elim (fun hne => hne h) Bool.false_ne_true
  have hmark : ¬ (n + 1 ≠ 0 ∧ addr (n + 1 - 1) = 0 ∧ used = false) := by
    rintro ⟨-, h, rfl⟩
    exact hprev.elim (fun hne => hne h) Bool.false_ne_true
  rw [insertGroup, if_neg hskip, if_neg hmark]
  simp [Ostream.str, Ostream.int, Ostream.setHex, groupValue, hex]

/-- There are zeros not written yet if and only if the last group is zero. -/
theorem pending_zeros_iff (hgroups : firstGroups host addr (n + 1) = ls ++ List.replicate zeros 0)
    (hls : 0 ∉ ls) :
    0 < zeros ↔ addr n = 0 := by
  rw [← groupValue_eq_zero_iff host]
  rw [firstGroups_succ] at hgroups
  cases zeros with
  | zero =>
    rw [List.replicate_zero, List.append_nil] at hgroups
    constructor
    · intro h
      cases h
    · intro h
      rw [← hgroups, h] at hls
      exact absurd (by simp) hls
  | succ zeros =>
    rw [List.replicate_succ', ← List.append_assoc] at hgroups
    have hlast := List.append_inj_right' hgroups rfl
    rw [List.cons.injEq] at hlast
    exact ⟨fun _ => hlast.1, fun _ => zeros.succ_pos⟩

variable (host addr) in
/-- What the walk has written when `n` groups are behind it. -/
inductive Written (start : List Char) (n : ℕ) : Ostream × Bool → Prop
  | pending {ls : List ℕ} {zeros : ℕ}
      (hgroups : firstGroups host addr n = ls ++ List.replicate zeros 0) (hls : 0 ∉ ls) :
      Written start n ({ text := start ++ joined ls, hex := false }, false)
  | compressed {ls rs : List ℕ} {zeros : ℕ}
      (hgroups : firstGroups host addr n = ls ++ List.replicate zeros 0 ++ rs)
      (hzeros : 0 < zeros) (hrs : rs ≠ []) :
      Written start n
        ({ text := start ++ (joined ls ++ ':' :: ':' :: joined rs), hex := false }, true)

theorem Written.of_groups (hgroups : firstGroups host addr n = ls) (hls : 0 ∉ ls) :
    Written host addr start n ({ text := start ++ joined ls, hex := false }, false) := by
  have hzeros : firstGroups host addr n = ls ++ List.replicate 0 0 := by
    rw [hgroups, List.replicate_zero, List.append_nil]
  exact .pending hzeros hls

theorem Written.insertGroup {s : Ostream × Bool} (h : Written host addr start n s) :
    Written host addr start (n + 1) (insertGroup host addr s n) := by
  have hgroup := firstGroups_succ host addr n
  cases h with
  | @pending ls zeros hgroups hls =>
    rw [hgroups] at hgroup
    by_cases hzero : addr n = 0
    · rw [(groupValue_eq_zero_iff host addr n).mpr hzero, List.append_assoc,
        ← List.replicate_succ'] at hgroup
      rw [insertGroup_skip hzero]
      exact .pending hgroup hls
    · have hmem : 0 ∉ ls ++ [groupValue host addr n] := by
        rw [List.mem_append, List.mem_singleton, eq_comm, groupValue_eq_zero_iff]
        exact not_or.mpr ⟨hls, hzero⟩
      cases n with
      | zero =>
        -- nothing is behind the walk yet
        obtain ⟨rfl, -⟩ := List.append_eq_nil_iff.mp hgroups.symm
        rw [insertGroup_first hzero, joined_nil, List.append_nil]
        have hfirst : firstGroups host addr 1 = [groupValue host addr 0] := rfl
        have h : Written host addr start 1 _ := .of_groups hfirst hmem
        rwa [joined_singleton] at h
      | succ m =>
        by_cases hprev : addr m = 0
        · have hzeros := (pending_zeros_iff hgroups hls).mpr hprev
          rw [insertGroup_mark hzero hprev, List.append_assoc]
          have h : Written host addr start (m + 2) _ :=
            .compressed hgroup hzeros (List.cons_ne_nil _ _)
          simpa using h
        · have hnone : zeros = 0 := by
            have hzeros := (pending_zeros_iff hgroups hls).not.mpr hprev
            omega
          subst hnone
          rw [List.replicate_zero, List.append_nil] at hgroup hgroups
          have hne : ls ≠ [] := by
            rw [← hgroups, firstGroups_succ]
            simp
          rw [insertGroup_next (.inl hzero) (.inl hprev), List.append_assoc,
            ← joined_append_singleton hne]
          exact .of_groups hgroup hmem
  | @compressed ls rs zeros hgroups hzeros hrs =>
    rw [hgroups, List.append_assoc] at hgroup
    cases n with
    | zero =>
      have hnone := congrArg List.length hgroups
      rw [length_firstGroups, List.length_append] at hnone
      have hpos := List.length_pos_of_ne_nil hrs
      omega
    | succ m =>
      have happend : rs ++ [groupValue host addr (m + 1)] ≠ [] :=
        List.append_ne_nil_of_right_ne_nil _ (List.cons_ne_nil _ _)
      have h : Written host addr start (m + 2) _ := .compressed hgroup hzeros happend
      rw [joined_append_singleton hrs] at h
      rw [insertGroup_next (.inr rfl) (.inr rfl)]
      simpa using h

theorem written_foldl (host : Endian) (addr : ℕ → BitVec 16) (start : List Char) (n : ℕ) :
    Written host addr start n
      ((List.range n).foldl (IPv6Address.insertGroup host addr)
        ({ text := start, hex := false }, false)) := by
  induction n with
  | zero =>
    have hnone : firstGroups host addr 0 = [] := rfl
    have h : Written host addr start 0 _ := .of_groups hnone List.not_mem_nil
    rwa [joined_nil, List.append_nil] at h
  | succ n ih =>
    rw [List.range_succ, List.foldl_append]
    exact ih.insertGroup

end Walk

section Text

open IPv6Address

variable (host : Endian)

theorem insertGroups_text (addr : ℕ → BitVec 16) (start : List Char) :
    ∃ A, Denotes A (firstGroups host addr 8) ∧
      insertGroups host addr { text := start, hex := false } =
        { text := start ++ A, hex := false } := by
  have hlt := firstGroups_lt host addr 8
  have hlength := length_firstGroups host addr 8
  unfold insertGroups
  generalize hs :
    (List.range 8).foldl (insertGroup host addr) ({ text := start, hex := false }, false) = s
  have hwritten := written_foldl host addr start 8
  rw [hs] at hwritten
  cases hwritten with
  | @pending ls zeros hgroups hls =>
    have hzeros := pending_zeros_iff hgroups hls
    rw [hgroups] at hlt hlength ⊢
    by_cases hlast : addr 7 = 0
    · -- the address ends with zeros
      have hlength : ls.length + zeros + ([] : List ℕ).length = 8 := by simpa using hlength
      have hdenotes :=
        denotes_compressed (hzeros.mpr hlast) hlength
          (fun g hg => hlt g (List.mem_append_left _ hg)) (by simp)
      rw [List.append_nil] at hdenotes
      refine ⟨_, hdenotes, ?_⟩
      rw [if_pos ⟨rfl, hlast⟩]
      simp [Ostream.str]
    · have hnone : zeros = 0 := by
        have hzeros := hzeros.not.mpr hlast
        omega
      subst hnone
      rw [List.replicate_zero, List.append_nil] at hlt hlength ⊢
      refine ⟨joined ls, denotes_joined hlength hlt, ?_⟩
      rw [if_neg (fun h => hlast h.2)]
  | @compressed ls rs zeros hgroups hzeros hrs =>
    rw [hgroups] at hlt hlength ⊢
    have hdenotes :=
      denotes_compressed hzeros (by simpa [Nat.add_assoc] using hlength)
        (fun g hg => hlt g (by simp [hg])) (fun g hg => hlt g (by simp [hg]))
    exact ⟨_, hdenotes, rfl⟩

/-- An address inserted into a stream without `std::hex` is text that stands for its
sixteen bytes and no others, in brackets, and the decimal port. -/
theorem insert_faithful (m : SockaddrIn6) (text : List Char) :
    ∃ A P, (IPv6Address.insert host m { text, hex := false }).text =
        text ++ '[' :: A ++ ']' :: ':' :: P ∧
      (∀ bytes, DenotesBytes A bytes ↔ bytes = m.addr.toList) ∧
      P = Nat.toDigits 10 (getPort host m).toNat := by
  obtain ⟨A, hdenotes, htext⟩ :=
    insertGroups_text host (s6Addr16 host m.addr) (text ++ ['['])
  refine ⟨A, _, ?_, ?_, rfl⟩
  · unfold IPv6Address.insert
    rw [show ({ text, hex := false } : Ostream).str "[" = { text := text ++ ['['], hex := false }
      from rfl, htext]
    simp [Ostream.str, Ostream.int, getPort]
  · intro bytes
    rw [hdenotes.bytes_iff, firstGroups_bytes]

end Text

end Address
end Civan
