import Civan.ByteArray.Varint64

/-!
# ByteArray: strings with a length

A string is written as its length and then its bytes.  Reading it back calls
`read` twice, and the second call goes through `m_cur` even if the string is
empty.  The only place where `m_cur` is null on the way is the end of the
capacity, so a list of strings fails to come back in one case: its last string
is empty, and the length of that string ends where the last node ends.
-/

namespace Civan
namespace ByteArray

open Bytes MachineInt

/-- The formats whose length prefix holds any string shorter than `2 ^ 32`. -/
inductive StringFormat where
  | f32
  | f64
  | vint
deriving DecidableEq, Repr

namespace StringFormat

def write : StringFormat → List UInt8 → Op Unit
  | .f32, value => writeStringF32 value
  | .f64, value => writeStringF64 value
  | .vint, value => writeStringVint value

def read : StringFormat → Op (List UInt8)
  | .f32 => readStringF32
  | .f64 => readStringF64
  | .vint => readStringVint

/-- The bytes of the length in front of a string of `n` bytes. -/
def lengthBytes (e : Endian) : StringFormat → ℕ → List UInt8
  | .f32, n => fixedImage e 4 (BitVec.ofNat 32 n)
  | .f64, n => fixedImage e 8 (BitVec.ofNat 64 n)
  | .vint, n => varint (BitVec.ofNat 64 n).toNat

end StringFormat

/-- A string with the format it travels in. -/
structure Text where
  format : StringFormat
  value : List UInt8
deriving DecidableEq, Repr

def Text.lengthBytes (e : Endian) (t : Text) : List UInt8 :=
  t.format.lengthBytes e t.value.length

def Text.encoding (e : Endian) (t : Text) : List UInt8 :=
  t.lengthBytes e ++ t.value

/-- Write the strings in order. -/
def writeStrings : List Text → Op Unit
  | [] => return ()
  | t :: ts => do
    t.format.write t.value
    writeStrings ts

/-- Read strings of the given formats in order. -/
def readStrings : List StringFormat → Op (List (List UInt8))
  | [] => return []
  | f :: fs => do
    let value ← f.read
    let values ← readStrings fs
    return value :: values

/-- Choose the byte order, write the strings, go back to the start and read
them with the matching functions. -/
def roundTripStrings (little : Bool) (ts : List Text) : Op (List (List UInt8)) := do
  modify (setIsLittleEndian little)
  writeStrings ts
  setPosition 0
  readStrings (ts.map Text.format)

/-- The last string of the list is empty. -/
def EndsEmpty (ts : List Text) : Prop :=
  ∃ t ∈ ts.getLast?, t.value = []

instance (ts : List Text) : Decidable (EndsEmpty ts) :=
  inferInstanceAs (Decidable (∃ t ∈ ts.getLast?, t.value = []))

theorem endsEmpty_singleton (t : Text) : EndsEmpty [t] ↔ t.value = [] := by
  simp [EndsEmpty]

theorem endsEmpty_cons (t : Text) {ts : List Text} (hts : ts ≠ []) :
    EndsEmpty (t :: ts) ↔ EndsEmpty ts := by
  rw [EndsEmpty, List.getLast?_cons_of_ne_nil hts]
  rfl

section Writes

variable {b : ByteArray} {data : List UInt8}

theorem Text.lengthBytes_ne_nil (e : Endian) (t : Text) : t.lengthBytes e ≠ [] := by
  unfold Text.lengthBytes
  cases t.format with
  | f32 => exact leBytes_succ_ne_nil 3 _
  | f64 => exact leBytes_succ_ne_nil 7 _
  | vint => exact varint_ne_nil _

/-- The capacity of an array that was appended to ends within the node of its
last byte. -/
structure Compact (b : ByteArray) (data : List UInt8) : Prop where
  appending : Appending b data
  snug : data ≠ [] → b.capacity < b.position + b.baseSize

theorem Compact.write (h : Compact b data) (buf : List UInt8) :
    ∃ b', write buf b = .ok () b' ∧ Compact b' (data ++ buf) ∧
      b'.baseSize = b.baseSize ∧ b'.endian = b.endian := by
  obtain ⟨b', hwrite, happ, hbase, hend⟩ := h.appending.write buf
  refine ⟨b', hwrite, ⟨happ, ?_⟩, hbase, hend⟩
  intro hne
  by_cases hbuf : buf = []
  · subst hbuf
    rw [write_nil, EStateM.Result.ok.injEq] at hwrite
    rw [List.append_nil] at hne
    rw [← hwrite.2]
    exact h.snug hne
  · exact h.appending.capacity_lt_of_write hbuf hwrite

theorem Text.write_eq (t : Text) (b : ByteArray) :
    t.format.write t.value b =
      (ByteArray.write (t.lengthBytes b.endian) >>= fun _ => ByteArray.write t.value) b := by
  unfold Text.lengthBytes
  cases t.format <;> rfl

theorem writeStrings_compact (ts : List Text) (h : Compact b data) :
    ∃ b', writeStrings ts b = .ok () b' ∧
      Compact b' (data ++ ts.flatMap (Text.encoding b.endian)) ∧
      b'.baseSize = b.baseSize ∧ b'.endian = b.endian := by
  induction ts generalizing b data with
  | nil =>
    refine ⟨b, rfl, ?_, rfl, rfl⟩
    rw [List.flatMap_nil, List.append_nil]
    exact h
  | cons t ts ih =>
    obtain ⟨b₁, hlen, h₁, hbase₁, hend₁⟩ := h.write (t.lengthBytes b.endian)
    obtain ⟨b₂, hvalue, h₂, hbase₂, hend₂⟩ := h₁.write t.value
    obtain ⟨b', hrest, h', hbase', hend'⟩ := ih h₂
    have hend : b₂.endian = b.endian := hend₂.trans hend₁
    refine ⟨b', ?_, ?_, hbase'.trans (hbase₂.trans hbase₁), hend'.trans hend⟩
    · have hfirst : t.format.write t.value b = .ok () b₂ := by
        rw [t.write_eq, bind_of_ok hlen, hvalue]
      rw [writeStrings, bind_of_ok hfirst]
      exact hrest
    · rw [hend, List.append_assoc, List.append_assoc] at h'
      rw [List.flatMap_cons, Text.encoding, List.append_assoc]
      exact h'

/-- The contents fill the capacity exactly when they end on a node boundary. -/
theorem Compact.capacity_eq_iff (h : Compact b data) (hne : data ≠ []) :
    b.capacity = data.length ↔ data.length % b.baseSize = 0 := by
  have hwf := h.appending.represents.wf
  have hpos : data.length = b.position := h.appending.represents.pos_eq
  have hle : b.position ≤ b.capacity := Nat.le_trans hwf.position_le hwf.size_le
  have hcap : b.capacity % b.baseSize = 0 := by
    rw [hwf.capacity_eq]
    exact Nat.mul_mod_left _ _
  have hsnug := h.snug hne
  rw [hpos]
  constructor
  · intro heq
    rw [← heq]
    exact hcap
  · intro hmod
    by_contra hcon
    have := add_le_of_lt_of_multiples hmod hcap (by omega)
    omega

end Writes

section Reads

variable {b : ByteArray}

theorem Text.read_length {t : Text} {m : List UInt8} (hlt : t.value.length < 2 ^ 32)
    (h : Holds b (t.lengthBytes b.endian ++ m)) :
    ∃ b', t.format.read b = readString t.value.length b' ∧
      Consumed b b' (t.lengthBytes b.endian).length := by
  unfold Text.lengthBytes at h ⊢
  cases hf : t.format with
  | f32 =>
    rw [hf] at h
    obtain ⟨b', hread, hcons⟩ := readFixed_fixedImage (k := 3) h
    refine ⟨b', ?_, hcons⟩
    have hnat : (BitVec.ofNat 32 t.value.length).toNat = t.value.length := by
      rw [BitVec.toNat_ofNat, Nat.mod_eq_of_lt hlt]
    change readStringF32 b = _
    rw [readStringF32, readFuint32, bind_of_ok hread]
    exact congrArg (readString · b') hnat
  | f64 =>
    rw [hf] at h
    obtain ⟨b', hread, hcons⟩ := readFixed_fixedImage (k := 7) h
    refine ⟨b', ?_, hcons⟩
    have hnat : (BitVec.ofNat 64 t.value.length).toNat = t.value.length := by
      rw [BitVec.toNat_ofNat, Nat.mod_eq_of_lt (by omega)]
    change readStringF64 b = _
    rw [readStringF64, readFuint64, bind_of_ok hread]
    exact congrArg (readString · b') hnat
  | vint =>
    rw [hf] at h
    obtain ⟨x, b', hread, hcons, hx⟩ := readUint64_varint h
    refine ⟨b', ?_, hcons⟩
    have hnat : (BitVec.ofNat 64 t.value.length).toNat = t.value.length := by
      rw [BitVec.toNat_ofNat, Nat.mod_eq_of_lt (by omega)]
    have hval : x = BitVec.ofNat 64 t.value.length := by
      rw [hx, hnat]
      exact hlt
    change readStringVint b = _
    rw [readStringVint, bind_of_ok hread, hval, hnat]

theorem readString_eq {n : ℕ} (hn : n < 2 ^ 32) : readString n = ByteArray.read n := by
  have hmax : 2 ^ 32 ≤ stringMaxSize := by decide
  rw [readString, if_neg (by omega)]

/-- A string comes back if it has bytes or if a node follows its length. -/
theorem Text.read_encoding {t : Text} {m : List UInt8} (hlt : t.value.length < 2 ^ 32)
    (h : Holds b (t.encoding b.endian ++ m))
    (hsafe : t.value = [] → (t.lengthBytes b.endian).length < b.ahead.length) :
    ∃ b', t.format.read b = .ok t.value b' ∧ Consumed b b' (t.encoding b.endian).length := by
  rw [Text.encoding, List.append_assoc] at h
  obtain ⟨b₁, hread, hcons⟩ := Text.read_length hlt h
  have h₁ := h.consumed hcons
  have hlen := h₁.length_eq
  rw [List.length_append] at hlen
  have hcur : b₁.cur ≠ none := by
    intro hnone
    have hnil := hcons.wf.cur_eq_none_iff.mp hnone
    rw [hcons.ahead_eq, List.drop_eq_nil_iff] at hnil
    have hreadSize := hcons.wf.getReadSize_le_ahead
    rw [hcons.ahead_eq, List.length_drop] at hreadSize
    by_cases hempty : t.value = []
    · have := hsafe hempty
      omega
    · have := List.length_pos_iff.mpr hempty
      omega
  obtain ⟨b', hstring, hcons'⟩ := read_spec_of_cur hcons.wf (n := t.value.length) hcur (by omega)
  rw [h₁.take_ahead] at hstring
  refine ⟨b', ?_, ?_⟩
  · rw [hread, readString_eq hlt, hstring]
  · rw [Text.encoding, List.length_append]
    exact hcons.trans hcons'

theorem Text.read_null {t : Text} {m : List UInt8} (hempty : t.value = [])
    (h : Holds b (t.encoding b.endian ++ m))
    (hend : b.ahead.length = (t.lengthBytes b.endian).length) :
    ∃ b', t.format.read b = .error .nullDeref b' := by
  have hlt : t.value.length < 2 ^ 32 := by
    rw [hempty]
    decide
  rw [Text.encoding, List.append_assoc] at h
  obtain ⟨b₁, hread, hcons⟩ := Text.read_length hlt h
  have hcur : b₁.cur = none := by
    rw [hcons.wf.cur_eq_none_iff, hcons.ahead_eq, List.drop_eq_nil_iff]
    exact hend.le
  refine ⟨b₁, ?_⟩
  rw [hread, readString_eq hlt, hempty]
  exact ByteArray.read_null hcur (Nat.zero_le _)

theorem encoding_ne_nil (e : Endian) {ts : List Text} (hts : ts ≠ []) :
    ts.flatMap (Text.encoding e) ≠ [] := by
  obtain ⟨t, ts, rfl⟩ := List.exists_cons_of_ne_nil hts
  rw [List.flatMap_cons, Text.encoding]
  simp [t.lengthBytes_ne_nil e]

/-- The last string is empty, and its length ends where the node list ends. -/
def MeetsEnd (b : ByteArray) (ts : List Text) : Prop :=
  EndsEmpty ts ∧ b.ahead.length = (ts.flatMap (Text.encoding b.endian)).length

theorem meetsEnd_singleton (t : Text) :
    MeetsEnd b [t] ↔ t.value = [] ∧ b.ahead.length = (t.lengthBytes b.endian).length := by
  rw [MeetsEnd, endsEmpty_singleton, List.flatMap_singleton, Text.encoding]
  refine and_congr_right fun hempty => ?_
  rw [hempty, List.append_nil]

/-- What follows the first string decides, if anything follows it. -/
theorem meetsEnd_cons {t : Text} {ts : List Text} (hts : ts ≠ [])
    {b₁ : ByteArray} (hcons : Consumed b b₁ (t.encoding b.endian).length) :
    MeetsEnd b (t :: ts) ↔ MeetsEnd b₁ ts := by
  have hpos := List.length_pos_iff.mpr (encoding_ne_nil b.endian hts)
  rw [MeetsEnd, MeetsEnd, endsEmpty_cons t hts, List.flatMap_cons, List.length_append,
    hcons.endian_eq, hcons.ahead_eq, List.length_drop]
  refine and_congr_right fun _ => ?_
  omega

/-- A string that does not meet the end leaves bytes or a node after its length. -/
theorem lengthBytes_lt_ahead {t : Text} {ts : List Text}
    (h : Holds b (t.encoding b.endian ++ ts.flatMap (Text.encoding b.endian)))
    (hmeets : ts = [] → ¬ MeetsEnd b [t]) (hempty : t.value = []) :
    (t.lengthBytes b.endian).length < b.ahead.length := by
  have hahead := h.wf.getReadSize_le_ahead
  have hlen := h.length_eq
  rw [Text.encoding, hempty, List.append_nil, List.length_append] at hlen
  by_cases hts : ts = []
  · have hne : b.ahead.length ≠ (t.lengthBytes b.endian).length :=
      fun hend => hmeets hts ((meetsEnd_singleton t).mpr ⟨hempty, hend⟩)
    omega
  · have := List.length_pos_iff.mpr (encoding_ne_nil b.endian hts)
    omega

/-- Only the last string can meet the end of the node list; all others come back. -/
theorem readStrings_encoding (ts : List Text) (hlt : ∀ t ∈ ts, t.value.length < 2 ^ 32)
    (h : Holds b (ts.flatMap (Text.encoding b.endian))) :
    (¬ MeetsEnd b ts →
      ∃ b', readStrings (ts.map Text.format) b = .ok (ts.map Text.value) b' ∧
        Consumed b b' (ts.flatMap (Text.encoding b.endian)).length) ∧
    (MeetsEnd b ts → ∃ b', readStrings (ts.map Text.format) b = .error .nullDeref b') := by
  induction ts generalizing b with
  | nil =>
    refine ⟨fun _ => ⟨b, rfl, Consumed.refl h.wf⟩, ?_⟩
    rintro ⟨⟨t, ht, _⟩, _⟩
    simp at ht
  | cons t ts ih =>
    have ht := hlt t List.mem_cons_self
    rw [List.flatMap_cons] at h ⊢
    by_cases hlast : ts = [] ∧ MeetsEnd b [t]
    · obtain ⟨rfl, hmeets⟩ := hlast
      obtain ⟨hempty, hend⟩ := (meetsEnd_singleton t).mp hmeets
      obtain ⟨b', hread⟩ := Text.read_null hempty h hend
      refine ⟨fun hnot => absurd hmeets hnot, fun _ => ⟨b', ?_⟩⟩
      rw [List.map_cons, readStrings, bind_of_error hread]
    · have hmeets : ts = [] → ¬ MeetsEnd b [t] := fun hts hm => hlast ⟨hts, hm⟩
      obtain ⟨b₁, hread, hcons⟩ :=
        Text.read_encoding ht h (lengthBytes_lt_ahead h hmeets)
      have h₁ := h.consumed hcons
      rw [← hcons.endian_eq] at h₁
      obtain ⟨hok, hfail⟩ := ih (fun u hu => hlt u (List.mem_cons_of_mem _ hu)) h₁
      have hiff : MeetsEnd b (t :: ts) ↔ MeetsEnd b₁ ts := by
        by_cases hts : ts = []
        · subst hts
          have hnone : ¬ MeetsEnd b₁ [] := by simp [MeetsEnd, EndsEmpty]
          exact iff_of_false (hmeets rfl) hnone
        · exact meetsEnd_cons hts hcons
      rw [hiff]
      constructor
      · intro hnot
        obtain ⟨b', hrest, hcons'⟩ := hok hnot
        rw [hcons.endian_eq] at hcons'
        refine ⟨b', ?_, ?_⟩
        · rw [List.map_cons, readStrings, bind_of_ok hread, bind_of_ok hrest]
          rfl
        · rw [List.length_append]
          exact hcons.trans hcons'
      · intro hm
        obtain ⟨b', hrest⟩ := hfail hm
        refine ⟨b', ?_⟩
        rw [List.map_cons, readStrings, bind_of_ok hread, bind_of_error hrest]

end Reads

/--
**Strings with a length.**  Whatever the node size, the byte order and the mix of
formats, the strings come back in order and nothing is left to read, unless the
last of them is empty and the encoding ends on a node boundary: then the last
read goes through a null node.
-/
theorem roundTripStrings_returns_written {baseSize : ℕ} (hbase : 1 ≤ baseSize)
    (uninit : ℕ → UInt8) (little : Bool) (ts : List Text)
    (hlt : ∀ t ∈ ts, t.value.length < 2 ^ 32) :
    let size := (ts.flatMap (Text.encoding (if little then .little else .big))).length
    (¬ (EndsEmpty ts ∧ size % baseSize = 0) →
      ∃ b', roundTripStrings little ts (new baseSize uninit) = .ok (ts.map Text.value) b' ∧
        b'.getReadSize = 0) ∧
    (EndsEmpty ts ∧ size % baseSize = 0 →
      ∃ b', roundTripStrings little ts (new baseSize uninit) = .error .nullDeref b') := by
  intro size
  set b₀ := setIsLittleEndian little (new baseSize uninit) with hb₀
  set e : Endian := if little then .little else .big with he
  have hstart : Compact b₀ [] :=
    ⟨appending_of_empty (wf_setIsLittleEndian (wf_new hbase uninit) little) rfl rfl rfl rfl,
      fun hne => absurd rfl hne⟩
  have hend₀ : b₀.endian = e := rfl
  obtain ⟨b₁, hwrite, hcompact, hbase₁, hend₁⟩ := writeStrings_compact ts hstart
  rw [List.nil_append, hend₀] at hcompact
  obtain ⟨b₂, hset, hpos, hnodes, _, hend₂⟩ :=
    hcompact.appending.represents.setPosition (Nat.zero_le _)
  have hend : b₂.endian = e := hend₂.trans (hend₁.trans hend₀)
  have hholds : Holds b₂ (ts.flatMap (Text.encoding e)) := hpos.holds
  have hlen := hholds.length_eq
  have hahead : b₂.ahead.length = b₁.capacity := by
    have hzero : b₂.position = 0 := hpos.represents.pos_eq.symm
    have hcur := hpos.inPlace (by rw [hzero]; exact hholds.wf.capacity_pos)
    rw [hholds.wf.ahead_of_cur hcur, hzero, Nat.zero_div, Nat.zero_mul, Nat.zero_mod,
      List.drop_zero, hnodes, hcompact.appending.represents.wf.length_flat]
  have hiff : MeetsEnd b₂ ts ↔ EndsEmpty ts ∧ size % baseSize = 0 := by
    rw [MeetsEnd, hend, hahead]
    refine and_congr_right fun hempty => ?_
    have hne : ts ≠ [] := by
      rintro rfl
      simp [EndsEmpty] at hempty
    rw [hcompact.capacity_eq_iff (encoding_ne_nil e hne), hbase₁]
    rfl
  have hrun : roundTripStrings little ts (new baseSize uninit) =
      readStrings (ts.map Text.format) b₂ := by
    have hmodify : (modify (setIsLittleEndian little) : Op Unit) (new baseSize uninit) =
        .ok () b₀ := rfl
    rw [roundTripStrings, bind_of_ok hmodify, bind_of_ok hwrite, bind_of_ok hset]
  rw [← hend] at hholds
  obtain ⟨hok, hfail⟩ := readStrings_encoding ts hlt hholds
  rw [hrun, ← hiff]
  refine ⟨fun hnot => ?_, hfail⟩
  obtain ⟨b₃, hread, hcons⟩ := hok hnot
  rw [hend] at hcons
  refine ⟨b₃, hread, ?_⟩
  rw [hcons.readSize_eq, hlen, Nat.sub_self]

/-- Three formats in nodes of three bytes, with an empty string in the middle. -/
theorem roundTripStrings_mixed_formats :
    ∃ b',
      roundTripStrings true [⟨.f32, [1]⟩, ⟨.f64, []⟩, ⟨.f32, [2, 3]⟩] (new 3 (fun _ => 0)) =
        .ok [[1], [], [2, 3]] b' ∧
      b'.getReadSize = 0 :=
  (roundTripStrings_returns_written (by decide) (fun _ => 0) true
    [⟨.f32, [1]⟩, ⟨.f64, []⟩, ⟨.f32, [2, 3]⟩] (by decide)).1 (by decide)

/-- One empty string whose length fills the only node. -/
theorem roundTripStrings_empty_at_end :
    ∃ b', roundTripStrings true [⟨.f32, []⟩] (new 4 (fun _ => 0)) = .error .nullDeref b' :=
  ⟨_, rfl⟩

end ByteArray
end Civan
