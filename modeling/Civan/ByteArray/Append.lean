import Civan.ByteArray.FlatBuffer

/-!
# ByteArray: appending

An array that is only appended to never has a spare node: `addCapacity` makes
just enough of them, so the capacity stays within one node of the position.  A
write that ends on a node boundary therefore ends at the capacity, where the
next `addCapacity` moves the cursor to the first new node.  The cursor is never
left behind, and the contents grow by exactly the bytes written.
-/

namespace Civan
namespace ByteArray

open Segment

/-- The array holds `data`, with the position at its end. -/
structure Appending (b : ByteArray) (data : List UInt8) : Prop where
  represents : Represents b { data := data, pos := data.length }
  inPlace : InPlace b
  cur_ne : b.cur ≠ none
  tight : b.capacity ≤ b.position + b.baseSize

/-- The array holds `data` and stands at `pos`, with the cursor on the node of
the position. -/
structure Positioned (b : ByteArray) (data : List UInt8) (pos : ℕ) : Prop where
  represents : Represents b { data := data, pos := pos }
  inPlace : InPlace b

section Appending

variable {b : ByteArray} {data : List UInt8}

theorem appending_of_empty (h : Wf b) (hcap : b.capacity = b.baseSize)
    (hpos : b.position = 0) (hsize : b.size = 0) (hcur : b.cur = some 0) :
    Appending b [] where
  represents :=
    { wf := h
      pos_eq := hpos.symm
      data_eq := by rw [hsize, List.take_zero]
      cursor := Or.inl fun _ => by rw [hcur, hpos, Nat.zero_div] }
  inPlace := fun _ => by rw [hcur, hpos, Nat.zero_div]
  cur_ne := by
    rw [hcur]
    exact Option.some_ne_none 0
  tight := by omega

theorem appending_new {baseSize : ℕ} (hbase : 0 < baseSize) (uninit : ℕ → UInt8) :
    Appending (new baseSize uninit) [] :=
  appending_of_empty (wf_new hbase uninit) rfl rfl rfl rfl

theorem clear_appending (h : Wf b) :
    ∃ b', clear b = .ok () b' ∧ Appending b' [] ∧ b'.baseSize = b.baseSize := by
  obtain ⟨b', hclear, hwf, hbase, hcap, hpos, hsize, hcur⟩ := clear_ok h
  refine ⟨b', hclear, ?_, hbase⟩
  exact appending_of_empty hwf (hcap.trans hbase.symm) hpos hsize hcur

/-- A multiple of the node size above another one is a whole node above it. -/
theorem add_le_of_lt_of_multiples {base m c : ℕ} (hm : m % base = 0) (hc : c % base = 0)
    (hlt : m < c) :
    m + base ≤ c := by
  obtain ⟨q, rfl⟩ := Nat.dvd_of_mod_eq_zero hm
  obtain ⟨r, rfl⟩ := Nat.dvd_of_mod_eq_zero hc
  have hqr : q < r := Nat.lt_of_mul_lt_mul_left hlt
  have hmul := Nat.mul_le_mul_left base hqr
  rw [Nat.mul_succ] at hmul
  exact hmul

/-- Within one node of the capacity the cursor cannot have been left behind. -/
theorem Represents.inPlace_of_tight {a : FlatBuffer} (h : Represents b a)
    (htight : b.capacity < b.position + b.baseSize) :
    InPlace b := by
  rcases h.cursor with hplace | ⟨_, hlt, hmod, _⟩
  · exact hplace
  · have hcap : b.capacity % b.baseSize = 0 := by
      rw [h.wf.capacity_eq]
      exact Nat.mul_mod_left _ _
    have := add_le_of_lt_of_multiples hmod hcap hlt
    omega

/-- After a write the capacity ends within the node of the last byte. -/
theorem Appending.capacity_lt_of_write (h : Appending b data) {buf : List UInt8} (hbuf : buf ≠ [])
    {b' : ByteArray} (hwrite : ByteArray.write buf b = .ok () b') :
    b'.capacity < b'.position + b'.baseSize := by
  obtain ⟨b₁, b₂, j, hgrown, _, hwrite₂, hwritten⟩ :=
    write_ok h.represents.wf hbuf h.cur_ne
  obtain rfl : b' = b₂ := by
    rw [hwrite, EStateM.Result.ok.injEq] at hwrite₂
    exact hwrite₂.2
  have hlen : 0 < buf.length := List.length_pos_iff.mpr hbuf
  have hcap := hwritten.capacity_eq
  have hbase : b'.baseSize = b.baseSize := hwritten.baseSize_eq.trans hgrown.baseSize_eq
  have hpos : b'.position = b.position + buf.length := by
    rw [hwritten.position_eq, hgrown.position_eq]
  have h₁ := hgrown.tight
  have h₂ := h.tight
  have h₃ := h.represents.wf.base_pos
  omega

/-- **Appending.**  A write adds its bytes at the end. -/
theorem Appending.write (h : Appending b data) (buf : List UInt8) :
    ∃ b', write buf b = .ok () b' ∧ Appending b' (data ++ buf) ∧
      b'.baseSize = b.baseSize ∧ b'.endian = b.endian := by
  by_cases hbuf : buf = []
  · subst hbuf
    rw [List.append_nil]
    exact ⟨b, write_nil b, h, rfl, rfl⟩
  · obtain ⟨b', hwrite, hrep⟩ := represents_write h.represents hbuf h.inPlace h.cur_ne
    obtain ⟨b₁, b₂, j, hgrown, _, hwrite₂, hwritten⟩ :=
      write_ok h.represents.wf hbuf h.cur_ne
    obtain rfl : b' = b₂ := by
      rw [hwrite, EStateM.Result.ok.injEq] at hwrite₂
      exact hwrite₂.2
    have hbase : b'.baseSize = b.baseSize := hwritten.baseSize_eq.trans hgrown.baseSize_eq
    have htight := h.capacity_lt_of_write hbuf hwrite
    refine ⟨b', hwrite, ?_, hbase, hwritten.endian_eq.trans hgrown.endian_eq⟩
    rw [splice_length] at hrep
    exact
      { represents := by
          rw [List.length_append]
          exact hrep
        inPlace := hrep.inPlace_of_tight htight
        cur_ne := by
          rw [hwritten.cur_eq]
          exact Option.some_ne_none _
        tight := htight.le }

theorem Represents.setPosition {a : FlatBuffer} (h : Represents b a)
    {v : ℕ} (hv : v ≤ a.data.length) :
    ∃ b', ByteArray.setPosition v b = .ok () b' ∧ Positioned b' a.data v ∧
      b'.nodes = b.nodes ∧ b'.size = b.size ∧ b'.endian = b.endian := by
  rw [h.length_data] at hv
  have hcap := Nat.le_trans hv h.wf.size_le
  have hrep := represents_setPosition h hv
  refine ⟨_, setPosition_ok h.wf hcap, ⟨hrep, inPlace_afterSetPosition h.wf v⟩, rfl, ?_, rfl⟩
  simp only [afterSetPosition, if_neg (Nat.not_lt.mpr hv)]

theorem Positioned.toString {pos : ℕ} (h : Positioned b data pos) :
    ByteArray.toString b = .ok (data.drop pos) b := by
  have hread : b.getReadSize = data.length - pos := h.represents.readSize_eq
  by_cases hzero : b.getReadSize = 0
  · rw [toString_empty hzero, List.drop_of_length_le (by omega)]
  · have hsize := h.represents.wf.getReadSize_eq
    have hsle := h.represents.wf.size_le
    have hcur := h.inPlace (by omega)
    rw [toString_ok h.represents.wf hcur,
      h.represents.bytes_at_cursor hcur (fun _ => h.inPlace) (Nat.le_refl _),
      List.take_of_length_le (by rw [List.length_drop]; exact hread.ge)]

theorem Appending.rewind (h : Appending b data) :
    ∃ b', setPosition 0 b = .ok () b' ∧ Positioned b' data 0 ∧ (data = [] → Appending b' []) := by
  have hwf := h.represents.wf
  have hrep := represents_setPosition h.represents (v := 0) (Nat.zero_le _)
  have hplace := inPlace_afterSetPosition hwf 0
  refine ⟨_, setPosition_ok hwf (Nat.zero_le _), ⟨hrep, hplace⟩, ?_⟩
  intro hempty
  subst hempty
  have hpos : b.position = 0 := h.represents.pos_eq.symm
  have htight := h.tight
  rw [hpos] at htight
  exact
    { represents := hrep
      inPlace := hplace
      cur_ne := by
        rw [hplace hwf.capacity_pos]
        exact Option.some_ne_none _
      tight := htight }

end Appending

end ByteArray
end Civan
