import Civan.ByteArray.AppendCalls
import Civan.ByteArray.WriteToFile

/-!
# ByteArray: through a file and back

`readFromFile` appends the file in chunks of `m_baseSize` bytes and so gives back
what was written, whatever the two node sizes are.  `writeToFile` hands out the
rest of the array correctly from the start of a node, and from the middle of one
if at least `m_baseSize` bytes follow.  With fewer it takes the offset off the last
chunk as well, writes too little of it, and goes on to a node that is not there.
-/

namespace Civan
namespace ByteArray

open MachineInt Transition

section Model

/-- The loop of `readFromFile`, before a read that finds `file`.  The stream reports
its end with the first read that finds fewer bytes than it was asked for.  `none`
when the fuel is used up. -/
def readFromFileLoop :
    ℕ → List UInt8 → ByteArray → Option (EStateM.Result Fault ByteArray Bool)
  | 0, _, _ => none
  | fuel + 1, file, b =>
    match write (file.take b.baseSize) b with
    | .error e b' => some (.error e b')
    | .ok _ b' =>
      if file.length < b.baseSize then
        some (.ok true b')
      else
        readFromFileLoop fuel (file.drop b.baseSize) b'

/-- `readFromFile(name)`, where `file` is what the name stands for, if it can be
opened. -/
def readFromFile (file : Option (List UInt8)) (b : ByteArray) :
    Option (EStateM.Result Fault ByteArray Bool) :=
  match file with
  | none => some (.ok false b)
  | some bytes => readFromFileLoop (bytes.length + 1) bytes b

/-- The positions from which `writeToFile` is right. -/
def WritesFrom (baseSize size p : ℕ) : Prop :=
  p = size ∨ p % baseSize = 0 ∨ (p % baseSize < 2 ^ 31 ∧ baseSize ≤ size - p)

end Model

section Reading

variable {b : ByteArray} {data : List UInt8}

theorem readFromFileLoop_appends (h : Appending b data)
    {fuel : ℕ} {file : List UInt8} (hfuel : file.length < fuel) :
    ∃ b', readFromFileLoop fuel file b = some (.ok true b') ∧ Appending b' (data ++ file) := by
  -- Induction on the fuel: every chunk but the last takes at least one byte of the file.
  induction fuel generalizing b data file with
  | zero => omega
  | succ fuel ih =>
    obtain ⟨b₁, hwrite, h₁, hbase₁, _⟩ := h.write (file.take b.baseSize)
    have hbase := h.represents.wf.base_pos
    rw [readFromFileLoop, hwrite]
    dsimp only
    by_cases hlast : file.length < b.baseSize
    · rw [if_pos hlast]
      rw [List.take_of_length_le hlast.le] at h₁
      exact ⟨b₁, rfl, h₁⟩
    · rw [if_neg hlast]
      have hshorter : (file.drop b.baseSize).length < fuel := by
        rw [List.length_drop]
        omega
      obtain ⟨b', hrest, h'⟩ := ih h₁ hshorter
      rw [List.append_assoc, List.take_append_drop] at h'
      exact ⟨b', hrest, h'⟩

theorem readFromFile_toString {baseSize : ℕ} (hbase : 1 ≤ baseSize)
    (uninit : ℕ → UInt8) (file : List UInt8) :
    ∃ b b', readFromFile (some file) (new baseSize uninit) = some (.ok true b) ∧
      setPosition 0 b = .ok () b' ∧ toString b' = .ok file b' := by
  obtain ⟨b, hread, happ⟩ :=
    readFromFileLoop_appends (appending_new hbase uninit) (Nat.lt_succ_self file.length)
  obtain ⟨b', hset, hpos, _⟩ := happ.rewind
  exact ⟨b, b', hread, hset, hpos.toString⟩

end Reading

section Writing

variable {b : ByteArray} {data : List UInt8} {baseSize pos readSize p : ℕ}

/-- From the middle of a node, with a whole node's worth of bytes to come. -/
theorem writeNodes_of_mid {n : Node} {rest : List Node} (hsized : Sized baseSize (n :: rest))
    (hbase : 0 < baseSize) (hoffset : pos % baseSize < 2 ^ 31) (hlong : baseSize ≤ readSize)
    (hread : pos % baseSize + readSize ≤ (flat (n :: rest)).length) :
    writeNodes baseSize (n :: rest) pos readSize =
      some (((flat (n :: rest)).drop (pos % baseSize)).take readSize) := by
  have hptr : n.ptr.length = baseSize := n.length_ptr.trans hsized.head
  have hmod := Nat.mod_lt pos hbase
  rw [flat_cons, List.length_append, hptr] at hread
  have hmin : (if readSize > baseSize then baseSize else readSize) = baseSize := by
    split <;> omega
  have hlen : (baseSize : ℤ) - (pos % baseSize : ℕ) = (baseSize - pos % baseSize : ℕ) := by omega
  have halign : (pos + (baseSize - pos % baseSize)) % baseSize = 0 := by
    have hdiv := Nat.div_add_mod pos baseSize
    have hnext : pos + (baseSize - pos % baseSize) = baseSize * (pos / baseSize + 1) := by
      rw [Nat.mul_succ]
      omega
    rw [hnext, Nat.mul_mod_right]
  rw [writeNodes, if_neg (by omega)]
  simp only [toInt32_of_lt hoffset, hmin, hlen, Int.toNat_natCast]
  rw [if_neg (by omega), writeNodes_eq_take hsized.tail halign (by omega)]
  have hcross := n.load_append_cross (pos % baseSize) readSize
    (by rw [hsized.head]; exact hmod.le) (by rw [hsized.head]; omega) (flat rest)
  rw [hsized.head] at hcross
  simp only [flat_cons, ← hcross]

/-- From the middle of a node, with less to come than a node holds. -/
theorem writeNodes_of_short (hbase : baseSize ≤ 2 ^ 31) (ns : List Node)
    (hoffset : 0 < pos % baseSize) (hread : 0 < readSize) (hshort : readSize < baseSize) :
    writeNodes baseSize ns pos readSize = none := by
  -- Induction on the nodes: after a chunk, offset and rest have changed places.
  induction ns generalizing pos readSize with
  | nil => rw [writeNodes, if_neg (by omega)]
  | cons n rest ih =>
    have hmod := Nat.mod_lt pos (Nat.zero_lt_of_lt hshort)
    have hdiff := toInt32_of_lt (n := pos % baseSize) (by omega)
    rw [writeNodes, if_neg (by omega)]
    simp only [hdiff, if_neg (Nat.not_lt.mpr hshort.le)]
    by_cases hless : readSize < pos % baseSize
    · rw [if_pos (by omega)]
    · have hlen : (readSize : ℤ) - (pos % baseSize : ℕ) = (readSize - pos % baseSize : ℕ) := by
        omega
      have hnext : (pos + (readSize - pos % baseSize)) % baseSize = readSize := by
        have hdiv := Nat.div_add_mod pos baseSize
        have hsum : pos + (readSize - pos % baseSize) =
            readSize + baseSize * (pos / baseSize) := by
          omega
        rw [hsum, Nat.add_mul_mod_self_left, Nat.mod_eq_of_lt hshort]
      simp only [hlen, Int.toNat_natCast]
      rw [if_neg (by omega), ih (by omega) (by omega) (by omega)]

theorem Positioned.writeToFile_of_writesFrom (h : Positioned b data p)
    (hfrom : WritesFrom b.baseSize data.length p) :
    ByteArray.writeToFile b = some (data.drop p) := by
  have hwf := h.represents.wf
  have hpos : p = b.position := h.represents.pos_eq
  have hread : b.getReadSize = data.length - p := h.represents.readSize_eq
  rw [ByteArray.writeToFile]
  by_cases hend : b.getReadSize = 0
  · rw [hend, List.drop_of_length_le (by omega)]
    cases b.chain <;> rfl
  · have hsize := hwf.getReadSize_eq
    have hsle := hwf.size_le
    have hcur := h.inPlace (by omega)
    have hbytes := h.represents.bytes_at_cursor hcur (fun _ => h.inPlace) (Nat.le_refl _)
    have hall : (data.drop p).take b.getReadSize = data.drop p :=
      List.take_of_length_le (by rw [List.length_drop]; exact hread.ge)
    dsimp only at hbytes
    rw [hall, ← List.drop_drop, ← hwf.sized.flat_drop, ← chain_of_cur hcur] at hbytes
    have hroom := hwf.chain_room (m := b.getReadSize) hcur (by omega)
    rw [← (hwf.sized_chain hcur).length_flat] at hroom
    rcases hfrom with hlast | haligned | ⟨hoffset, hlong⟩
    · omega
    · rw [hpos] at haligned
      rw [haligned, List.drop_zero] at hbytes
      rw [haligned, Nat.zero_add] at hroom
      rw [writeNodes_eq_take (hwf.sized_chain hcur) haligned hroom, hbytes]
    · obtain ⟨n, rest, hchain, _⟩ := chain_cons hwf hcur
      have hsized := hwf.sized_chain hcur
      rw [hchain] at hroom hbytes hsized ⊢
      rw [writeNodes_of_mid hsized hwf.base_pos (hpos ▸ hoffset) (by omega) hroom, hbytes]

theorem Positioned.writeToFile_fails (h : Positioned b data p) (hp : p ≤ data.length)
    (hbase : b.baseSize ≤ 2 ^ 31) (hfrom : ¬ WritesFrom b.baseSize data.length p) :
    ByteArray.writeToFile b = none := by
  have hpos : p = b.position := h.represents.pos_eq
  have hread : b.getReadSize = data.length - p := h.represents.readSize_eq
  have hmod := h.represents.wf.mod_lt p
  obtain ⟨hlast, hrest⟩ := not_or.mp hfrom
  obtain ⟨haligned, hmid⟩ := not_or.mp hrest
  have hshort : ¬ b.baseSize ≤ data.length - p := fun hlong => hmid ⟨by omega, hlong⟩
  rw [ByteArray.writeToFile, ← hpos]
  exact writeNodes_of_short hbase _ (by omega) (by omega) (by omega)

end Writing

/--
**Through a file and back.**  From an aligned position, from the end, or with a whole
node's worth of bytes to come, `writeToFile` writes exactly the bytes from the position
on, and a new array of any node size that reads the file holds them.  From any other
position it runs off the node list or asks for a negative number of bytes.
-/
theorem file_roundTrip {baseSize₁ baseSize₂ : ℕ} (hbase₁ : 1 ≤ baseSize₁) (hbase₂ : 1 ≤ baseSize₂)
    (uninit₁ uninit₂ : ℕ → UInt8) {calls : List Call} (hcalls : ∀ c ∈ calls, c.isAppend = true) :
    ∃ os b, callSystem.run (new baseSize₁ uninit₁) calls = some (os, b) ∧
      ∀ p ≤ b.size, ∃ src text,
        setPosition p b = .ok () src ∧
        toString src = .ok text src ∧
        text = ((flat b.nodes).take b.size).drop p ∧
        (WritesFrom baseSize₁ b.size p →
          writeToFile src = some text ∧
          ∃ dst dst',
            readFromFile (some text) (new baseSize₂ uninit₂) = some (.ok true dst) ∧
            setPosition 0 dst = .ok () dst' ∧
            toString dst' = .ok text dst') ∧
        (baseSize₁ ≤ 2 ^ 31 → ¬ WritesFrom baseSize₁ b.size p → writeToFile src = none) := by
  obtain ⟨os, b, data, hrun, happ, hbase⟩ := (appending_new hbase₁ uninit₁).run hcalls
  refine ⟨os, b, hrun, fun p hp => ?_⟩
  have hlen : data.length = b.size := happ.represents.length_data
  have hdata : data = (flat b.nodes).take b.size := happ.represents.data_eq
  obtain ⟨src, hset, hpos, _, _, _⟩ :=
    happ.represents.setPosition (v := p) (by rw [hlen]; exact hp)
  have hsrc : src.baseSize = baseSize₁ := by
    have hcap := Nat.le_trans hp happ.represents.wf.size_le
    have hseek := setPosition_ok happ.represents.wf hcap
    rw [hset, EStateM.Result.ok.injEq] at hseek
    rw [hseek.2]
    exact hbase
  refine ⟨src, data.drop p, hset, hpos.toString, by rw [← hdata], ?_, ?_⟩
  · intro hfrom
    have hwrite := hpos.writeToFile_of_writesFrom (by rw [hsrc, hlen]; exact hfrom)
    refine ⟨hwrite, ?_⟩
    exact readFromFile_toString hbase₂ uninit₂ (data.drop p)
  · intro hsmall hfrom
    exact hpos.writeToFile_fails (by rw [hlen]; exact hp) (by rw [hsrc]; exact hsmall)
      (by rw [hsrc, hlen]; exact hfrom)

/-- Five bytes from nodes of two into nodes of three. -/
theorem file_roundTrip_between_node_sizes :
    (∀ c ∈ [Call.write [1, 2, 3, 4, 5]], c.isAppend = true) ∧
    WritesFrom 2 5 1 ∧
    ∃ os b, callSystem.run (new 2 (fun _ => 0)) [.write [1, 2, 3, 4, 5]] = some (os, b) ∧
      ∀ p ≤ b.size, ∃ src text,
        setPosition p b = .ok () src ∧
        toString src = .ok text src ∧
        text = ((flat b.nodes).take b.size).drop p ∧
        (WritesFrom 2 b.size p →
          writeToFile src = some text ∧
          ∃ dst dst',
            readFromFile (some text) (new 3 (fun _ => 0)) = some (.ok true dst) ∧
            setPosition 0 dst = .ok () dst' ∧
            toString dst' = .ok text dst') ∧
        (2 ≤ 2 ^ 31 → ¬ WritesFrom 2 b.size p → writeToFile src = none) :=
  ⟨by decide, Or.inr (Or.inr (by decide)),
    file_roundTrip (by decide) (by decide) (fun _ => 0) (fun _ => 0) (by decide)⟩

/-- Three bytes in a node of four, from the second on: the loop writes one of the two
and follows the null pointer behind the node. -/
theorem writeToFile_stops_mid_node :
    ∃ b src,
      write [1, 2, 3] (new 4 (fun _ => 0)) = .ok () b ∧
      setPosition 1 b = .ok () src ∧
      toString src = .ok [2, 3] src ∧
      writeToFile src = none := by
  refine ⟨_, _, rfl, rfl, rfl, ?_⟩
  exact writeNodes_of_short (by decide) _ (by decide) (by decide) (by decide)

end ByteArray
end Civan
