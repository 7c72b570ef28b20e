import Mathlib.Data.List.GetD
import Mathlib.Logic.Function.Basic
import ShakeAccel.Lib.Bits
import ShakeAccel.Lib.Vec
import ShakeAccel.Lib.Sponge
import ShakeAccel.Soft.Fips202

/-!
# The byte view of the software state

Byte `j` of a state is byte `j % 8` of word `j / 8` (`stateByte`). In these terms the byte loops of
`keccakf1600.c` are pointwise (`byte_view`), and the block that `keccak_absorb` builds in its
scratch buffer is the padded message.
-/

namespace ShakeAccel

open Vec

/-- Byte `j` of a state, little-endian within each word. -/
def stateByte (s : State) (j : Nat) : Byte := Bits.byteAt (s.getD (j / 8) 0) (j % 8)

/-- A state is known by its 200 bytes. -/
theorem State.ext_bytes {s t : State} (h : ∀ j < 200, stateByte s j = stateByte t j) : s = t := by
  apply Vector.ext
  intro k hk
  apply Bits.eq_of_byteAt_eq (n := 8) rfl
  intro b hb
  have hj := h (8 * k + b) (by omega)
  rwa [stateByte, stateByte, show (8 * k + b) / 8 = k by omega, show (8 * k + b) % 8 = b by omega,
    getD_of_lt _ _ hk, getD_of_lt _ _ hk] at hj

theorem shiftRight_three (x : Nat) : x >>> 3 = x / 8 := Nat.shiftRight_eq_div_pow x 3

theorem and_seven (x : Nat) : x &&& 0x07 = x % 8 := Nat.and_two_pow_sub_one_eq_mod x 3

/-- One iteration of the extraction loop. -/
theorem extractByte_eq (s : State) (p : Nat) :
    (s.getD (p >>> 3) 0 >>> (8 * (p &&& 0x07))).setWidth 8 = stateByte s p := by
  rw [shiftRight_three, and_seven, Bits.setWidth_ushiftRight, stateByte]

/-- `KeccakF1600_StateExtractBytes` reads the bytes of the state. -/
theorem extractBytes_eq (s : State) (offset length : Nat) :
    keccakF1600StateExtractBytes s offset length =
      (List.range length).map fun i => stateByte s (offset + i) := by
  rw [keccakF1600StateExtractBytes]
  exact List.map_congr_left fun i _ => extractByte_eq s (offset + i)

/-- One iteration of the XOR loop. -/
theorem stateByte_xorByte (s : State) (d : Byte) {p : Nat} (hp : p < 200) (j : Nat) :
    stateByte (s.setIfInBounds (p / 8) (s.getD (p / 8) 0 ^^^ (d.setWidth 64 <<< (8 * (p % 8))))) j =
      if j = p then stateByte s j ^^^ d else stateByte s j := by
  rw [stateByte, getD_setIfInBounds]
  by_cases hj : j < 200
  · by_cases hw : p / 8 = j / 8
    · rw [if_pos ⟨hw, by omega⟩, Bits.byteAt_xor,
        Bits.byteAt_setWidth_shiftLeft (n := 8) rfl d (Nat.mod_lt j (by decide)), hw]
      by_cases hjp : j = p
      · subst hjp
        rw [if_pos rfl, if_pos rfl, stateByte]
      · rw [if_neg (by omega), if_neg hjp, stateByte]
        exact BitVec.xor_zero
    · rw [if_neg fun h => hw h.1, if_neg (by rintro rfl; exact hw rfl), stateByte]
  · rw [if_neg (by omega), if_neg (by omega), stateByte]

/-- `KeccakF1600_StateXORBytes` XORs the data into the bytes from `offset` on. -/
theorem stateByte_xorBytes (s : State) (data : List Byte) {offset length : Nat}
    (h : offset + length ≤ 200) (j : Nat) :
    stateByte (keccakF1600StateXORBytes s data offset length) j =
      if offset ≤ j ∧ j < offset + length then stateByte s j ^^^ data.getD (j - offset) 0
      else stateByte s j := by
  induction length with
  | zero => rw [if_neg (by omega)]; rfl
  | succ n ih =>
    have ih := ih (by omega)
    rw [keccakF1600StateXORBytes, List.range_succ, List.foldl_append, List.foldl_cons,
      List.foldl_nil, ← keccakF1600StateXORBytes, shiftRight_three, and_seven,
      stateByte_xorByte _ _ (by omega), ih]
    by_cases hj : j = offset + n
    · subst hj
      rw [if_pos rfl, if_neg (by omega), if_pos (by omega), Nat.add_sub_cancel_left]
    · rw [if_neg hj]
      by_cases hlt : offset ≤ j ∧ j < offset + n
      · rw [if_pos hlt, if_pos (by omega)]
      · rw [if_neg hlt, if_neg (by omega)]

/-! ## The byte loops on memory -/

/-- The memory of a byte loop: the state, and the bytes from `data` on. -/
structure ByteMem where
  state : State
  data : Nat → Byte

/-- `KeccakF1600_StateExtractBytes`, with its stores to `data`. -/
def keccakF1600StateExtractBytesTo (mem : ByteMem) (offset length : Nat) : ByteMem :=
  (List.range length).foldl (fun mem i =>
    ⟨mem.state, Function.update mem.data i
      ((mem.state.getD ((offset + i) >>> 3) 0 >>> (8 * ((offset + i) &&& 0x07))).setWidth 8)⟩) mem

/-- The extraction stores the bytes from `offset` on and nothing else. -/
theorem extractBytesTo_eq (mem : ByteMem) (offset length : Nat) :
    keccakF1600StateExtractBytesTo mem offset length =
      ⟨mem.state,
        fun i => if i < length then stateByte mem.state (offset + i) else mem.data i⟩ := by
  induction length with
  | zero => rfl
  | succ n ih =>
    rw [keccakF1600StateExtractBytesTo, List.range_succ, List.foldl_append, List.foldl_cons,
      List.foldl_nil, ← keccakF1600StateExtractBytesTo, ih, extractByte_eq]
    refine congrArg (ByteMem.mk mem.state) (funext fun i => ?_)
    rw [Function.update_apply]
    by_cases hi : i = n
    · rw [if_pos hi, if_pos (by omega), hi]
    · have hlt : i < n + 1 ↔ i < n := by omega
      simp only [if_neg hi, hlt]

/-- The stored bytes are those that `keccakF1600StateExtractBytes` returns. -/
theorem extractBytesTo_data (mem : ByteMem) (offset length : Nat) :
    (List.range length).map (keccakF1600StateExtractBytesTo mem offset length).data =
      keccakF1600StateExtractBytes mem.state offset length := by
  rw [extractBytes_eq, extractBytesTo_eq]
  exact List.map_congr_left fun i hi => if_pos (List.mem_range.1 hi)

/-- XORing behind the bytes of an earlier call is one call with both byte strings. -/
theorem xorBytes_append (s : State) (d e : List Byte) {offset : Nat}
    (h : offset + d.length + e.length ≤ 200) :
    keccakF1600StateXORBytes (keccakF1600StateXORBytes s d offset d.length) e (offset + d.length)
        e.length =
      keccakF1600StateXORBytes s (d ++ e) offset (d ++ e).length := by
  have hlen : (d ++ e).length = d.length + e.length := List.length_append
  apply State.ext_bytes
  intro j _
  rw [stateByte_xorBytes _ e h, stateByte_xorBytes s d (by omega),
    stateByte_xorBytes s (d ++ e) (by omega)]
  by_cases hd : offset ≤ j ∧ j < offset + d.length
  · rw [if_neg (by omega), if_pos hd, if_pos (by omega), List.getD_append _ _ _ _ (by omega)]
  · rw [if_neg hd]
    by_cases he : offset + d.length ≤ j ∧ j < offset + d.length + e.length
    · rw [if_pos he, if_pos (by omega), List.getD_append_right _ _ _ _ (by omega),
        Nat.sub_add_eq]
    · rw [if_neg he, if_neg (by omega)]

/-- XORing the same bytes again restores the state. -/
theorem xorBytes_xorBytes (s : State) (d : List Byte) {offset : Nat}
    (h : offset + d.length ≤ 200) :
    keccakF1600StateXORBytes (keccakF1600StateXORBytes s d offset d.length) d offset d.length =
      s := by
  apply State.ext_bytes
  intro j _
  rw [stateByte_xorBytes _ d h, stateByte_xorBytes s d h]
  by_cases hd : offset ≤ j ∧ j < offset + d.length
  · rw [if_pos hd, if_pos hd, BitVec.xor_assoc, BitVec.xor_self, BitVec.xor_zero]
  · rw [if_neg hd, if_neg hd]

/-- **The byte view of the state.** XORing changes the addressed bytes only; extracting stores the
bytes that `keccakF1600StateExtractBytes` returns and leaves the state alone; adjacent XORs add up
and equal ones cancel. -/
theorem byte_view (s : State) (d : List Byte) (o : Nat) (h : o + d.length ≤ 200) :
    (∀ j, stateByte (keccakF1600StateXORBytes s d o d.length) j =
      if o ≤ j ∧ j < o + d.length then stateByte s j ^^^ d.getD (j - o) 0 else stateByte s j) ∧
    (∀ (out : Nat → Byte) (p n : Nat), p + n ≤ 200 →
      (keccakF1600StateExtractBytesTo ⟨s, out⟩ p n).state = s ∧
        (∀ i, (keccakF1600StateExtractBytesTo ⟨s, out⟩ p n).data i =
          if i < n then stateByte s (p + i) else out i) ∧
        (List.range n).map (keccakF1600StateExtractBytesTo ⟨s, out⟩ p n).data =
          keccakF1600StateExtractBytes s p n) ∧
    (∀ e : List Byte, o + d.length + e.length ≤ 200 →
      keccakF1600StateXORBytes (keccakF1600StateXORBytes s d o d.length) e (o + d.length)
          e.length =
        keccakF1600StateXORBytes s (d ++ e) o (d ++ e).length) ∧
    keccakF1600StateXORBytes (keccakF1600StateXORBytes s d o d.length) d o d.length = s := by
  refine ⟨stateByte_xorBytes s d h, ?_, fun e he => xorBytes_append s d e he,
    xorBytes_xorBytes s d h⟩
  intro out p n _
  refine ⟨?_, ?_, extractBytesTo_data ⟨s, out⟩ p n⟩
  · rw [extractBytesTo_eq]
  · intro i
    rw [extractBytesTo_eq]

/-- Three bytes across a word boundary of a state of ones, and a fourth one behind them. -/
theorem byte_view_unaligned :
    (keccakF1600StateExtractBytesTo
        ⟨keccakF1600StateXORBytes (.replicate 25 (BitVec.allOnes 64)) [0x12, 0x34, 0x56] 6 3,
          fun _ => 0⟩ 5 5).data 2 = 0xCB ∧
      keccakF1600StateXORBytes
          (keccakF1600StateXORBytes (.replicate 25 (BitVec.allOnes 64)) [0x12, 0x34, 0x56] 6 3)
          [0x78] 9 1 =
        keccakF1600StateXORBytes (.replicate 25 (BitVec.allOnes 64)) [0x12, 0x34, 0x56, 0x78] 6 4 :=
  ⟨by decide +kernel,
    (byte_view (.replicate 25 (BitVec.allOnes 64)) [0x12, 0x34, 0x56] 6 (by decide)).2.2.1 [0x78]
      (by decide)⟩

/-! ## The last block -/

/-- The loop that copies the message into the scratch buffer. -/
theorem foldl_set_eq (m t : List Byte) {n : Nat} (hm : n ≤ m.length) (ht : n ≤ t.length) :
    (List.range n).foldl (fun t i => t.set i (m.getD i 0)) t = m.take n ++ t.drop n := by
  induction n with
  | zero => rfl
  | succ n ih =>
    rw [List.range_succ, List.foldl_append, ih (by omega) (by omega), List.foldl_cons,
      List.foldl_nil, List.set_append_right _ _ (by rw [List.length_take]; omega), List.length_take,
      Nat.min_eq_left (by omega), Nat.sub_self, List.drop_eq_getElem_cons (by omega),
      List.set_cons_zero, List.take_succ_eq_append_getElem (by omega), List.append_assoc,
      List.getD_eq_getElem?_getD, List.getElem?_eq_getElem (by omega)]
    rfl

/-- For a message shorter than the rate, the scratch buffer holds the padded message. -/
theorem lastBlock_eq_pad (r : Rate) {m : List Byte} (p : Byte) (h : m.length < r.bytes) :
    lastBlock r m p = Sponge.pad r.bytes p m := by
  have hcopy : (List.range m.length).foldl (fun t i => t.set i (m.getD i 0))
      (List.replicate r.bytes 0) = m ++ List.replicate (r.bytes - m.length) 0 := by
    rw [foldl_set_eq m _ (Nat.le_refl _) (by simp; omega), List.take_length, List.drop_replicate]
  have hset : (m ++ List.replicate (r.bytes - m.length) (0 : Byte)).set m.length p =
      m ++ p :: List.replicate (r.bytes - m.length % r.bytes - 1) 0 := by
    rw [List.set_append_right _ _ (Nat.le_refl _), Nat.sub_self, Nat.mod_eq_of_lt h,
      show r.bytes - m.length = r.bytes - m.length - 1 + 1 by omega, List.replicate_succ,
      List.set_cons_zero, Nat.add_sub_cancel]
  have hlen : (m ++ p :: List.replicate (r.bytes - m.length % r.bytes - 1) 0).length =
      r.bytes := by
    rw [Nat.mod_eq_of_lt h, List.length_append, List.length_cons, List.length_replicate]
    omega
  simp only [lastBlock, hcopy, hset, Sponge.pad, Sponge.closeLast, hlen]

theorem length_lastBlock (r : Rate) {m : List Byte} (p : Byte) (h : m.length < r.bytes) :
    (lastBlock r m p).length = r.bytes := by
  rw [lastBlock_eq_pad r p h, Sponge.length_pad r.pos, Sponge.padBlocks, Nat.div_eq_of_lt h,
    Nat.zero_add, Nat.one_mul]

end ShakeAccel
