import ShakeAccel.Soft.OneShot
import ShakeAccel.Accel.Job

/-!
# The RAM byte by byte

Byte `i` of the RAM is byte `i % 4` of word `i / 4` (`memByte`). If the first 168 bytes are the last
block of a message, the digest that a job stores is the output of the software function.
-/

namespace ShakeAccel

open Vec

/-- Byte `i` of the RAM, little-endian within each word. -/
def memByte (mem : Vector Word 42) (i : Nat) : Byte := Bits.byteAt (mem.getD (i / 4) 0) (i % 4)

/-- A RAM is known by its 168 bytes. -/
theorem mem_ext_bytes {mem mem' : Vector Word 42} (h : ∀ i < 168, memByte mem i = memByte mem' i) :
    mem = mem' := by
  apply Vector.ext
  intro k hk
  apply Bits.eq_of_byteAt_eq (n := 4) rfl
  intro b hb
  have hj := h (4 * k + b) (by omega)
  rwa [memByte, memByte, show (4 * k + b) / 4 = k by omega, show (4 * k + b) % 4 = b by omega,
    getD_of_lt _ _ hk, getD_of_lt _ _ hk] at hj

/-- The port writes byte `i` of the RAM. -/
def RamPort.WritesByte (p : RamPort) (i : Nat) : Prop :=
  p.en = true ∧ p.we = true ∧ p.addr = i / 4 ∧ p.be.getLsbD (i % 4) = true

instance (p : RamPort) (i : Nat) : Decidable (p.WritesByte i) :=
  inferInstanceAs (Decidable (_ ∧ _))

theorem memByte_write (mem : Vector Word 42) (p : RamPort) {i : Nat} (hi : i < 168) :
    memByte (TrueDpRam.write mem p) i =
      if p.WritesByte i then Bits.byteAt p.wdata (i % 4) else memByte mem i := by
  have hi4 : i / 4 < 42 := by omega
  have hb : i % 4 < 4 := Nat.mod_lt i (by decide)
  rw [TrueDpRam.write]
  split
  next hen =>
    rw [Bool.and_eq_true] at hen
    split
    next hlt =>
      rw [memByte, memByte, getD_of_lt _ _ hi4, getD_of_lt _ _ hi4, Vector.getElem_set]
      by_cases haddr : p.addr = i / 4
      · simp only [haddr, if_true]
        rw [Bits.byteAt_mergeBytes (n := 4) rfl _ _ _ hb]
        by_cases hbe : p.be.getLsbD (i % 4) = true
        · rw [if_pos hbe, if_pos ⟨hen.1, hen.2, haddr, hbe⟩]
        · rw [if_neg hbe, if_neg fun h => hbe h.2.2.2]
      · rw [if_neg haddr, if_neg fun h => haddr h.2.2.1]
    next hge => rw [if_neg fun h : p.WritesByte i => hge (h.2.2.1 ▸ hi4)]
  next hoff => rw [if_neg fun h : p.WritesByte i => hoff (by rw [h.1, h.2.1]; rfl)]

/-- The bytes of a pair of words. -/
theorem byteAt_pairLane (mem : Vector Word 42) (k : Nat) {b : Nat} (hb : b < 8) :
    Bits.byteAt (pairLane mem k) b = memByte mem (8 * k + b) := by
  apply BitVec.eq_of_getLsbD_eq
  intro i hi
  rw [Bits.getLsbD_byteAt, memByte, Bits.getLsbD_byteAt, pairLane, BitVec.getLsbD_append]
  by_cases h4 : b < 4
  · rw [if_pos (show 8 * b + i < 32 by omega), show (8 * k + b) / 4 = 2 * k by omega,
      show (8 * k + b) % 4 = b by omega]
  · rw [if_neg (show ¬8 * b + i < 32 by omega),
      show (8 * k + b) / 4 = 2 * k + 1 by omega, show (8 * k + b) % 4 = b - 4 by omega,
      show 8 * b + i - 32 = 8 * (b - 4) + i by omega]

/-- The state after the RAM's block is XORed into the zero state. -/
theorem stateByte_xorBlock (mem : Vector Word 42) {j : Nat} (hj : j < 200) :
    stateByte (xorBlock .zero (blockWords mem)).toWords j =
      if j < 168 then memByte mem j else 0 := by
  have hk : j / 8 < 25 := by omega
  rw [xorBlock_toWords, zero_toWords, stateByte, getD_of_lt _ _ hk, xorWords, Vector.getElem_ofFn,
    Fin.getElem_fin, Vector.getElem_replicate, Bits.byteAt_xor, Bits.byteAt_zero]
  refine BitVec.zero_xor.trans ?_
  by_cases h : j < 168
  · rw [if_pos h, blockWords, List.getD_eq_getElem?_getD, List.getElem?_map,
      List.getElem?_range (show j / 8 < 21 by omega), Option.map_some, Option.getD_some,
      byteAt_pairLane _ _ (Nat.mod_lt j (by decide)), Nat.div_add_mod]
  · rw [if_neg h,
      List.getD_eq_default _ _ (by rw [length_blockWords]; exact show 21 ≤ j / 8 by omega),
      Bits.byteAt_zero]

/-- With the last block of a message in the RAM, the core computes what the software computes. -/
theorem digestState_toWords {mem : Vector Word 42} {m : List Byte} (hm : m.length < 168)
    (h : ∀ i < 168, memByte mem i = (lastBlock shake128Rate m 0x1F).getD i 0) :
    (digestState mem).toWords =
      keccakF1600StatePermute (keccakAbsorb zeroState shake128Rate m 0x1F) := by
  have hlt : ¬shake128Rate.bytes ≤ m.length := Nat.not_le.2 hm
  rw [digestState, permute24_toWords, keccakAbsorb, dif_neg hlt]
  refine congrArg keccakF1600StatePermute (State.ext_bytes fun j hj => ?_)
  have hzero : stateByte zeroState j = 0 := by
    rw [stateByte, zeroState, getD_of_lt _ _ (by omega), Vector.getElem_replicate, Bits.byteAt_zero]
  rw [stateByte_xorBlock mem hj, stateByte_xorBytes _ _ (by decide), hzero]
  by_cases h168 : j < 168
  · rw [if_pos h168, if_pos ⟨Nat.zero_le j, by simpa [shake128Rate] using h168⟩, h j h168,
      Nat.sub_zero]
    exact BitVec.zero_xor.symm
  · rw [if_neg h168, if_neg (by simpa [shake128Rate] using h168)]

/-- The short outputs of `shake128` are bytes of one state. -/
theorem shake128_eq {outlen : Nat} (h : outlen < 168) (m : List Byte) :
    shake128 outlen m = (List.range outlen).map
      (stateByte (keccakF1600StatePermute (keccakAbsorb zeroState shake128Rate m 0x1F))) := by
  have hdiv : outlen / shake128Rate.bytes = 0 := Nat.div_eq_of_lt h
  simp only [shake128, shakeOneShot, hdiv, keccakSqueezeblocks, Nat.zero_mul, Nat.sub_zero,
    List.nil_append, List.append_nil, extractBytes_eq, Nat.zero_add, ← List.map_take,
    List.take_range, Nat.min_eq_left (Nat.le_of_lt h : outlen ≤ shake128Rate.bytes)]
  split
  · rfl
  · next h0 => rw [not_not.1 h0]; rfl

/-- The bytes of a RAM in which a job has stored `n` lanes. -/
theorem memByte_storeLanes (H : KState) {n : Nat} (hn : n ≤ 8) (mem : Vector Word 42) {i : Nat}
    (hi : i < 168) :
    memByte (storeLanes H n mem) i =
      if i < 8 * n then stateByte H.toWords i else memByte mem i := by
  induction n with
  | zero => rw [if_neg (by omega)]; rfl
  | succ n ih =>
    have ih := ih (by omega)
    rw [storeLanes_succ, memByte, storeLane, getD_setIfInBounds, getD_setIfInBounds]
    by_cases hlo : 2 * n = i / 4
    · rw [if_pos ⟨hlo, by omega⟩, if_pos (by omega), stateByte, show i / 8 = n by omega,
        show i % 8 = i % 4 by omega]
      apply BitVec.eq_of_getLsbD_eq
      intro b hb
      simp only [Bits.getLsbD_byteAt, BitVec.getLsbD_extractLsb', hb, decide_true, Bool.true_and,
        show 8 * (i % 4) + b < 32 by omega, Nat.zero_add]
    · rw [if_neg fun h => hlo h.1]
      by_cases hhi : 2 * n + 1 = i / 4
      · rw [if_pos ⟨hhi, by omega⟩, if_pos (by omega), stateByte, show i / 8 = n by omega,
          show i % 8 = 4 + i % 4 by omega]
        apply BitVec.eq_of_getLsbD_eq
        intro b hb
        simp only [Bits.getLsbD_byteAt, BitVec.getLsbD_extractLsb', hb, decide_true, Bool.true_and,
          show 8 * (i % 4) + b < 32 by omega,
          show 32 + (8 * (i % 4) + b) = 8 * (4 + i % 4) + b by omega]
      · rw [if_neg fun h => hhi h.1, ← memByte, ih]
        by_cases hlt : i < 8 * n
        · rw [if_pos hlt, if_pos (by omega)]
        · rw [if_neg hlt, if_neg (by omega)]

end ShakeAccel
