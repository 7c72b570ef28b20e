import ShakeAccel.HighSpeed.Bench
import ShakeAccel.HighSpeed.RoundBench
import ShakeAccel.Reference.Nist

/-!
# The test vectors of the hardware (`mainReference.c`)

`displaySpongeIntermediateValues_vhdl` writes the messages that the testbenches hash, padded and cut
into words, and the 256 bits of output that `KeccakNISTInterface.c` computes for them;
`KeccakPermutationIntermediateValuesForVHDL` writes states and their permutations. The values of
`rand()` are an argument. The padding of the first function is the padding `10*1` of the sponge
(`bits_padMessage`), so the words of both its files fit together.
-/

namespace ShakeAccel.Reference.TestVectors

open Vec BitSponge

/-! ## The code -/

/-- `alignLastByteOnLSB`: the buffer `out` after the call. -/
def alignLastByteOnLSB {n m : Nat} (input : Vector Byte n) (out : Vector Byte m) (length : Nat) :
    Vector Byte m :=
  let lengthInBytes := (length + 7) / 8
  let out := memcpy out 0 (ptr input) lengthInBytes
  if length % 8 ≠ 0 then
    out.setIfInBounds (lengthInBytes - 1) (ptr out (lengthInBytes - 1) >>> (8 - length % 8))
  else out

/-- The message of a test, for the values of `rand()` that it takes. -/
def randomMessage (rand : Nat → Byte) (messageLength : Nat) : Vector Byte 4000 :=
  let message := memcpy (.replicate 4000 0) 0 rand (1 + messageLength / 8)
  let mask : Byte := 0xFF >>> (8 - messageLength % 8)
  message.setIfInBounds (messageLength / 8) (ptr message (messageLength / 8) &&& mask)

/-- `buf[i] |= 1 << b`. -/
def orBit {n : Nat} (buf : Vector Byte n) (i b : Nat) : Vector Byte n :=
  buf.setIfInBounds i (buf.getD i 0 ||| ((1 : Byte) <<< b))

/-- The padding of an aligned message. -/
def padMessage {n : Nat} (paddedMessage : Vector Byte n) (messageLength rate : Nat) :
    Vector Byte n :=
  if (messageLength + 1) % rate = 0 then
    -- a complete block is added
    let p := orBit paddedMessage (messageLength / 8) (messageLength % 8)
    let p := memzero p (messageLength / 8 + 1) (rate / 8)
    orBit p ((messageLength + rate) / 8) ((rate - 1) % 8)
  else
    let p := memzero paddedMessage (messageLength / 8 + 1)
      (rate / 8 - (messageLength + 7) % rate / 8)
    let p := orBit p (messageLength / 8) (messageLength % 8)
    orBit p ((messageLength + (rate - messageLength % rate)) / 8 - 1) ((rate - 1) % 8)

/-- The number of blocks that are written for a message. -/
def numBlocks (messageLength rate : Nat) : Nat :=
  if (messageLength + 1) % rate = 0 then (messageLength + 1 + rate) / rate
  else (messageLength + (rate - messageLength % rate)) / rate

/-- The word of a line `%02X%02X...` of eight bytes, from the last one on. -/
def printedWord (p : Ptr) : Lane :=
  (List.range 8).foldl (fun w k => w <<< 8 ||| (p (7 - k)).setWidth 64) 0

/-- The words that are written for the block `j`. -/
def printedBlock (p : Ptr) (rate j : Nat) : List Lane :=
  (List.range (rate / 64)).map fun i => printedWord fun k => p (j * (8 * rate / 64) + i * 8 + k)

/-- The lines of the first file for a message. -/
def printBlocks (p : Ptr) (messageLength rate : Nat) : List MidRange.Line :=
  (List.range (numBlocks messageLength rate)).flatMap (fun j =>
    (printedBlock p rate j).map MidRange.Line.word) ++ [.dash]

/-- The lines of the second file for a message. -/
def printMD (p : Ptr) : List MidRange.Line :=
  (List.range (256 / 64)).map (fun j => .word (printedWord fun k => p (j * 8 + k))) ++ [.dash]

/-- What one test leaves to the next: the local objects `state` and `MD`, the number of calls of
`rand()` and the lines of the two files. -/
structure Locals where
  state : Nist.HashState
  MD : Vector Byte 64
  calls : Nat
  f : List MidRange.Line
  f2 : List MidRange.Line

/-- A buffer after the bytes `out` have been written to it. -/
def written {n : Nat} (buf : Vector Byte n) (out : List Byte) : Vector Byte n :=
  memcpy buf 0 (fun k => out.getD k 0) out.length

/-- One test of `displaySpongeIntermediateValues_vhdl`. -/
def test (fuel : Nat) (rand : Nat → Byte) (rate : Nat) (l : Locals) (messageLength : Nat) :
    Option Locals :=
  let message := randomMessage (fun j => rand (l.calls + j)) messageLength
  let aligned := alignLastByteOnLSB message (.replicate 4000 0 : Vector Byte 4000) messageLength
  let paddedMessage := padMessage aligned messageLength rate
  match Nist.update fuel (Nist.init l.state 0).2 (ptr message) messageLength with
  | none => none
  | some (_, state) =>
    match Nist.final fuel state with
    | none => none
    | some (_, hashval, state) =>
      match squeeze fuel state 256 with
      | none => none
      | some (_, output, state) =>
        let MD := written (written l.MD hashval) output
        some {
          state
          MD
          calls := l.calls + (1 + messageLength / 8)
          f := l.f ++ printBlocks (ptr paddedMessage) messageLength rate
          f2 := l.f2 ++ printMD (ptr MD) }

/-- The tests, one after another. -/
def runTests (fuel : Nat) (rand : Nat → Byte) (rate : Nat) : Locals → List Nat → Option Locals
  | l, [] => some l
  | l, messageLength :: lengths =>
    match test fuel rand rate l messageLength with
    | none => none
    | some l => runTests fuel rand rate l lengths

/-- `displaySpongeIntermediateValues_vhdl`: the lines of `keccak_in.txt` and
`keccak_ref_out.txt`. -/
def displaySpongeIntermediateValuesVhdl (fuel : Nat) (rand : Nat → Byte) (state : Nist.HashState)
    (MD : Vector Byte 64) : Option (List MidRange.Line × List MidRange.Line) :=
  (runTests fuel rand (1600 - 576) ⟨state, MD, 0, [.number 1200], []⟩
    ((List.range 1200).map (100 + ·))).map fun l => (l.f ++ [.dot], l.f2)

/-- The lines of a state. -/
def printState (A : State) : List LowArea.Line :=
  (List.range 5).flatMap (fun y =>
    (List.range 5).map fun x => LowArea.Line.word (A.getD (index x y) 0)) ++ [.dash]

/-- The tests of `KeccakPermutationIntermediateValuesForVHDL`: each writes a state and the state
after 24 rounds, and goes on 24 rounds later. -/
def permutationTests (T : Tables) : Nat → State → List LowArea.Line × List LowArea.Line
  | 0, _ => ([], [])
  | numTests + 1, A =>
    let B := keccakPermutationOnWords T A
    let r := permutationTests T numTests (keccakPermutationOnWords T B)
    (printState A ++ r.1, printState B ++ r.2)

/-- `KeccakPermutationIntermediateValuesForVHDL`: the lines of `perm_in.txt` and
`perm_ref_out.txt`. -/
def keccakPermutationIntermediateValuesForVHDL : List LowArea.Line × List LowArea.Line :=
  let r := permutationTests keccakInitialize 10 (.replicate 25 0)
  (r.1 ++ [.dot], r.2)

/-! ## The message -/

/-- The bits of a message whose last byte is aligned at its most significant end. -/
theorem getD_msgBits (d : Ptr) (n i : Nat) : (Nist.msgBits d n).getD i false =
    if i < n - n % 8 then (d (i / 8)).getLsbD (i % 8)
    else if i < n then (d (n / 8) >>> (8 - n % 8)).getLsbD (i % 8) else false := by
  rw [Nist.msgBits]
  by_cases hi : i < n - n % 8
  · rw [if_pos hi, List.getD_append _ _ _ _ (by rwa [length_bits]), getD_bits _ hi]
  · rw [if_neg hi, List.getD_append_right _ _ _ _ (by rw [length_bits]; omega), length_bits]
    split
    · next hn => rw [getD_bits _ (by omega), show (i - (n - n % 8)) % 8 = i % 8 by omega]
    · next hn => exact List.getD_eq_default _ _ (by rw [length_bits]; omega)

/-- The aligned message holds the bits of the message, and no others. -/
theorem bitAt_alignLastByteOnLSB {n m : Nat} (message : Vector Byte n) {len : Nat}
    (hm : (len + 7) / 8 ≤ m) (i : Nat) :
    bitAt (alignLastByteOnLSB message (.replicate m 0 : Vector Byte m) len) i =
      (Nist.msgBits (ptr message) len).getD i false := by
  have hzero : bitAt (.replicate m 0 : Vector Byte m) i = false := by
    rw [bitAt, ptr]
    by_cases hi : i / 8 < m
    · rw [getD_replicate _ _ hi]
      exact BitVec.getLsbD_zero
    · rw [getD_of_ge _ _ (Nat.le_of_not_lt hi)]
      exact BitVec.getLsbD_zero
  rw [getD_msgBits]
  simp only [alignLastByteOnLSB]
  split
  · next hmod =>
    rw [bitAt, ptr_setIfInBounds]
    split
    · next hlast =>
      -- the last byte
      obtain ⟨hlast, -⟩ := hlast
      rw [ptr_memcpy, if_pos (by omega), if_neg (by omega), Nat.sub_zero,
        show (len + 7) / 8 - 1 = len / 8 by omega]
      split
      · rfl
      · rw [BitVec.getLsbD_ushiftRight]
        exact BitVec.getLsbD_of_ge _ _ (by omega)
    · next hlast =>
      rw [← bitAt, bitAt_memcpy]
      split
      · rw [if_pos (by omega), Nat.sub_zero]
      · rw [if_neg (by omega), if_neg (by omega), hzero]
  · next hmod =>
    rw [bitAt_memcpy]
    split
    · rw [if_pos (by omega), Nat.sub_zero]
    · rw [if_neg (by omega), if_neg (by omega), hzero]

/-! ## The padding -/

theorem orBit_eq_setBit {n : Nat} (buf : Vector Byte n) (i : Nat) {b : Nat} (hb : b < 8) :
    orBit buf i b = setBit buf (8 * i + b) := by
  rw [orBit, setBit, show (8 * i + b) / 8 = i by omega, show (8 * i + b) % 8 = b by omega]

/-- The message fills its last block up to one bit, or the padding ends in that block. -/
theorem length_pad_eq {r : Nat} (hr : 1 < r) (m : List Bool) : (pad r m).length =
    if (m.length + 1) % r = 0 then m.length + 1 + r else m.length + (r - m.length % r) := by
  have hlt := Nat.mod_lt m.length (show 0 < r by omega)
  have hdm := Nat.div_add_mod m.length r
  rw [length_pad]
  generalize m.length / r = d at hdm
  generalize m.length % r = q at hdm hlt ⊢
  split
  · next h =>
    obtain ⟨k, hk⟩ := Nat.dvd_of_mod_eq_zero h
    rw [show m.length + 2 = r * k + 1 by omega, Nat.mul_add_mod, Nat.mod_eq_of_lt hr,
      Nat.mod_eq_of_lt (show r - 1 < r by omega)]
    omega
  · next h =>
    have hq : q + 1 ≠ r := by
      intro hq
      rw [← hdm, Nat.add_assoc, hq, ← Nat.mul_succ, Nat.mul_mod_right] at h
      exact h rfl
    have hmod : (m.length + 2) % r = (q + 2) % r := by
      rw [← hdm, Nat.add_assoc, Nat.mul_add_mod]
    rw [hmod]
    rcases Nat.lt_or_eq_of_le (show q + 2 ≤ r by omega) with hlt2 | heq
    · rw [Nat.mod_eq_of_lt hlt2, Nat.mod_eq_of_lt (by omega)]
      omega
    · rw [heq, Nat.mod_self, Nat.sub_zero, Nat.mod_self]
      omega

/-- The blocks that are written are those of the padded message. -/
theorem numBlocks_eq {r : Nat} (hr : 1 < r) (m : List Bool) :
    numBlocks m.length r = (pad r m).length / r := by
  rw [numBlocks, length_pad_eq hr]
  split <;> rfl

/-- **The padding.** The two cases of the code are the padding `10*1`, for every rate of whole bytes
and every message that leaves room for it. -/
theorem bits_padMessage {n : Nat} {p : Vector Byte n} {m : List Bool}
    (hp : ∀ i, bitAt p i = m.getD i false) {r : Nat} (h8 : r % 8 = 0) (hr : 1 < r)
    (hn : (pad r m).length ≤ 8 * n) :
    bits (ptr (padMessage p m.length r)) (pad r m).length = pad r m := by
  refine bits_eq_of_bitAt rfl fun i _ => ?_
  have hlen := length_pad_eq hr m
  have hmod := length_pad_mod (show 0 < r by omega) m
  have hlen8 : (pad r m).length % 8 = 0 := Nat.mod_eq_zero_of_dvd
    ((Nat.dvd_of_mod_eq_zero h8).trans (Nat.dvd_of_mod_eq_zero hmod))
  have hlt := Nat.mod_lt m.length (show 0 < r by omega)
  have hout : ∀ j, m.length ≤ j → bitAt p j = false := fun j hj => by
    rw [hp, List.getD_eq_default _ _ hj]
  have hfirst : 8 * (m.length / 8) + m.length % 8 = m.length := Nat.div_add_mod m.length 8
  have h7 : (r - 1) % 8 = 7 := by omega
  rw [getD_pad, ← hp, padMessage]
  split
  · next h =>
    rw [if_pos h] at hlen
    have hlast : 8 * ((m.length + r) / 8) + 7 = (pad r m).length - 1 := by omega
    rw [h7, orBit_eq_setBit _ _ (by decide), hlast, bitAt_setBit _ (by omega), bitAt_memzero,
      orBit_eq_setBit _ _ (Nat.mod_lt _ (by decide)), hfirst, bitAt_setBit _ (by omega)]
    congr 1
    split
    · rw [hout i (by omega), decide_eq_false (by omega)]
      rfl
    · rfl
  · next h =>
    rw [if_neg h] at hlen
    have hlast : 8 * ((m.length + (r - m.length % r)) / 8 - 1) + 7 = (pad r m).length - 1 := by
      omega
    rw [h7, orBit_eq_setBit _ _ (by decide), hlast, bitAt_setBit _ (by omega),
      orBit_eq_setBit _ _ (Nat.mod_lt _ (by decide)), hfirst, bitAt_setBit _ (by omega),
      bitAt_memzero]
    congr 2
    split
    · rw [hout i (by omega)]
    · rfl

/-! ## The words -/

/-- The digits of `n` bytes. -/
theorem getLsbD_printed (p : Ptr) {n : Nat} (hn : n ≤ 8) {i : Nat} (hi : i < 64) :
    ((List.range n).foldl (fun (w : Lane) k => w <<< 8 ||| (p (7 - k)).setWidth 64)
      0).getLsbD i =
      if i < 8 * n then (p (8 - n + i / 8)).getLsbD (i % 8) else false := by
  induction n generalizing i with
  | zero => rw [if_neg (by omega)]; exact BitVec.getLsbD_zero
  | succ n ih =>
    rw [List.range_succ, List.foldl_append, List.foldl_cons, List.foldl_nil, BitVec.getLsbD_or,
      BitVec.getLsbD_shiftLeft, BitVec.getLsbD_setWidth, decide_eq_true hi, Bool.true_and,
      Bool.true_and]
    by_cases h8 : i < 8
    · rw [decide_eq_true h8, Bool.not_true, Bool.false_and, Bool.false_or, if_pos (by omega),
        show 8 - (n + 1) + i / 8 = 7 - n by omega, Nat.mod_eq_of_lt h8]
    · rw [decide_eq_false h8, Bool.not_false, Bool.true_and, ih (by omega) (by omega),
        BitVec.getLsbD_of_ge _ i (by omega), Bool.or_false]
      by_cases hlt : i < 8 * (n + 1)
      · rw [if_pos (by omega), if_pos hlt, show 8 - n + (i - 8) / 8 = 8 - (n + 1) + i / 8 by omega,
          show (i - 8) % 8 = i % 8 by omega]
      · rw [if_neg (by omega), if_neg hlt]

/-- A line holds the word of its bytes. -/
theorem printedWord_eq (p : Ptr) : printedWord p = Bits.ofBytes 64 p := by
  apply BitVec.eq_of_getLsbD_eq
  intro i hi
  rw [printedWord, getLsbD_printed p (Nat.le_refl 8) hi, if_pos (by omega), Bits.ofBytes,
    Bits.getLsbD_ofBits, decide_eq_true hi, Bool.true_and, Nat.sub_self, Nat.zero_add]

/-- The words of a state of bytes. -/
theorem getD_fromBytesToWords (s : ByteState) {j : Nat} (hj : j < 25) :
    (fromBytesToWords s).getD j 0 = printedWord fun k => ptr s (8 * j + k) := by
  rw [printedWord_eq]
  apply Bits.eq_of_byteAt_eq (n := 8) rfl
  intro k hk
  have h := stateByte_fromBytesToWords s (show 8 * j + k < 200 by omega)
  rw [stateByte, show (8 * j + k) / 8 = j by omega, show (8 * j + k) % 8 = k by omega] at h
  rw [h, Bits.byteAt_ofBytes rfl _ hk]
  rfl

/-- XORing the bits of a block into the bytes is XORing its words into the words. -/
theorem fromBytesToWords_xorBits (s : ByteState) (d : Ptr) :
    fromBytesToWords (xorBits s (bits d 1024)) =
      MidRange.Bench.xorBlock (fromBytesToWords s) (printedBlock d 1024 0) := by
  apply ext_getD 0
  intro j hj
  have hwords : (printedBlock d 1024 0).getD j 0 =
      if j < 16 then printedWord fun k => d (8 * j + k) else 0 := by
    rw [printedBlock]
    split
    · next h =>
      rw [List.getD_eq_getElem?_getD, List.getElem?_map, List.getElem?_range h]
      show printedWord (fun k => d (0 * 128 + j * 8 + k)) = _
      simp only [Nat.zero_mul, Nat.zero_add, Nat.mul_comm]
    · next h =>
      exact List.getD_eq_default _ _ (by rw [List.length_map, List.length_range]; omega)
  have hbyte : ∀ k < 8, ptr (xorBits s (bits d 1024)) (8 * j + k) =
      ptr s (8 * j + k) ^^^ if j < 16 then d (8 * j + k) else 0 := by
    intro k hk
    have h := ofBits_getD_bits d 128 (8 * j + k)
    rw [ptr, getD_xorBits _ _ (by omega), h, ptr]
    congr 1
    exact if_congr (by omega) rfl rfl
  rw [MidRange.Bench.getD_xorBlock _ _ hj, getD_fromBytesToWords _ hj, getD_fromBytesToWords _ hj,
    hwords, printedWord_eq, printedWord_eq, printedWord_eq]
  apply Bits.eq_of_byteAt_eq (n := 8) rfl
  intro k hk
  rw [Bits.byteAt_xor, Bits.byteAt_ofBytes rfl _ hk, Bits.byteAt_ofBytes rfl _ hk, hbyte k hk]
  congr 1
  split
  · rw [Bits.byteAt_ofBytes rfl _ hk]
  · rw [Bits.byteAt_zero]

/-! ## A test -/

/-- The blocks that are written for a message. -/
def printed (p : Ptr) (messageLength : Nat) : List (List Lane) :=
  (List.range (numBlocks messageLength 1024)).map (printedBlock p 1024)

/-- Absorbing the bits of blocks into the bytes is absorbing their words into the words. -/
theorem fromBytesToWords_absorb (s : ByteState) (ds : List Ptr) :
    fromBytesToWords (Sponge.absorb keccakPermutation xorBits s (ds.map fun d => bits d 1024)) =
      Sponge.absorb keccakF1600StatePermute MidRange.Bench.xorBlock (fromBytesToWords s)
        (ds.map fun d => printedBlock d 1024 0) := by
  induction ds generalizing s with
  | nil => rfl
  | cons d ds ih =>
    rw [List.map_cons, Sponge.absorb_cons, ih, fromBytesToWords_keccakPermutation,
      fromBytesToWords_xorBits, List.map_cons, Sponge.absorb_cons]

/-- The words of the file hash to the state of the reference sponge. -/
theorem fromBytesToWords_finalState {p : Ptr} {m : List Bool}
    (hp : bits p (pad 1024 m).length = pad 1024 m) :
    fromBytesToWords (finalState Nist.rate1024 m) = MidRange.Bench.sponge (printed p m.length) := by
  have hzero : fromBytesToWords keccakInitializeState = .replicate 25 0 := by
    apply ext_getD 0
    intro j hj
    rw [getD_fromBytesToWords _ hj, getD_replicate _ _ hj, printedWord_eq]
    apply Bits.eq_of_byteAt_eq (n := 8) rfl
    intro k hk
    rw [Bits.byteAt_ofBytes rfl _ hk, Bits.byteAt_zero, ptr, keccakInitializeState,
      getD_replicate _ _ (by omega)]
  have hlen : 1024 * numBlocks m.length 1024 = (pad 1024 m).length := by
    rw [numBlocks_eq (by decide), Nat.mul_div_cancel'
      (Nat.dvd_of_mod_eq_zero (length_pad_mod (by decide) m))]
  have hblocks : Sponge.blocks 1024 (numBlocks m.length 1024) (pad 1024 m) =
      ((List.range (numBlocks m.length 1024)).map fun j k => p (j * 128 + k)).map
        fun d => bits d 1024 := by
    rw [← hp, ← hlen, blocks_bits p (by decide), List.map_map, show 1024 / 8 = 128 from rfl]
    exact List.map_congr_left fun j _ => by rw [Function.comp_apply]
  have hprinted : printed p m.length =
      ((List.range (numBlocks m.length 1024)).map fun j k => p (j * 128 + k)).map
        fun d => printedBlock d 1024 0 := by
    rw [printed, List.map_map]
    refine List.map_congr_left fun j _ => ?_
    simp only [printedBlock, Function.comp_apply, Nat.zero_mul, Nat.zero_add, Nat.add_assoc]
  have hr : Nist.rate1024.bits = 1024 := rfl
  rw [finalState, final, absorbWhole, hr, ← numBlocks_eq (show 1 < 1024 by decide), hblocks,
    fromBytesToWords_absorb, hzero, MidRange.Bench.sponge, hprinted]

/-- The first bytes of the output are those of the state. -/
theorem getD_outputBytes (m : List Bool) {k : Nat} (hk : k < 32) :
    (outputBytes Nist.rate1024 m 0 256).getD k 0 = ptr (finalState Nist.rate1024 m) k := by
  rw [outputBytes, List.getD_eq_getElem?_getD, List.getElem?_map,
    List.getElem?_range (show k < 256 / 8 from hk)]
  apply BitVec.eq_of_getLsbD_eq
  intro t ht
  have hlt : 0 + 8 * k + t < Nist.rate1024.bits := show 0 + 8 * k + t < 1024 by omega
  have hstream := Sponge.stream_of_lt keccakPermutation bitAt (finalState Nist.rate1024 m) hlt
  rw [Option.map_some, Option.getD_some, Bits.getLsbD_ofBits, decide_eq_true ht, Bool.true_and,
    outputBit, hstream, bitAt, show (0 + 8 * k + t) / 8 = k by omega,
    show (0 + 8 * k + t) % 8 = t by omega]

/-- The lines for the output are those that the testbench of the mid-range core writes. -/
theorem printMD_eq (MD : Vector Byte 64) {m : List Bool} {blocks : List (List Lane)}
    (h : fromBytesToWords (finalState Nist.rate1024 m) = MidRange.Bench.sponge blocks) :
    printMD (ptr (written MD (outputBytes Nist.rate1024 m 0 256))) =
      MidRange.Bench.hashLines blocks := by
  have hlen : (outputBytes Nist.rate1024 m 0 256).length = 32 := by
    rw [outputBytes, List.length_map, List.length_range]
  have hword : ∀ j < 4,
      printedWord (fun k => ptr (written MD (outputBytes Nist.rate1024 m 0 256)) (j * 8 + k)) =
        (fromBytesToWords (finalState Nist.rate1024 m)).getD j 0 := by
    intro j hj
    rw [getD_fromBytesToWords _ (by omega), printedWord_eq, printedWord_eq]
    apply Bits.eq_of_byteAt_eq (n := 8) rfl
    intro k hk
    rw [Bits.byteAt_ofBytes rfl _ hk, Bits.byteAt_ofBytes rfl _ hk, written, hlen, ptr_memcpy,
      if_pos (by omega), Nat.sub_zero, getD_outputBytes _ (by omega), Nat.mul_comm]
  have hwords : ((List.range 4).map fun j => MidRange.Line.word
      (printedWord fun k => ptr (written MD (outputBytes Nist.rate1024 m 0 256)) (j * 8 + k))) =
      (List.range 4).map fun j =>
        MidRange.Line.word ((fromBytesToWords (finalState Nist.rate1024 m)).getD j 0) :=
    List.map_congr_left fun j hj => by rw [hword j (List.mem_range.1 hj)]
  rw [printMD, show 256 / 64 = 4 from rfl, hwords, h, MidRange.Bench.hashLines]

/-- `Init` without a hash length starts the absorbing phase. -/
theorem init_zero (st : Nist.HashState) : ∃ st', (Nist.init st 0).2 = st' ∧
    Absorbing Nist.rate1024 [] st' ∧ st'.fixedOutputLength = 0 :=
  ⟨_, rfl, Nist.initSponge_fixedOutputLength Nist.rate1024 st 0, rfl⟩

/-- The lines for a message are those of its blocks. -/
theorem printBlocks_eq (p : Ptr) (n : Nat) :
    printBlocks p n 1024 = MidRange.Bench.linesOf (printed p n) := by
  rw [printBlocks, MidRange.Bench.linesOf, printed, List.map_flatten, List.map_map,
    List.flatMap_def]
  rfl

/-- A test writes the blocks of a padded message and the words of its hash. -/
theorem test_eq {fuel : Nat} (h256 : 256 < fuel) (rand : Nat → Byte) (l : Locals) {n : Nat}
    (hfuel : n < fuel) (hn : n ≤ 30000) :
    ∃ l' blocks, test fuel rand 1024 l n = some l' ∧
      (∀ ws ∈ blocks, ws.length = 16) ∧ l'.f = l.f ++ MidRange.Bench.linesOf blocks ∧
      l'.f2 = l.f2 ++ MidRange.Bench.hashLines blocks := by
  generalize hmessage : randomMessage (fun j => rand (l.calls + j)) n = message
  obtain ⟨st₀, hinit, h₀, hfixed₀⟩ := init_zero l.state
  obtain ⟨st₁, hupdate, h₁, hfixed₁⟩ := Nist.update_eq h₀ (Nat.zero_mod 8) (ptr message)
    (Or.inl (Nat.zero_mod _)) hfuel
  rw [List.nil_append] at h₁
  obtain ⟨st₂, hfinal, h₂⟩ := Nist.final_eq h₁ (hfixed₁.trans hfixed₀) (Nat.zero_mod 8)
    (Nat.zero_lt_of_lt hfuel)
  obtain ⟨st₃, hsqueeze, -⟩ := Nist.squeeze_eq h₂ (show 256 % 8 = 0 by decide) h256
  -- the padded message
  have hlen : (Nist.msgBits (ptr message) n).length = n := Nist.length_msgBits _ _
  have hpad : (pad 1024 (Nist.msgBits (ptr message) n)).length ≤ 8 * 4000 := by
    rw [length_pad_eq (by decide), hlen]
    split <;> omega
  have hbits := bits_padMessage
    (bitAt_alignLastByteOnLSB message (show (n + 7) / 8 ≤ 4000 by omega))
    (show 1024 % 8 = 0 by decide) (by decide) hpad
  have hstate := fromBytesToWords_finalState hbits
  rw [hlen] at hstate
  generalize hp : padMessage (alignLastByteOnLSB message (.replicate 4000 0 : Vector Byte 4000) n)
    n 1024 = p at hstate
  have htest : test fuel rand 1024 l n = some ⟨st₃,
      written (written l.MD (outputBytes Nist.rate1024 (Nist.msgBits (ptr message) n) 0 0))
        (outputBytes Nist.rate1024 (Nist.msgBits (ptr message) n) 0 256),
      l.calls + (1 + n / 8), l.f ++ printBlocks (ptr p) n 1024,
      l.f2 ++ printMD (ptr (written
        (written l.MD (outputBytes Nist.rate1024 (Nist.msgBits (ptr message) n) 0 0))
        (outputBytes Nist.rate1024 (Nist.msgBits (ptr message) n) 0 256)))⟩ := by
    rw [test, hmessage, hinit, hupdate, hp]
    simp only [hfinal, hsqueeze]
  refine ⟨_, printed (ptr p) n, htest, fun ws hws => ?_, ?_, ?_⟩
  · obtain ⟨j, -, rfl⟩ := List.mem_map.1 hws
    rw [printedBlock, List.length_map, List.length_range]
  · rw [printBlocks_eq]
  · rw [printMD_eq _ hstate]

/-- The tests, one after another. -/
theorem runTests_eq {fuel : Nat} (h256 : 256 < fuel) (rand : Nat → Byte) (l : Locals)
    {lengths : List Nat} (hfuel : ∀ n ∈ lengths, n < fuel) (hn : ∀ n ∈ lengths, n ≤ 30000) :
    ∃ (l' : Locals) (messages : List (List (List Lane))),
      runTests fuel rand 1024 l lengths = some l' ∧
      (∀ m ∈ messages, ∀ ws ∈ m, ws.length = 16) ∧
      l'.f = l.f ++ messages.flatMap MidRange.Bench.linesOf ∧
      l'.f2 = l.f2 ++ messages.flatMap MidRange.Bench.hashLines := by
  induction lengths generalizing l with
  | nil =>
    exact ⟨l, [], rfl, fun m hm => absurd hm List.not_mem_nil, (List.append_nil _).symm,
      (List.append_nil _).symm⟩
  | cons n lengths ih =>
    obtain ⟨l₁, blocks, htest, hws, hf, hf2⟩ := test_eq h256 rand l (hfuel n (.head _))
      (hn n (.head _))
    obtain ⟨l', messages, hrun, hmessages, hf', hf2'⟩ := ih l₁ (fun n h => hfuel n (.tail _ h))
      fun n h => hn n (.tail _ h)
    refine ⟨l', blocks :: messages, ?_, ?_, ?_, ?_⟩
    · rw [runTests, htest]
      exact hrun
    · exact List.forall_mem_cons.2 ⟨hws, hmessages⟩
    · rw [hf', hf, List.append_assoc, List.flatMap_cons]
    · rw [hf2', hf2, List.append_assoc, List.flatMap_cons]

/-- The files of `displaySpongeIntermediateValues_vhdl`: messages, and the words of their hashes. -/
theorem displaySpongeIntermediateValuesVhdl_eq {fuel : Nat} (hfuel : 1300 ≤ fuel)
    (rand : Nat → Byte) (state : Nist.HashState) (MD : Vector Byte 64) :
    ∃ messages : List (List (List Lane)), (∀ m ∈ messages, ∀ ws ∈ m, ws.length = 16) ∧
      displaySpongeIntermediateValuesVhdl fuel rand state MD =
        some (MidRange.Bench.inputOf 1200 messages,
          messages.flatMap MidRange.Bench.hashLines) := by
  have hle : ∀ n ∈ (List.range 1200).map (100 + ·), n < 1300 := by
    intro n hn
    obtain ⟨k, hk, rfl⟩ := List.mem_map.1 hn
    have := List.mem_range.1 hk
    omega
  obtain ⟨l', messages, hrun, hws, hf, hf2⟩ := runTests_eq (show 256 < fuel by omega) rand
    ⟨state, MD, 0, [.number 1200], []⟩ (fun n hn => Nat.lt_of_lt_of_le (hle n hn) hfuel)
    fun n hn => by have := hle n hn; omega
  refine ⟨messages, hws, ?_⟩
  rw [displaySpongeIntermediateValuesVhdl, show 1600 - 576 = 1024 from rfl, hrun, Option.map_some,
    hf, hf2]
  rfl

/-! ## The permutation -/

/-- The words of a state. -/
def stateWords (A : State) : List Lane := (List.range 25).map fun k => A.getD k 0

/-- The words of a state over those of any other. -/
theorem overwrite_stateWords (A B : State) : LowArea.Bench.overwrite B (stateWords A) = A := by
  apply ext_getD 0
  intro k hk
  rw [LowArea.Bench.overwrite, getD_of_lt _ _ hk, Vector.getElem_ofFn, stateWords,
    List.getD_eq_getElem?_getD, List.getElem?_map, List.getElem?_range hk]
  rfl

/-- The files of `KeccakPermutationIntermediateValuesForVHDL` at every number of tests: states, and
what they are after a permutation. -/
theorem permutationTests_eq (numTests : Nat) (A : State) : ∃ blocks : List (List Lane),
    (∀ ws ∈ blocks, ws.length = 25) ∧
      (permutationTests keccakInitialize numTests A).1 ++ [.dot] = LowArea.Bench.inputOf blocks ∧
      ∀ B, (permutationTests keccakInitialize numTests A).2 = LowArea.Bench.expected B blocks := by
  induction numTests generalizing A with
  | zero => exact ⟨[], fun ws h => absurd h List.not_mem_nil, rfl, fun B => rfl⟩
  | succ numTests ih =>
    obtain ⟨blocks, hlen, hin, hout⟩ := ih (keccakPermutationOnWords keccakInitialize
      (keccakPermutationOnWords keccakInitialize A))
    have hwords : (stateWords A).length = 25 := by
      rw [stateWords, List.length_map, List.length_range]
    refine ⟨stateWords A :: blocks, List.forall_mem_cons.2 ⟨hwords, hlen⟩, ?_, fun B => ?_⟩
    · rw [permutationTests, List.append_assoc, hin]
      rfl
    · have hprint : printState (keccakPermutationOnWords keccakInitialize A) =
          LowArea.Bench.linesOf (keccakF1600StatePermute A) := by
        rw [keccakPermutationOnWords_eq]
        rfl
      simp only [permutationTests, LowArea.Bench.expected, overwrite_stateWords, hprint,
        hout (keccakF1600StatePermute A)]

/-! ## The files and the testbenches -/

/-- **The hashes of the hardware are those of the reference code.** Whatever `rand()` returns, the
generator of the test vectors ends, and on the messages it writes the testbenches of the mid-range
and of the high-speed core end and write the file of hashes that it has written. -/
theorem hash_vectors (rand : Nat → Byte) (state : Nist.HashState) (MD : Vector Byte 64) :
    ∃ N, ∀ fuel ≥ N, ∃ keccakIn keccakRefOut,
      displaySpongeIntermediateValuesVhdl fuel rand state MD = some (keccakIn, keccakRefOut) ∧
      (∀ core, ∃ n b, Machine.runFor MidRange.Bench.step n (.reset core keccakIn) = some b ∧
        b.st = .STOP ∧ b.filein = [] ∧ b.fileout = keccakRefOut) ∧
      ∃ n b, Machine.runFor HighSpeed.Bench.step n (.reset keccakIn) = some b ∧
        b.st = .STOP ∧ b.filein = [] ∧ b.fileout = keccakRefOut := by
  refine ⟨1300, fun fuel hfuel => ?_⟩
  obtain ⟨messages, hlen, heq⟩ := displaySpongeIntermediateValuesVhdl_eq hfuel rand state MD
  refine ⟨_, _, heq, fun core => ?_, ?_⟩
  · obtain ⟨b, hstep, h, hin, hout⟩ := MidRange.Bench.reset_step core 1200 messages
    obtain ⟨b', hrun, hst, hfin, hout'⟩ := h.messages hlen hin
    exact ⟨_, b', Machine.runFor_succ hstep hrun, hst, hfin,
      by rw [hout', hout, List.nil_append]⟩
  · obtain ⟨b, hstep, h, hin, hout⟩ := HighSpeed.Bench.reset_step 1200 messages
    obtain ⟨b', hrun, hst, hfin, hout'⟩ := h.messages hlen hin
    exact ⟨_, b', Machine.runFor_succ hstep hrun, hst, hfin,
      by rw [hout', hout, List.nil_append]⟩

/-- The files for a `rand()` that always returns 0. -/
theorem hash_vectors_zero : ∃ N, ∀ fuel ≥ N, ∃ keccakIn keccakRefOut,
    displaySpongeIntermediateValuesVhdl fuel (fun _ => 0) uninitialised (.replicate 64 0) =
      some (keccakIn, keccakRefOut) ∧
      ∃ n b, Machine.runFor HighSpeed.Bench.step n (.reset keccakIn) = some b ∧
        b.st = .STOP ∧ b.filein = [] ∧ b.fileout = keccakRefOut := by
  obtain ⟨N, h⟩ := hash_vectors (fun _ => 0) uninitialised (.replicate 64 0)
  refine ⟨N, fun fuel hfuel => ?_⟩
  obtain ⟨keccakIn, keccakRefOut, heq, -, hrun⟩ := h fuel hfuel
  exact ⟨keccakIn, keccakRefOut, heq, hrun⟩

/-- **The permutations of the hardware are those of the reference code.** On the states that the
generator writes, at every number of tests and from every first state, the testbenches of the
low-area coprocessor and of the high-speed core's round end and write the file of permutations that
it has written. -/
theorem permutation_vectors (numTests : Nat) (A : State) :
    let permIn := (permutationTests keccakInitialize numTests A).1 ++ [.dot]
    let permRefOut := (permutationTests keccakInitialize numTests A).2
    (∀ sys dataToMemTb, ∃ n b,
      Machine.runFor LowArea.Bench.step n (.init sys dataToMemTb permIn) = some b ∧
        b.st = .STOP ∧ b.filein = [] ∧ b.fileout = permRefOut) ∧
      ∀ roundIn, ∃ n b,
        Machine.runFor HighSpeed.RoundBench.step n (.reset roundIn permIn) = some b ∧
          b.st = .STOP ∧ b.filein = [] ∧ b.fileout = permRefOut := by
  obtain ⟨blocks, hlen, hin, hout⟩ := permutationTests_eq numTests A
  rw [hin, hout (.replicate 25 0)]
  refine ⟨fun sys dataToMemTb => ?_, fun roundIn => ?_⟩
  · obtain ⟨hload, hzero⟩ := LowArea.Bench.init_loading sys dataToMemTb
      (LowArea.Bench.inputOf blocks)
    obtain ⟨b', hrun, hst, hfin, hout'⟩ :=
      hload.blocks (fun ws hws => Nat.le_of_eq (hlen ws hws)) rfl
    rw [hzero] at hout'
    exact ⟨_, b', hrun, hst, hfin, hout'⟩
  · obtain ⟨b', hrun, hst, hfin, hout'⟩ := HighSpeed.RoundBench.blocks
      (b := .reset roundIn (LowArea.Bench.inputOf blocks)) rfl hlen rfl (.replicate 25 0)
    exact ⟨_, b', hrun, hst, hfin, hout'⟩

example : keccakPermutationIntermediateValuesForVHDL =
    ((permutationTests keccakInitialize 10 (.replicate 25 0)).1 ++ [.dot],
      (permutationTests keccakInitialize 10 (.replicate 25 0)).2) := rfl

end ShakeAccel.Reference.TestVectors
