import ShakeAccel.Lib.BitSponge
import ShakeAccel.Reference.Permutation
import ShakeAccel.Soft.Bytes

/-!
# The byte interface of the reference permutation (`KeccakF-1600-interface.h`)

The sponge and duplex code holds the state as an array of 200 bytes. `KeccakPermutation` permutes
the words that the bytes form (on a little-endian platform through a cast of the pointer, which
reads the words that `fromBytesToWords` assembles), `KeccakAbsorb` and its variants for fixed rates
first XOR a block into the state, `KeccakExtract` copies a block out. On the bits of the state these
are the injection (`xorBits`) and the reading (`bitAt`) of a sponge.
-/

namespace ShakeAccel.Reference

open Vec BitSponge

/-- `unsigned char state[KeccakPermutationSizeInBytes]`. -/
abbrev ByteState := Vector Byte 200

/-- A `const unsigned char *`: the bytes it points to, by their offset. -/
abbrev Ptr := Nat → Byte

/-! ## The code -/

/-- `fromBytesToWords`. -/
def fromBytesToWords (state : ByteState) : State :=
  .ofFn fun i => (List.range 8).foldl (fun w j =>
    w ||| ((state.getD (i.val * 8 + j) 0).setWidth 64 <<< (8 * j))) 0

/-- `fromWordsToBytes`. -/
def fromWordsToBytes (stateAsWords : State) : ByteState :=
  .ofFn fun k => (stateAsWords.getD (k.val / 8) 0 >>> (8 * (k.val % 8))).setWidth 8

/-- `KeccakPermutation`, with the tables that `KeccakInitialize` has filled. -/
def keccakPermutation (state : ByteState) : ByteState :=
  fromWordsToBytes (keccakPermutationOnWords keccakInitialize (fromBytesToWords state))

/-- `KeccakPermutationAfterXor`. -/
def keccakPermutationAfterXor (state : ByteState) (data : Ptr) (dataLengthInBytes : Nat) :
    ByteState :=
  keccakPermutation ((List.range dataLengthInBytes).foldl (fun state i =>
    state.setIfInBounds i (state.getD i 0 ^^^ data i)) state)

/-- `KeccakInitializeState`. -/
def keccakInitializeState : ByteState := .replicate 200 0

/-- `KeccakAbsorb576bits`. -/
def keccakAbsorb576bits (state : ByteState) (data : Ptr) : ByteState :=
  keccakPermutationAfterXor state data 72

/-- `KeccakAbsorb832bits`. -/
def keccakAbsorb832bits (state : ByteState) (data : Ptr) : ByteState :=
  keccakPermutationAfterXor state data 104

/-- `KeccakAbsorb1024bits`. -/
def keccakAbsorb1024bits (state : ByteState) (data : Ptr) : ByteState :=
  keccakPermutationAfterXor state data 128

/-- `KeccakAbsorb1088bits`. -/
def keccakAbsorb1088bits (state : ByteState) (data : Ptr) : ByteState :=
  keccakPermutationAfterXor state data 136

/-- `KeccakAbsorb1152bits`. -/
def keccakAbsorb1152bits (state : ByteState) (data : Ptr) : ByteState :=
  keccakPermutationAfterXor state data 144

/-- `KeccakAbsorb1344bits`. -/
def keccakAbsorb1344bits (state : ByteState) (data : Ptr) : ByteState :=
  keccakPermutationAfterXor state data 168

/-- `KeccakAbsorb`. -/
def keccakAbsorb (state : ByteState) (data : Ptr) (laneCount : Nat) : ByteState :=
  keccakPermutationAfterXor state data (laneCount * 8)

/-- `memcpy(dst + offset, src, len)` into an array of `n` bytes. -/
def memcpy {n : Nat} (dst : Vector Byte n) (offset : Nat) (src : Ptr) (len : Nat) : Vector Byte n :=
  (List.range len).foldl (fun dst k => dst.setIfInBounds (offset + k) (src k)) dst

/-- `memset(dst + offset, 0, len)`. -/
def memzero {n : Nat} (dst : Vector Byte n) (offset len : Nat) : Vector Byte n :=
  memcpy dst offset (fun _ => 0) len

/-- A buffer as what a pointer to it points to. -/
def ptr {n : Nat} (buf : Vector Byte n) : Ptr := fun k => buf.getD k 0

/-- `buf[i/8] |= 1 << (i%8)`. -/
def setBit {n : Nat} (buf : Vector Byte n) (i : Nat) : Vector Byte n :=
  buf.setIfInBounds (i / 8) (buf.getD (i / 8) 0 ||| ((1 : Byte) <<< (i % 8)))

/-- `KeccakExtract1024bits`: the buffer `data` after the call. -/
def keccakExtract1024bits {n : Nat} (state : ByteState) (data : Vector Byte n) : Vector Byte n :=
  memcpy data 0 (ptr state) 128

/-- `KeccakExtract`: the buffer `data` after the call. -/
def keccakExtract {n : Nat} (state : ByteState) (data : Vector Byte n) (laneCount : Nat) :
    Vector Byte n :=
  memcpy data 0 (ptr state) (laneCount * 8)

/-! ## Bytes and words -/

theorem getD_fromWordsToBytes (w : State) {k : Nat} (hk : k < 200) :
    (fromWordsToBytes w).getD k 0 = stateByte w k := by
  rw [fromWordsToBytes, getD_of_lt _ _ hk, Vector.getElem_ofFn, Bits.setWidth_ushiftRight,
    stateByte]

/-- Byte `b` of a word that a loop assembles from `n` bytes. -/
theorem byteAt_foldl_or (d : Nat → Byte) {n b : Nat} (hb : b < 8) :
    Bits.byteAt ((List.range n).foldl (fun w j =>
      w ||| ((d j).setWidth 64 <<< (8 * j))) (0 : Lane)) b = if b < n then d b else 0 := by
  have hor : ∀ u v : Lane, Bits.byteAt (u ||| v) b = Bits.byteAt u b ||| Bits.byteAt v b := by
    intro u v
    apply BitVec.eq_of_getLsbD_eq
    intro i hi
    simp only [BitVec.getLsbD_or, Bits.getLsbD_byteAt, hi, decide_true, Bool.true_and]
  induction n with
  | zero => exact Bits.byteAt_zero b
  | succ n ih =>
    rw [List.range_succ, List.foldl_append, List.foldl_cons, List.foldl_nil, hor, ih,
      Bits.byteAt_setWidth_shiftLeft (n := 8) rfl _ hb]
    rcases Nat.lt_trichotomy b n with hlt | rfl | hgt
    · rw [if_pos hlt, if_neg (by omega), if_pos (by omega)]
      exact BitVec.or_zero
    · rw [if_neg (Nat.lt_irrefl b), if_pos rfl, if_pos (Nat.lt_succ_self b)]
      exact BitVec.zero_or
    · rw [if_neg (by omega), if_neg (by omega), if_neg (by omega)]
      exact BitVec.or_zero

theorem stateByte_fromBytesToWords (s : ByteState) {k : Nat} (hk : k < 200) :
    stateByte (fromBytesToWords s) k = s.getD k 0 := by
  have hw : k / 8 < 25 := by omega
  rw [stateByte, getD_of_lt _ _ hw, fromBytesToWords, Vector.getElem_ofFn,
    byteAt_foldl_or (fun j => s.getD (k / 8 * 8 + j) 0) (Nat.mod_lt k (by decide)),
    if_pos (Nat.mod_lt k (by decide)), Nat.div_add_mod' k 8]

theorem fromBytesToWords_fromWordsToBytes (w : State) :
    fromBytesToWords (fromWordsToBytes w) = w := by
  apply State.ext_bytes
  intro k hk
  rw [stateByte_fromBytesToWords _ hk, getD_fromWordsToBytes _ hk]

/-- The reference permutation permutes the words as `keccakf1600.c` does. -/
theorem fromBytesToWords_keccakPermutation (s : ByteState) :
    fromBytesToWords (keccakPermutation s) = keccakF1600StatePermute (fromBytesToWords s) := by
  rw [keccakPermutation, fromBytesToWords_fromWordsToBytes, keccakPermutationOnWords_eq]

/-- **Three permutations agree.** On every state the reference code with its tables generated at
start-up, the unrolled C code and 24 rounds of the hardware's netlist compute one function; the
little-endian words of a state of bytes are permuted the same way. -/
theorem reference_permutation_agrees :
    (∀ A : State, keccakPermutationOnWords keccakInitialize A = keccakF1600StatePermute A) ∧
    (∀ s : KState, keccakPermutationOnWords keccakInitialize s.toWords = (permute24 s).toWords) ∧
    ∀ s : ByteState,
      fromBytesToWords (keccakPermutation s) = keccakF1600StatePermute (fromBytesToWords s) := by
  refine ⟨keccakPermutationOnWords_eq, fun s => ?_, fromBytesToWords_keccakPermutation⟩
  rw [keccakPermutationOnWords_eq, permute24_toWords]

/-! ## Copies -/

theorem ptr_setIfInBounds {n : Nat} (buf : Vector Byte n) (i : Nat) (v : Byte) (k : Nat) :
    ptr (buf.setIfInBounds i v) k = if i = k ∧ k < n then v else ptr buf k :=
  getD_setIfInBounds buf i k v 0

theorem ptr_memcpy {n : Nat} (dst : Vector Byte n) (offset : Nat) (src : Ptr) (len k : Nat) :
    ptr (memcpy dst offset src len) k =
      if offset ≤ k ∧ k < offset + len ∧ k < n then src (k - offset) else ptr dst k := by
  induction len with
  | zero => rw [if_neg (by omega)]; rfl
  | succ len ih =>
    rw [memcpy, List.range_succ, List.foldl_append, List.foldl_cons, List.foldl_nil, ← memcpy,
      ptr_setIfInBounds, ih]
    by_cases hk : offset + len = k ∧ k < n
    · obtain ⟨rfl, hn⟩ := hk
      rw [if_pos ⟨rfl, hn⟩, if_pos (by omega), Nat.add_sub_cancel_left]
    · rw [if_neg hk]
      by_cases hlt : offset ≤ k ∧ k < offset + len ∧ k < n
      · rw [if_pos hlt, if_pos (by omega)]
      · rw [if_neg hlt, if_neg (by omega)]

/-! ## The bits of a buffer -/

/-- Bit `i` of a buffer. -/
def bitAt {n : Nat} (buf : Vector Byte n) (i : Nat) : Bool := (ptr buf (i / 8)).getLsbD (i % 8)

theorem bits_eq_of_bitAt {n k : Nat} {buf : Vector Byte n} {l : List Bool} (hl : l.length = k)
    (h : ∀ i < k, bitAt buf i = l.getD i false) : bits (ptr buf) k = l :=
  bits_eq_of_getD hl h

/-- The mask of the low bits of a byte. -/
theorem getLsbD_mask : ∀ p < 8, ∀ i < 8, ((1 : Byte) <<< p - 1).getLsbD i = decide (i < p) := by
  decide

theorem bitAt_setBit {n : Nat} (buf : Vector Byte n) {i : Nat} (hi : i < 8 * n) (j : Nat) :
    bitAt (setBit buf i) j = (bitAt buf j || decide (i = j)) := by
  have hone : ∀ a < 8, ∀ b < 8, ((1 : Byte) <<< a).getLsbD b = decide (a = b) := by decide
  rw [bitAt, setBit, ptr_setIfInBounds]
  by_cases h : i / 8 = j / 8
  · rw [if_pos ⟨h, by omega⟩, BitVec.getLsbD_or, hone _ (Nat.mod_lt i (by decide)) _
      (Nat.mod_lt j (by decide)), bitAt, ptr, h]
    congr 1
    exact decide_eq_decide.2 (by omega)
  · rw [if_neg fun h' => h h'.1, decide_eq_false (by omega), Bool.or_false, bitAt]

theorem bitAt_memcpy {n : Nat} (buf : Vector Byte n) (offset : Nat) (src : Ptr) (len j : Nat) :
    bitAt (memcpy buf offset src len) j =
      if offset ≤ j / 8 ∧ j / 8 < offset + len ∧ j / 8 < n then
        (src (j / 8 - offset)).getLsbD (j % 8)
      else bitAt buf j := by
  rw [bitAt, ptr_memcpy]
  split <;> rfl

theorem bitAt_memzero {n : Nat} (buf : Vector Byte n) (offset len j : Nat) :
    bitAt (memzero buf offset len) j =
      if offset ≤ j / 8 ∧ j / 8 < offset + len ∧ j / 8 < n then false else bitAt buf j := by
  rw [memzero, bitAt_memcpy]
  split
  · exact BitVec.getLsbD_zero
  · rfl

/-! ## The bits of the state -/

/-- The state with a bit string XORed into its first bits. -/
def xorBits (s : ByteState) (b : List Bool) : ByteState :=
  .ofFn fun k => s.get k ^^^ Bits.ofBits 8 fun i => b.getD (8 * k + i) false

theorem getD_xorBits (s : ByteState) (b : List Bool) {k : Nat} (hk : k < 200) :
    (xorBits s b).getD k 0 = s.getD k 0 ^^^ Bits.ofBits 8 fun i => b.getD (8 * k + i) false := by
  rw [getD_of_lt _ _ hk, getD_of_lt _ _ hk, xorBits, Vector.getElem_ofFn]
  rfl

/-- The bits of a byte string, byte by byte. -/
theorem ofBits_getD_bits (d : Ptr) (n k : Nat) :
    (Bits.ofBits 8 fun i => (bits d (8 * n)).getD (8 * k + i) false) =
      if k < n then d k else 0 := by
  apply BitVec.eq_of_getLsbD_eq
  intro i hi
  rw [Bits.getLsbD_ofBits, decide_eq_true hi, Bool.true_and]
  split
  · next h =>
    rw [getD_bits _ (by omega), show (8 * k + i) / 8 = k by omega,
      show (8 * k + i) % 8 = i by omega]
  · next h =>
    rw [List.getD_eq_default _ _ (by rw [length_bits]; omega)]
    exact BitVec.getLsbD_zero.symm

/-- `KeccakPermutationAfterXor` XORs the bits of the block into the state and permutes. -/
theorem keccakPermutationAfterXor_eq (s : ByteState) (d : Ptr) (n : Nat) :
    keccakPermutationAfterXor s d n = keccakPermutation (xorBits s (bits d (8 * n))) := by
  have hxor : (List.range n).foldl (fun s i => s.setIfInBounds i (s.getD i 0 ^^^ d i)) s =
      xorBits s (bits d (8 * n)) := by
    apply ext_getD 0
    intro k hk
    rw [getD_xorBits _ _ hk, ofBits_getD_bits]
    split
    · next h =>
      have := getD_foldl_modify (k := k) id (fun i v => v ^^^ d i) 0 s
        (by rw [List.map_id]; exact List.nodup_range) (List.mem_range.2 h) hk
      exact this
    · next h =>
      have hk : k ∉ (List.range n).map id := by rw [List.map_id, List.mem_range]; exact h
      have := getD_foldl_modify_of_notMem id (fun i v => v ^^^ d i) 0 s hk
      exact this.trans BitVec.xor_zero.symm
  rw [keccakPermutationAfterXor, hxor]

end ShakeAccel.Reference
