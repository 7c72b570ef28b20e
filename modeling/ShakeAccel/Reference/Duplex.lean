import Mathlib.Algebra.GroupWithZero.Nat
import ShakeAccel.Lib.Machine
import ShakeAccel.Reference.Bytes

/-!
# The reference duplex object (`KeccakDuplex.c`)

Every call of `Duplexing` absorbs one padded input of any number of bits up to `rate - 2` and
returns up to `rate` bits, or is refused. Over every sequence of calls, refused ones included, the
output of a call is the output of a sponge on the inputs accepted so far
(`duplexSession_eq_sponge`).
-/

namespace ShakeAccel.Reference

open Vec BitSponge

/-! ## The code -/

/-- `duplexState`. -/
structure DuplexState where
  state : ByteState
  rate : Nat
  capacity : Nat
  rhoMax : Nat

/-- `InitDuplex`: the value it returns and the object after. `rate-2` is an `unsigned int`. -/
def initDuplex (state : DuplexState) (rate capacity : Nat) : Nat × DuplexState :=
  if (rate + capacity) % 2 ^ 32 ≠ 1600 then (1, state)
  else if rate ≤ 0 ∨ rate > 1600 then (1, state)
  else
    (0, { state := keccakInitializeState, rate, capacity,
          rhoMax := (rate + (2 ^ 32 - 2)) % 2 ^ 32 })

/-- The arguments of a call of `Duplexing`, and what the block on its stack holds. -/
structure DuplexCall where
  inp : Ptr
  inBitLen : Nat
  outBitLen : Nat
  block : ByteState

/-- The block that `Duplexing` absorbs: the input and the two ends of the padding. -/
def duplexBlock (rate : Nat) (c : DuplexCall) : ByteState :=
  let used := (c.inBitLen + 7) / 8
  let block := memcpy c.block 0 c.inp used
  let block := memzero block used ((rate + 63) / 64 * 8 - used)
  let block := setBit block c.inBitLen
  setBit block (rate - 1)

/-- `Duplexing`: the value it returns, the bytes it writes and the object after. A block on the
stack or a `memset` that would leave it is undefined behaviour. -/
def duplexing (st : DuplexState) (c : DuplexCall) : Option (Nat × List Byte × DuplexState) :=
  if c.inBitLen > st.rhoMax then some (1, [], st)
  else if c.inBitLen % 8 ≠ 0 ∧
      c.inp (c.inBitLen / 8) &&& ~~~((1 : Byte) <<< (c.inBitLen % 8) - 1) ≠ 0 then
    some (1, [], st)
  else if c.outBitLen > st.rate then some (1, [], st)
  else if (c.inBitLen + 7) / 8 > (st.rate + 63) / 64 * 8 then none
  else
    let laneCount := (st.rate + 63) / 64
    let state := keccakAbsorb st.state (ptr (duplexBlock st.rate c)) laneCount
    let block := keccakExtract state (duplexBlock st.rate c) laneCount
    let out := (List.range ((c.outBitLen + 7) / 8)).map (ptr block)
    let out :=
      if c.outBitLen % 8 ≠ 0 then
        out.set (c.outBitLen / 8)
          (out.getD (c.outBitLen / 8) 0 &&& ((1 : Byte) <<< (c.outBitLen % 8) - 1))
      else out
    some (0, out, { st with state })

/-! ## One call -/

/-- A rate of a duplex object that leaves room for the padding. -/
structure DuplexRate where
  bits : Nat
  ge : 2 ≤ bits
  le : bits ≤ 1600

variable {r : DuplexRate}

/-- `InitDuplex` accepts these rates, and sets the greatest input length. -/
theorem initDuplex_eq (r : DuplexRate) (st : DuplexState) :
    initDuplex st r.bits (1600 - r.bits) =
      (0, ⟨keccakInitializeState, r.bits, 1600 - r.bits, r.bits - 2⟩) := by
  have hge := r.ge
  have hle := r.le
  unfold initDuplex
  rw [if_neg (by omega), if_neg (by omega),
    show (r.bits + (2 ^ 32 - 2)) % 2 ^ 32 = r.bits - 2 by omega]

/-- `InitDuplex` also accepts rate 1, for which `rate-2` wraps around: the bound on the input is
gone, and an input of more than 64 bits makes the `memset` leave the block. -/
theorem duplexing_rate_one (st : DuplexState) (c : DuplexCall) (hin : 64 < c.inBitLen)
    (h32 : c.inBitLen < 2 ^ 32) (hbyte : c.inBitLen % 8 = 0) (hout : c.outBitLen ≤ 1) :
    (initDuplex st 1 1599).1 = 0 ∧ duplexing (initDuplex st 1 1599).2 c = none := by
  have hinit : initDuplex st 1 1599 = (0, ⟨keccakInitializeState, 1, 1599, 2 ^ 32 - 1⟩) := rfl
  rw [hinit]
  refine ⟨rfl, ?_⟩
  unfold duplexing
  rw [if_neg (by simp only; omega), if_neg (fun h => h.1 hbyte), if_neg (by simp only; omega),
    if_pos (by simp only; omega)]

/-- The calls that a duplex object accepts: the input leaves room for the padding, the unused bits
of its last byte are clear, and the output is at most a block. -/
def DuplexCall.Accepted (r : DuplexRate) (c : DuplexCall) : Prop :=
  c.inBitLen + 2 ≤ r.bits ∧ c.outBitLen ≤ r.bits ∧
    (c.inBitLen % 8 ≠ 0 →
      c.inp (c.inBitLen / 8) &&& ~~~((1 : Byte) <<< (c.inBitLen % 8) - 1) = 0)

instance (r : DuplexRate) (c : DuplexCall) : Decidable (c.Accepted r) :=
  inferInstanceAs (Decidable (_ ∧ _ ∧ _))

/-- The input of a call. -/
def DuplexCall.input (c : DuplexCall) : List Bool := bits c.inp c.inBitLen

/-- A bit string in whole bytes, the last byte filled with zeros. -/
def packBits (g : Nat → Bool) (n : Nat) : List Byte :=
  (List.range ((n + 7) / 8)).map fun k =>
    Bits.ofBits 8 fun t => decide (8 * k + t < n) && g (8 * k + t)

/-- XORing a bit string looks at its bits only: zeros behind it do not matter. -/
theorem xorBits_congr (s : ByteState) {a b : List Bool}
    (h : ∀ i < 1600, a.getD i false = b.getD i false) : xorBits s a = xorBits s b := by
  apply ext_getD 0
  intro k hk
  rw [getD_xorBits _ _ hk, getD_xorBits _ _ hk]
  congr 1
  apply BitVec.eq_of_getLsbD_eq
  intro i hi
  rw [Bits.getLsbD_ofBits, Bits.getLsbD_ofBits, h _ (by omega)]

/-- The check on the last byte of the input clears its bits from `p` on. -/
theorem getLsbD_of_masked {v : Byte} {p : Nat} (hp : p < 8)
    (h : v &&& ~~~((1 : Byte) <<< p - 1) = 0) {t : Nat} (ht : p ≤ t) (ht8 : t < 8) :
    v.getLsbD t = false := by
  have hbit := congrArg (·.getLsbD t) h
  simp only [BitVec.getLsbD_and, BitVec.getLsbD_not, getLsbD_mask p hp t ht8, decide_eq_true ht8,
    decide_eq_false (Nat.not_lt.2 ht), Bool.not_false, Bool.and_true] at hbit
  exact hbit.trans BitVec.getLsbD_zero

/-- The block of an accepted call holds the padded input and zeros. -/
theorem bitAt_duplexBlock {c : DuplexCall} (hc : c.Accepted r) {i : Nat}
    (hi : i < 8 * ((r.bits + 63) / 64 * 8)) :
    bitAt (duplexBlock r.bits c) i = (pad r.bits c.input).getD i false := by
  have hge := r.ge
  have hle := r.le
  obtain ⟨hin, -, hmask⟩ := hc
  have hlen : c.input.length = c.inBitLen := length_bits _ _
  rw [duplexBlock, bitAt_setBit _ (by omega), bitAt_setBit _ (by omega), bitAt_memzero,
    bitAt_memcpy, getD_pad, length_pad_of_add_two_le (by omega), hlen]
  congr 2
  by_cases hlt : i < c.inBitLen
  · rw [if_neg (by omega), if_pos (by omega), DuplexCall.input, getD_bits _ hlt, Nat.sub_zero]
  · rw [List.getD_eq_default _ _ (by omega)]
    by_cases hbyte : i / 8 < (c.inBitLen + 7) / 8
    · -- the unused bits of the last byte
      rw [if_neg (by omega), if_pos (by omega), Nat.sub_zero, show i / 8 = c.inBitLen / 8 by omega]
      exact getLsbD_of_masked (Nat.mod_lt _ (by decide)) (hmask (by omega)) (by omega)
        (Nat.mod_lt _ (by decide))
    · rw [if_pos (by omega)]

/-- The output bytes of an accepted call: the first bits of the state. -/
theorem output_eq_packBits (block : ByteState) (n : Nat) :
    (if n % 8 ≠ 0 then
        ((List.range ((n + 7) / 8)).map (ptr block)).set (n / 8)
          (((List.range ((n + 7) / 8)).map (ptr block)).getD (n / 8) 0 &&&
            ((1 : Byte) <<< (n % 8) - 1))
      else (List.range ((n + 7) / 8)).map (ptr block)) = packBits (bitAt block) n := by
  have hbyte : ∀ k t, t < 8 → bitAt block (8 * k + t) = (ptr block k).getLsbD t := by
    intro k t ht
    rw [bitAt, show (8 * k + t) / 8 = k by omega, show (8 * k + t) % 8 = t by omega]
  have hlen : ((List.range ((n + 7) / 8)).map (ptr block)).length = (n + 7) / 8 := by
    rw [List.length_map, List.length_range]
  have hget : ∀ k < (n + 7) / 8, ((List.range ((n + 7) / 8)).map (ptr block)).getD k 0 =
      ptr block k := by
    intro k hk
    rw [List.getD_eq_getElem _ _ (by rwa [hlen]), List.getElem_map, List.getElem_range]
  split
  · next hn =>
    rw [hget _ (by omega)]
    apply List.ext_getElem (by rw [List.length_set, hlen, packBits, List.length_map,
      List.length_range])
    intro k hk hk'
    rw [List.length_set, hlen] at hk
    simp only [List.getElem_set, packBits, List.getElem_map, List.getElem_range]
    apply BitVec.eq_of_getLsbD_eq
    intro t ht
    rw [Bits.getLsbD_ofBits, decide_eq_true ht, Bool.true_and, hbyte k t ht]
    split
    · next heq =>
      subst heq
      rw [BitVec.getLsbD_and, getLsbD_mask _ (Nat.mod_lt n (by decide)) t ht, Bool.and_comm]
      congr 1
      exact decide_eq_decide.2 (by omega)
    · rw [decide_eq_true (by omega), Bool.true_and]
  · next hn =>
    refine List.map_congr_left fun k hk => ?_
    have := List.mem_range.1 hk
    apply BitVec.eq_of_getLsbD_eq
    intro t ht
    rw [Bits.getLsbD_ofBits, decide_eq_true ht, Bool.true_and, hbyte k t ht,
      decide_eq_true (by omega), Bool.true_and]

/-- The object in use at rate `r`. -/
structure Duplexes (r : DuplexRate) (s : ByteState) (st : DuplexState) : Prop where
  rate : st.rate = r.bits
  rhoMax : st.rhoMax = r.bits - 2
  state : st.state = s

/-- A call that is not accepted returns 1 and changes nothing. -/
theorem duplexing_of_not_accepted {s : ByteState} {st : DuplexState} (h : Duplexes r s st)
    {c : DuplexCall} (hc : ¬c.Accepted r) : duplexing st c = some (1, [], st) := by
  have hge := r.ge
  unfold duplexing
  rw [h.rate, h.rhoMax]
  by_cases hin : c.inBitLen > r.bits - 2
  · rw [if_pos hin]
  by_cases hmask : c.inBitLen % 8 ≠ 0 ∧
      c.inp (c.inBitLen / 8) &&& ~~~((1 : Byte) <<< (c.inBitLen % 8) - 1) ≠ 0
  · rw [if_neg hin, if_pos hmask]
  by_cases hout : c.outBitLen > r.bits
  · rw [if_neg hin, if_neg hmask, if_pos hout]
  exact absurd ⟨by omega, by omega, fun h8 => not_not.1 fun h0 => hmask ⟨h8, h0⟩⟩ hc

/-- A call that is accepted permutes the state with the padded input XORed into it, and writes the
first bits of the new state. -/
theorem duplexing_of_accepted {s : ByteState} {st : DuplexState} (h : Duplexes r s st)
    {c : DuplexCall} (hc : c.Accepted r) :
    ∃ st', duplexing st c = some (0,
        packBits (bitAt (keccakPermutation (xorBits s (pad r.bits c.input)))) c.outBitLen, st') ∧
      Duplexes r (keccakPermutation (xorBits s (pad r.bits c.input))) st' := by
  have hge := r.ge
  have hle := r.le
  obtain ⟨hin, hout, hmask⟩ := id hc
  have hlen : c.input.length = c.inBitLen := length_bits _ _
  have hstate : keccakAbsorb s (ptr (duplexBlock r.bits c)) ((r.bits + 63) / 64) =
      keccakPermutation (xorBits s (pad r.bits c.input)) := by
    rw [keccakAbsorb, keccakPermutationAfterXor_eq]
    refine congrArg keccakPermutation (xorBits_congr s fun i _ => ?_)
    by_cases hi : i < 8 * ((r.bits + 63) / 64 * 8)
    · rw [getD_bits _ hi]
      exact bitAt_duplexBlock hc hi
    · rw [List.getD_eq_default _ _ (by rw [length_bits]; omega),
        List.getD_eq_default _ _ (by rw [length_pad_of_add_two_le (by omega)]; omega)]
  generalize hs' : keccakPermutation (xorBits s (pad r.bits c.input)) = s' at hstate ⊢
  -- the bytes of the block that are written are bytes of the state
  have hblock : (List.range ((c.outBitLen + 7) / 8)).map
      (ptr (keccakExtract s' (duplexBlock r.bits c) ((r.bits + 63) / 64))) =
      (List.range ((c.outBitLen + 7) / 8)).map (ptr s') := by
    refine List.map_congr_left fun k hk => ?_
    have := List.mem_range.1 hk
    rw [keccakExtract, ptr_memcpy, if_pos (by omega), Nat.sub_zero]
  refine ⟨{ st with state := s' }, ?_, h.rate, h.rhoMax, rfl⟩
  unfold duplexing
  rw [h.rate, h.rhoMax, h.state, if_neg (by omega), if_neg (fun hm => hm.2 (hmask hm.1)),
    if_neg (by omega), if_neg (by omega)]
  simp only [hstate, hblock]
  rw [output_eq_packBits]

/-! ## Sessions -/

/-- A sequence of calls of the code. -/
def runDuplex : DuplexState → List DuplexCall → Option (List (Nat × List Byte) × DuplexState)
  | st, [] => some ([], st)
  | st, c :: cs =>
    match duplexing st c with
    | none => none
    | some (code, out, st) => (runDuplex st cs).map fun r => ((code, out) :: r.1, r.2)

/-- The inputs accepted after a call. -/
def acceptedNext (r : DuplexRate) (ins : List (List Bool)) (c : DuplexCall) : List (List Bool) :=
  if c.Accepted r then ins ++ [c.input] else ins

/-- The answer of a sponge: the first bits of its output for the accepted inputs, all but the last
one padded, and the input of the call. -/
def spongeAnswer (r : DuplexRate) (ins : List (List Bool)) (c : DuplexCall) : Nat × List Byte :=
  if c.Accepted r then
    (0, packBits (Sponge.stream keccakPermutation bitAt r.bits
      (final keccakPermutation xorBits r.bits keccakInitializeState
        (padded r.bits ins ++ c.input))) c.outBitLen)
  else (1, [])

theorem packBits_congr {f g : Nat → Bool} {n : Nat} (h : ∀ i < n, f i = g i) :
    packBits f n = packBits g n := by
  refine List.map_congr_left fun k _ => ?_
  apply BitVec.eq_of_getLsbD_eq
  intro t ht
  rw [Bits.getLsbD_ofBits, Bits.getLsbD_ofBits]
  by_cases hlt : 8 * k + t < n
  · rw [h _ hlt]
  · rw [decide_eq_false hlt, Bool.false_and, Bool.false_and]

/-- One call of a session. -/
theorem duplexing_eq {ins : List (List Bool)} (hins : ∀ i ∈ ins, i.length + 2 ≤ r.bits)
    {st : DuplexState}
    (h : Duplexes r (duplex keccakPermutation xorBits r.bits keccakInitializeState ins) st)
    (c : DuplexCall) :
    ∃ st', duplexing st c = some ((spongeAnswer r ins c).1, (spongeAnswer r ins c).2, st') ∧
      (∀ i ∈ acceptedNext r ins c, i.length + 2 ≤ r.bits) ∧
      Duplexes r (duplex keccakPermutation xorBits r.bits keccakInitializeState
        (acceptedNext r ins c)) st' := by
  have hge := r.ge
  unfold spongeAnswer acceptedNext
  by_cases hc : c.Accepted r
  · obtain ⟨st', hcall, h'⟩ := duplexing_of_accepted h hc
    have hlen : c.input.length + 2 ≤ r.bits := by
      rw [DuplexCall.input, length_bits]
      exact hc.1
    have hnext : duplex keccakPermutation xorBits r.bits keccakInitializeState (ins ++ [c.input]) =
        keccakPermutation (xorBits (duplex keccakPermutation xorBits r.bits keccakInitializeState
          ins) (pad r.bits c.input)) := by
      rw [duplex, List.foldl_append, ← duplex]
      rfl
    rw [if_pos hc, if_pos hc]
    refine ⟨st', ?_, ?_, by rwa [hnext]⟩
    · rw [hcall, ← hnext, duplex_concat (by omega) _ hins hlen]
      refine congrArg some (Prod.ext rfl (Prod.ext (packBits_congr fun i hi => ?_) rfl))
      exact (Sponge.stream_of_lt _ _ _ (Nat.lt_of_lt_of_le hi hc.2.1)).symm
    · intro i hi
      rcases List.mem_append.1 hi with hi | hi
      · exact hins i hi
      · rwa [List.mem_singleton.1 hi]
  · rw [if_neg hc, if_neg hc]
    exact ⟨st, duplexing_of_not_accepted h hc, hins, h⟩

theorem runDuplex_eq {ins : List (List Bool)} (hins : ∀ i ∈ ins, i.length + 2 ≤ r.bits)
    {st : DuplexState}
    (h : Duplexes r (duplex keccakPermutation xorBits r.bits keccakInitializeState ins) st)
    (cs : List DuplexCall) :
    ∃ st', runDuplex st cs = some
        (Machine.collect (acceptedNext r) (fun ins c => [spongeAnswer r ins c]) ins cs, st') ∧
      Duplexes r (duplex keccakPermutation xorBits r.bits keccakInitializeState
        (Machine.run (acceptedNext r) ins cs)) st' := by
  induction cs generalizing ins st with
  | nil => exact ⟨st, rfl, h⟩
  | cons c cs ih =>
    obtain ⟨st₁, hcall, hins₁, h₁⟩ := duplexing_eq hins h c
    obtain ⟨st₂, hrun, h₂⟩ := ih hins₁ h₁
    refine ⟨st₂, ?_, h₂⟩
    rw [runDuplex, hcall]
    simp only [hrun]
    rfl

/-- **A duplex object is a sponge, call after call.** At every rate that leaves room for the
padding, after `InitDuplex` and any sequence of calls, a call that is accepted returns 0 and writes
the first bits of the sponge's output for the inputs accepted so far; a call that is refused returns
1 and leaves the object as it is, and the later calls go on as if it had not been made. -/
theorem duplexSession_eq_sponge (r : DuplexRate) (st : DuplexState) (cs : List DuplexCall) :
    ∃ st', runDuplex (initDuplex st r.bits (1600 - r.bits)).2 cs = some
        (Machine.collect (acceptedNext r) (fun ins c => [spongeAnswer r ins c]) [] cs, st') ∧
      Duplexes r (duplex keccakPermutation xorBits r.bits keccakInitializeState
        (Machine.run (acceptedNext r) [] cs)) st' ∧
      ∀ c : DuplexCall, ¬c.Accepted r → duplexing st' c = some (1, [], st') := by
  have hinit : Duplexes r keccakInitializeState (initDuplex st r.bits (1600 - r.bits)).2 :=
    ⟨by rw [initDuplex_eq], by rw [initDuplex_eq], by rw [initDuplex_eq]⟩
  obtain ⟨st', hrun, h⟩ := runDuplex_eq (fun _ h => absurd h List.not_mem_nil) hinit cs
  exact ⟨st', hrun, h, fun c => duplexing_of_not_accepted h⟩

end ShakeAccel.Reference
