import Mathlib.Algebra.BigOperators.Group.List.Basic
import Mathlib.Algebra.GroupWithZero.Nat
import ShakeAccel.Soft.OneShot

/-!
# The incremental functions (`fips202.c`)

A context holds the 25 words of the state and a 26th word: while absorbing the number of bytes
XORed into the current block, while squeezing the number of bytes of the current block not yet
returned. `Absorbing` and `Squeezing` say what a context stands for; each call moves it by the
bytes of the call, so that how a message or an output is cut into calls does not matter.
-/

namespace ShakeAccel

open Vec

/-- The context `ctx[26]` of the incremental functions: the words 0 to 24, and word 25. -/
structure IncCtx where
  state : State
  count : Nat

/-- `keccak_inc_init`: every word is set to 0, whatever the context held. -/
def keccakIncInit (sInc : IncCtx) : IncCtx where
  state := (List.range 25).foldl (fun s i => s.setIfInBounds i 0) sInc.state
  count := 0

/-- `keccak_inc_absorb`: blocks are completed and permuted while the bytes suffice, the rest is
XORed into the next block. -/
def keccakIncAbsorb (sInc : IncCtx) (r : Rate) (m : List Byte) : IncCtx :=
  if _ : r.bytes ≤ m.length + sInc.count then
    let s := keccakF1600StateXORBytes sInc.state m sInc.count (r.bytes - sInc.count)
    let m := m.drop (r.bytes - sInc.count)
    keccakIncAbsorb ⟨keccakF1600StatePermute s, 0⟩ r m
  else
    { state := keccakF1600StateXORBytes sInc.state m sInc.count m.length
      count := sInc.count + m.length }
termination_by m.length + sInc.count
decreasing_by
  have := r.pos
  simp only [List.length_drop]
  omega

/-- The local array `t[200]` of `keccak_inc_finalize`, from what it holds on entry: the first `r`
bytes are set to 0, the suffix byte is stored behind the `n` absorbed bytes, and the final bit is
set. -/
def finalScratch (t : Vector Byte 200) (r : Rate) (n : Nat) (p : Byte) : Vector Byte 200 :=
  let t := (List.range r.bytes).foldl (fun t i => t.setIfInBounds i 0) t
  let t := t.setIfInBounds n p
  t.setIfInBounds (r.bytes - 1) (t.getD (r.bytes - 1) 0 ||| 128)

/-- `keccak_inc_finalize`; `t` is what its local array holds on entry. -/
def keccakIncFinalize (t : Vector Byte 200) (sInc : IncCtx) (r : Rate) (p : Byte) : IncCtx where
  state :=
    keccakF1600StateXORBytes sInc.state (finalScratch t r sInc.count p).toList 0 r.bytes
  count := 0

/-- The loop of `keccak_inc_squeeze`: one permutation for each block begun. -/
def keccakIncSqueezeLoop (sInc : IncCtx) (r : Rate) (outlen : Nat) : List Byte × IncCtx :=
  if _ : 0 < outlen then
    let s := keccakF1600StatePermute sInc.state
    let len := if outlen < r.bytes then outlen else r.bytes
    let h := keccakF1600StateExtractBytes s 0 len
    let rest := keccakIncSqueezeLoop ⟨s, r.bytes - len⟩ r (outlen - len)
    (h ++ rest.1, rest.2)
  else ([], sInc)
termination_by outlen
decreasing_by
  have := r.pos
  split <;> omega

/-- `keccak_inc_squeeze`: the bytes written to `h`, and the context after. The bytes left over from
the last block come first. -/
def keccakIncSqueeze (sInc : IncCtx) (r : Rate) (outlen : Nat) : List Byte × IncCtx :=
  let len := if outlen < sInc.count then outlen else sInc.count
  let h := keccakF1600StateExtractBytes sInc.state (r.bytes - sInc.count) len
  let rest := keccakIncSqueezeLoop ⟨sInc.state, sInc.count - len⟩ r (outlen - len)
  (h ++ rest.1, rest.2)

/-- `shake128_inc_init`. -/
def shake128IncInit (ctx : IncCtx) : IncCtx := keccakIncInit ctx

/-- `shake128_inc_absorb`. -/
def shake128IncAbsorb (ctx : IncCtx) (input : List Byte) : IncCtx :=
  keccakIncAbsorb ctx shake128Rate input

/-- `shake128_inc_finalize`. -/
def shake128IncFinalize (t : Vector Byte 200) (ctx : IncCtx) : IncCtx :=
  keccakIncFinalize t ctx shake128Rate 0x1F

/-- `shake128_inc_squeeze`. -/
def shake128IncSqueeze (ctx : IncCtx) (outlen : Nat) : List Byte × IncCtx :=
  keccakIncSqueeze ctx shake128Rate outlen

/-- `shake256_inc_init`. -/
def shake256IncInit (ctx : IncCtx) : IncCtx := keccakIncInit ctx

/-- `shake256_inc_absorb`. -/
def shake256IncAbsorb (ctx : IncCtx) (input : List Byte) : IncCtx :=
  keccakIncAbsorb ctx shake256Rate input

/-- `shake256_inc_finalize`. -/
def shake256IncFinalize (t : Vector Byte 200) (ctx : IncCtx) : IncCtx :=
  keccakIncFinalize t ctx shake256Rate 0x1F

/-- `shake256_inc_squeeze`. -/
def shake256IncSqueeze (ctx : IncCtx) (outlen : Nat) : List Byte × IncCtx :=
  keccakIncSqueeze ctx shake256Rate outlen

/-! ## Absorbing -/

/-- The absorbed blocks of a message, without the incomplete block at its end. -/
def absorbedBlocks (r : Nat) (s : State) (m : List Byte) : State :=
  Sponge.absorb keccakF1600StatePermute injectBytes s (Sponge.blocks r (m.length / r) m)

/-- The bytes of a message behind its complete blocks. -/
def leftover (r : Nat) (m : List Byte) : List Byte := m.drop (r * (m.length / r))

theorem length_leftover (r : Nat) (m : List Byte) : (leftover r m).length = m.length % r := by
  rw [leftover, List.length_drop, ← Nat.mod_eq_sub]

/-- A context that has absorbed the bytes `m`. -/
structure Absorbing (r : Rate) (m : List Byte) (s : IncCtx) : Prop where
  state : s.state = injectBytes (absorbedBlocks r.bytes zeroState m) (leftover r.bytes m)
  count : s.count = m.length % r.bytes

theorem injectBytes_nil (s : State) : injectBytes s [] = s := by
  apply State.ext_bytes
  intro j hj
  rw [stateByte_injectBytes s [] hj]
  exact BitVec.xor_zero

/-- XORing bytes behind those of a block appends them to the block. -/
theorem xorBytes_injectBytes (s : State) (a d : List Byte) {n : Nat} (hn : n ≤ d.length)
    (h : a.length + n ≤ 200) :
    keccakF1600StateXORBytes (injectBytes s a) d a.length n = injectBytes s (a ++ d.take n) := by
  apply State.ext_bytes
  intro j hj
  rw [stateByte_xorBytes _ _ h, stateByte_injectBytes _ _ hj, stateByte_injectBytes _ _ hj]
  by_cases hja : j < a.length
  · rw [if_neg (by omega), List.getD_append _ _ _ _ hja]
  · rw [List.getD_eq_default a _ (by omega), List.getD_append_right _ _ _ _ (by omega)]
    by_cases hjn : j < a.length + n
    · have htake : (d.take n).getD (j - a.length) 0 = d.getD (j - a.length) 0 := by
        rw [List.getD_eq_getElem?_getD, List.getElem?_take_of_lt (by omega),
          ← List.getD_eq_getElem?_getD]
      rw [if_pos ⟨by omega, hjn⟩, htake]
      exact congrArg (· ^^^ _) BitVec.xor_zero
    · rw [if_neg fun h => hjn h.2,
        List.getD_eq_default (d.take n) _ (by rw [List.length_take]; omega)]

theorem absorbing_init (r : Rate) (ctx : IncCtx) : Absorbing r [] (keccakIncInit ctx) := by
  have hzero : (keccakIncInit ctx).state = zeroState := foldl_clear ctx.state
  refine ⟨?_, (Nat.zero_mod _).symm⟩
  rw [hzero, absorbedBlocks, leftover, List.length_nil, Nat.zero_div, List.drop_nil,
    injectBytes_nil, Sponge.blocks, Sponge.absorb_nil]

/-- Bytes that do not complete a block. -/
theorem Absorbing.extend {r : Rate} {m : List Byte} {s : IncCtx} (h : Absorbing r m s)
    {x : List Byte} (hlt : x.length + s.count < r.bytes) :
    Absorbing r (m ++ x)
      ⟨keccakF1600StateXORBytes s.state x s.count x.length, s.count + x.length⟩ := by
  have hr := r.le
  have hdm := Nat.div_add_mod m.length r.bytes
  have hcount := h.count
  have hdiv : (m ++ x).length / r.bytes = m.length / r.bytes := by
    rw [List.length_append]
    exact Nat.div_eq_of_lt_le (by rw [Nat.mul_comm]; omega)
      (by rw [Nat.add_mul, Nat.mul_comm]; omega)
  have hle : r.bytes * (m.length / r.bytes) ≤ m.length := Nat.mul_div_le _ _
  refine ⟨?_, ?_⟩
  · have hlen : (leftover r.bytes m).length = s.count := by rw [length_leftover, hcount]
    have hx := xorBytes_injectBytes (absorbedBlocks r.bytes zeroState m) (leftover r.bytes m) x
      (Nat.le_refl _) (by omega)
    rw [hlen, List.take_length] at hx
    rw [h.state, hx, absorbedBlocks, absorbedBlocks, leftover, leftover, hdiv,
      Sponge.blocks_append hle, List.drop_append_of_le_length hle]
  · have hmod := Nat.mod_eq_sub (m ++ x).length r.bytes
    rw [hdiv, List.length_append] at hmod
    rw [List.length_append, hmod]
    simp only [hcount]
    omega

/-- Bytes that complete a block: it is absorbed. -/
theorem Absorbing.complete {r : Rate} {m : List Byte} {s : IncCtx} (h : Absorbing r m s)
    {x : List Byte} (hle : r.bytes ≤ x.length + s.count) :
    Absorbing r (m ++ x.take (r.bytes - s.count))
      ⟨keccakF1600StatePermute
        (keccakF1600StateXORBytes s.state x s.count (r.bytes - s.count)), 0⟩ := by
  have hr := r.le
  have hdm := Nat.div_add_mod m.length r.bytes
  have hmod := Nat.mod_lt m.length r.pos
  have hcount := h.count
  have hlen : (leftover r.bytes m).length = s.count := by rw [length_leftover, hcount]
  have hxlen : (x.take (r.bytes - s.count)).length = r.bytes - s.count := by
    rw [List.length_take]
    omega
  have htotal : (m ++ x.take (r.bytes - s.count)).length =
      r.bytes * (m.length / r.bytes + 1) := by
    rw [List.length_append, hxlen, Nat.mul_succ]
    omega
  have hfull : r.bytes * (m.length / r.bytes) ≤ m.length := Nat.mul_div_le _ _
  have hx := xorBytes_injectBytes (absorbedBlocks r.bytes zeroState m) (leftover r.bytes m) x
    (n := r.bytes - s.count) (by omega) (by omega)
  rw [hlen, ← h.state] at hx
  have hblock : (leftover r.bytes m ++ x.take (r.bytes - s.count)).take r.bytes =
      leftover r.bytes m ++ x.take (r.bytes - s.count) :=
    List.take_of_length_le (by rw [List.length_append, hlen, hxlen]; omega)
  have hdiv : (m ++ x.take (r.bytes - s.count)).length / r.bytes = m.length / r.bytes + 1 := by
    rw [htotal, Nat.mul_div_cancel_left _ r.pos]
  have hrest : leftover r.bytes (m ++ x.take (r.bytes - s.count)) = [] := by
    rw [leftover, hdiv, ← htotal, List.drop_length]
  refine ⟨?_, by rw [htotal, Nat.mul_mod_right]⟩
  rw [hrest, injectBytes_nil, absorbedBlocks, hdiv, Sponge.blocks_succ, Sponge.blocks_append hfull,
    Sponge.absorb_concat, List.drop_append_of_le_length hfull, ← leftover, hblock]
  exact congrArg keccakF1600StatePermute hx

/-- **A call of `keccak_inc_absorb`** appends its bytes to the bytes absorbed so far. -/
theorem Absorbing.absorb {r : Rate} {m : List Byte} {s : IncCtx} (h : Absorbing r m s)
    (x : List Byte) : Absorbing r (m ++ x) (keccakIncAbsorb s r x) := by
  revert m
  induction s, x using keccakIncAbsorb.induct r with
  | case1 s x hle _ _ =>
    rename_i ih
    intro m h
    have hrec := ih (h.complete hle)
    rw [List.append_assoc, List.take_append_drop] at hrec
    rw [keccakIncAbsorb, dif_pos hle]
    exact hrec
  | case2 s x hlt =>
    intro m h
    rw [keccakIncAbsorb, dif_neg hlt]
    exact h.extend (Nat.not_le.1 hlt)

/-! ## Padding -/

/-- `keccak_absorb` absorbs the complete blocks and injects the padded rest. -/
theorem keccakAbsorb_eq (s : State) (r : Rate) (m : List Byte) (p : Byte) :
    keccakAbsorb s r m p =
      injectBytes (absorbedBlocks r.bytes s m) (Sponge.pad r.bytes p (leftover r.bytes m)) := by
  induction s, m using keccakAbsorb.induct r with
  | case1 s m h _ _ ih =>
    have hdiv : m.length / r.bytes = (m.drop r.bytes).length / r.bytes + 1 := by
      rw [List.length_drop, Nat.div_eq_sub_div r.pos h]
    have hblocks : absorbedBlocks r.bytes s m =
        absorbedBlocks r.bytes (keccakF1600StatePermute (keccakF1600StateXORBytes s m 0 r.bytes))
          (m.drop r.bytes) := by
      rw [absorbedBlocks, hdiv, Sponge.blocks, Sponge.absorb_cons,
        ← xorBytes_eq_injectBytes s m r.le, absorbedBlocks]
    have hrest : leftover r.bytes m = leftover r.bytes (m.drop r.bytes) := by
      rw [leftover, leftover, hdiv, List.drop_drop, Nat.mul_succ, Nat.add_comm]
    rw [keccakAbsorb, dif_pos h, hblocks, hrest]
    exact ih
  | case2 s m h =>
    have hlt : m.length < r.bytes := Nat.not_le.1 h
    have hpad : (Sponge.pad r.bytes p m).take r.bytes = Sponge.pad r.bytes p m := by
      refine List.take_of_length_le ?_
      rw [← lastBlock_eq_pad r p hlt, length_lastBlock r p hlt]
    rw [keccakAbsorb, dif_neg h, lastBlock_eq_pad r p hlt, xorBytes_eq_injectBytes _ _ r.le, hpad,
      absorbedBlocks, leftover, Nat.div_eq_of_lt hlt, Sponge.blocks, Sponge.absorb_nil,
      Nat.mul_zero, List.drop_zero]

/-- Setting the final bit of the last byte below the rate. -/
theorem getD_setFinalBit (t : Vector Byte 200) (r : Rate) {j : Nat} (hj : j < r.bytes) :
    (t.setIfInBounds (r.bytes - 1) (t.getD (r.bytes - 1) 0 ||| 128)).getD j 0 =
      t.getD j 0 ||| if j = r.bytes - 1 then 0x80 else 0 := by
  have hr := r.le
  rw [getD_setIfInBounds]
  by_cases hlast : j = r.bytes - 1
  · rw [if_pos ⟨hlast.symm, by omega⟩, if_pos hlast, ← hlast]
  · rw [if_neg fun h => hlast h.1.symm, if_neg hlast]
    exact BitVec.or_zero.symm

/-- The bytes below the rate of the array that `keccak_inc_finalize` XORs into the state. -/
theorem getD_finalScratch (t : Vector Byte 200) (r : Rate) (n : Nat) (p : Byte) {j : Nat}
    (hj : j < r.bytes) :
    (finalScratch t r n p).getD j 0 =
      (if j = n then p else 0) ||| if j = r.bytes - 1 then 0x80 else 0 := by
  have hr := r.le
  rw [finalScratch, getD_setFinalBit _ r hj, getD_setIfInBounds, getD_fill]
  by_cases hjn : n = j
  · rw [if_pos ⟨hjn, by omega⟩, if_pos hjn.symm]
  · rw [if_neg fun h => hjn h.1, if_pos ⟨hj, by omega⟩,
      if_neg (show ¬j = n from fun h => hjn h.symm)]

/-- A block of a message that ends in it, with the suffix and the final bit XORed in. -/
theorem getD_pad_xor {r : Nat} (p : Byte) {a : List Byte} (h : a.length < r) {j : Nat}
    (hj : j < r) :
    (Sponge.pad r p a).getD j 0 =
      a.getD j 0 ^^^ ((if j = a.length then p else 0) ||| if j = r - 1 then 0x80 else 0) := by
  rw [Sponge.getD_pad p h hj]
  by_cases hja : j < a.length
  · rw [if_pos hja, if_neg (show ¬j = a.length by omega), if_neg (show ¬j = r - 1 by omega)]
    exact BitVec.or_zero.trans BitVec.xor_zero.symm
  · rw [if_neg hja, List.getD_eq_default _ _ (by omega)]
    exact BitVec.zero_xor.symm

/-- **`keccak_inc_finalize` pads as `keccak_absorb` does**, whatever its local array held. -/
theorem Absorbing.finalize {r : Rate} {m : List Byte} {s : IncCtx} (h : Absorbing r m s)
    (t : Vector Byte 200) (p : Byte) :
    (keccakIncFinalize t s r p).state = keccakAbsorb zeroState r m p := by
  have hcount : s.count < r.bytes := by rw [h.count]; exact Nat.mod_lt _ r.pos
  have hlen : (leftover r.bytes m).length = s.count := by rw [length_leftover, h.count]
  have hr := r.le
  rw [keccakAbsorb_eq, keccakIncFinalize]
  apply State.ext_bytes
  intro j hj
  rw [stateByte_xorBytes _ _ (by omega), h.state, stateByte_injectBytes _ _ hj,
    stateByte_injectBytes _ _ hj]
  by_cases hjr : j < r.bytes
  · have hscratch : (finalScratch t r s.count p).toList.getD j 0 =
        (finalScratch t r s.count p).getD j 0 := by
      rw [getD_of_lt _ _ (by omega)]
      simp [List.getD_eq_getElem?_getD, hj]
    rw [if_pos (by omega), Nat.sub_zero, hscratch, getD_finalScratch t r _ p hjr,
      getD_pad_xor p (by omega) hjr, hlen, BitVec.xor_assoc]
  · rw [if_neg (by omega), List.getD_eq_default _ _ (by omega), List.getD_eq_default _ _ ?_]
    rw [Sponge.length_pad r.pos, Sponge.padBlocks, Nat.div_eq_of_lt (by omega)]
    omega

/-! ## Squeezing -/

/-- Byte `i` of the output of a state that has absorbed its message, with the permutation before the
first output block still to be done. -/
def streamByte (r : Rate) (s : State) (i : Nat) : Byte :=
  Sponge.stream keccakF1600StatePermute stateByte r.bytes (keccakF1600StatePermute s) i

/-- The output bytes `n, ..., n + len - 1`. -/
def streamBytes (r : Rate) (s : State) (n len : Nat) : List Byte :=
  (List.range len).map fun i => streamByte r s (n + i)

theorem streamBytes_append (r : Rate) (s : State) (n a b : Nat) :
    streamBytes r s n a ++ streamBytes r s (n + a) b = streamBytes r s n (a + b) := by
  rw [streamBytes, streamBytes, streamBytes, List.range_add, List.map_append, List.map_map]
  simp only [Function.comp_def, Nat.add_assoc]

/-- The bytes of block `k` of the output. -/
theorem stateByte_iterate (r : Rate) (s : State) (k : Nat) {i : Nat} (hi : i < r.bytes) :
    stateByte (keccakF1600StatePermute^[k + 1] s) i = streamByte r s (k * r.bytes + i) := by
  rw [streamByte, Sponge.stream_add_mul _ _ r.pos, Sponge.stream_of_lt _ _ _ hi,
    Function.iterate_succ_apply]

/-- A context from which `n` output bytes have been taken. -/
structure Squeezing (r : Rate) (s0 : State) (n : Nat) (s : IncCtx) : Prop where
  lt : s.count < r.bytes
  block : ∃ k, s.state = keccakF1600StatePermute^[k] s0 ∧ n + s.count = k * r.bytes

theorem squeezing_zero (r : Rate) (s : State) : Squeezing r s 0 ⟨s, 0⟩ :=
  ⟨r.pos, 0, rfl, (Nat.zero_mul _).symm⟩

/-- An iteration of the loop. -/
theorem squeezeLoop_of_pos (s : IncCtx) (r : Rate) {outlen len : Nat} (h : 0 < outlen)
    (hlen : len = min outlen r.bytes) :
    keccakIncSqueezeLoop s r outlen =
      (keccakF1600StateExtractBytes (keccakF1600StatePermute s.state) 0 len ++
          (keccakIncSqueezeLoop ⟨keccakF1600StatePermute s.state, r.bytes - len⟩ r
            (outlen - len)).1,
        (keccakIncSqueezeLoop ⟨keccakF1600StatePermute s.state, r.bytes - len⟩ r
          (outlen - len)).2) := by
  have hif : (if outlen < r.bytes then outlen else r.bytes) = len := by
    split <;> omega
  rw [keccakIncSqueezeLoop, dif_pos h]
  simp only [hif]

/-- The loop starts with no byte left over, or has nothing to do. -/
theorem Squeezing.loop {r : Rate} {s0 : State} {n : Nat} {s : IncCtx} (h : Squeezing r s0 n s)
    {outlen : Nat} (h0 : 0 < outlen → s.count = 0) :
    (keccakIncSqueezeLoop s r outlen).1 = streamBytes r s0 n outlen ∧
      Squeezing r s0 (n + outlen) (keccakIncSqueezeLoop s r outlen).2 := by
  induction outlen using Nat.strong_induction_on generalizing s n with
  | _ outlen ih =>
    by_cases hpos : 0 < outlen
    · obtain ⟨k, hs, hn⟩ := h.block
      rw [h0 hpos, Nat.add_zero] at hn
      obtain ⟨len, hlen⟩ : ∃ len, len = min outlen r.bytes := ⟨_, rfl⟩
      have hr := r.pos
      have hstate : keccakF1600StatePermute s.state = keccakF1600StatePermute^[k + 1] s0 := by
        rw [hs, Function.iterate_succ_apply']
      have hnext : Squeezing r s0 (n + len) ⟨keccakF1600StatePermute s.state, r.bytes - len⟩ := by
        refine ⟨by simp only; omega, k + 1, hstate, ?_⟩
        rw [Nat.succ_mul]
        simp only
        omega
      obtain ⟨hbytes, hrest⟩ := ih (outlen - len) (by omega) hnext (by simp only; omega)
      have hfirst : keccakF1600StateExtractBytes (keccakF1600StatePermute s.state) 0 len =
          streamBytes r s0 n len := by
        rw [extractBytes_eq, streamBytes, hstate, hn]
        refine List.map_congr_left fun i hi => ?_
        rw [Nat.zero_add]
        exact stateByte_iterate r s0 k (by have := List.mem_range.1 hi; omega)
      have htotal : len + (outlen - len) = outlen := by omega
      rw [squeezeLoop_of_pos s r hpos hlen]
      refine ⟨?_, ?_⟩
      · rw [hbytes, hfirst, streamBytes_append, htotal]
      · rwa [Nat.add_assoc, htotal] at hrest
    · obtain rfl : outlen = 0 := by omega
      rw [keccakIncSqueezeLoop, dif_neg hpos]
      exact ⟨rfl, h⟩

/-- The bytes left over from the last block. -/
theorem Squeezing.leftover {r : Rate} {s0 : State} {n : Nat} {s : IncCtx} (h : Squeezing r s0 n s)
    {len : Nat} (hlen : len ≤ s.count) :
    keccakF1600StateExtractBytes s.state (r.bytes - s.count) len = streamBytes r s0 n len ∧
      Squeezing r s0 (n + len) ⟨s.state, s.count - len⟩ := by
  have hlt := h.lt
  obtain ⟨k, hs, hn⟩ := h.block
  refine ⟨?_, ?_, k, hs, by simp only; omega⟩
  · rw [extractBytes_eq, streamBytes]
    refine List.map_congr_left fun i hi => ?_
    have hi' := List.mem_range.1 hi
    -- a block with bytes left over has been permuted
    obtain ⟨k, rfl⟩ : ∃ k', k = k' + 1 := by
      refine Nat.exists_eq_succ_of_ne_zero ?_
      rintro rfl
      omega
    rw [hs, stateByte_iterate r s0 k (by omega)]
    rw [Nat.succ_mul] at hn
    congr 1
    omega
  · simp only
    omega

/-- **A call of `keccak_inc_squeeze`** returns the next output bytes. -/
theorem Squeezing.squeeze {r : Rate} {s0 : State} {n : Nat} {s : IncCtx} (h : Squeezing r s0 n s)
    (outlen : Nat) :
    (keccakIncSqueeze s r outlen).1 = streamBytes r s0 n outlen ∧
      Squeezing r s0 (n + outlen) (keccakIncSqueeze s r outlen).2 := by
  have hlen : (if outlen < s.count then outlen else s.count) = min outlen s.count := by
    split <;> omega
  obtain ⟨hfirst, hleft⟩ := h.leftover (Nat.min_le_right outlen s.count)
  have hrem : 0 < outlen - min outlen s.count → s.count - min outlen s.count = 0 := by omega
  obtain ⟨hrest, hend⟩ := hleft.loop hrem
  have htotal : min outlen s.count + (outlen - min outlen s.count) = outlen := by omega
  simp only [keccakIncSqueeze, hlen]
  refine ⟨?_, ?_⟩
  · rw [hfirst, hrest, streamBytes_append, htotal]
  · rwa [Nat.add_assoc, htotal] at hend

/-- The output requests of a list, one after the other. -/
def squeezeRequests (squeeze : IncCtx → Nat → List Byte × IncCtx) :
    IncCtx → List Nat → List (List Byte)
  | _, [] => []
  | ctx, n :: ns => (squeeze ctx n).1 :: squeezeRequests squeeze (squeeze ctx n).2 ns

theorem Squeezing.requests {r : Rate} {s0 : State} {n : Nat} {s : IncCtx}
    (h : Squeezing r s0 n s) (ns : List Nat) :
    (squeezeRequests (fun ctx n => keccakIncSqueeze ctx r n) s ns).flatten =
      streamBytes r s0 n ns.sum := by
  induction ns generalizing n s with
  | nil => rfl
  | cons k ns ih =>
    obtain ⟨hbytes, hnext⟩ := h.squeeze k
    rw [squeezeRequests, List.flatten_cons, hbytes, ih hnext, streamBytes_append, List.sum_cons]

/-! ## The one-shot functions -/

/-- The output of a one-shot function is the beginning of the output stream. -/
theorem shakeOneShot_eq_streamBytes (r : Rate) (outlen : Nat) (m : List Byte) :
    shakeOneShot r outlen m = streamBytes r (keccakAbsorb zeroState r m 0x1F) 0 outlen := by
  rw [shakeOneShot_eq, spongeHash_eq_stream r.pos, absorbed, ← permute_keccakAbsorb, streamBytes]
  simp only [Nat.zero_add]
  rfl

/-- A message in chunks: `init`, `absorb` for each chunk, and what the context then holds. -/
theorem absorbing_chunks (r : Rate) (ctx : IncCtx) (chunks : List (List Byte)) :
    Absorbing r chunks.flatten
      (chunks.foldl (fun ctx m => keccakIncAbsorb ctx r m) (keccakIncInit ctx)) := by
  have hrun : ∀ (m : List Byte) (s : IncCtx), Absorbing r m s →
      Absorbing r (m ++ chunks.flatten)
        (chunks.foldl (fun ctx m => keccakIncAbsorb ctx r m) s) := by
    induction chunks with
    | nil =>
      intro m s h
      rwa [List.flatten_nil, List.append_nil]
    | cons c chunks ih =>
      intro m s h
      rw [List.flatten_cons, ← List.append_assoc]
      exact ih _ _ (h.absorb c)
  exact hrun [] _ (absorbing_init r ctx)

/-- The bytes that the incremental functions of rate `r` return for a message in chunks and a list
of output requests. -/
theorem incremental_eq_shakeOneShot (r : Rate) (ctx : IncCtx) (t : Vector Byte 200)
    (chunks : List (List Byte)) (ns : List Nat) :
    (squeezeRequests (fun ctx n => keccakIncSqueeze ctx r n)
      (keccakIncFinalize t (chunks.foldl (fun ctx m => keccakIncAbsorb ctx r m)
        (keccakIncInit ctx)) r 0x1F) ns).flatten =
      shakeOneShot r ns.sum chunks.flatten := by
  have hstate := (absorbing_chunks r ctx chunks).finalize t 0x1F
  rw [shakeOneShot_eq_streamBytes, ← hstate]
  exact (squeezing_zero r _).requests ns

/-- What the SHAKE128 functions return for a message in chunks and a list of output requests, from
any contents of the context and of the local array. -/
def shake128Incremental (ctx : IncCtx) (t : Vector Byte 200) (chunks : List (List Byte))
    (ns : List Nat) : List (List Byte) :=
  squeezeRequests shake128IncSqueeze
    (shake128IncFinalize t (chunks.foldl shake128IncAbsorb (shake128IncInit ctx))) ns

/-- The same for SHAKE256. -/
def shake256Incremental (ctx : IncCtx) (t : Vector Byte 200) (chunks : List (List Byte))
    (ns : List Nat) : List (List Byte) :=
  squeezeRequests shake256IncSqueeze
    (shake256IncFinalize t (chunks.foldl shake256IncAbsorb (shake256IncInit ctx))) ns

/-- **Incremental SHAKE does not depend on the chunks.** Any message in any chunks and any output
requests give, concatenated, the output of the one-shot function; and after every call of `absorb`
the 26th word is the number of absorbed bytes modulo the rate. -/
theorem incremental_eq_oneShot (ctx : IncCtx) (t : Vector Byte 200) (chunks : List (List Byte))
    (ns : List Nat) :
    (shake128Incremental ctx t chunks ns).flatten = shake128 ns.sum chunks.flatten ∧
      (shake256Incremental ctx t chunks ns).flatten = shake256 ns.sum chunks.flatten ∧
      ∀ k, (((chunks.take k).foldl shake128IncAbsorb (shake128IncInit ctx)).count < 168 ∧
          ((chunks.take k).foldl shake128IncAbsorb (shake128IncInit ctx)).count =
            (chunks.take k).flatten.length % 168) ∧
        ((chunks.take k).foldl shake256IncAbsorb (shake256IncInit ctx)).count < 136 ∧
          ((chunks.take k).foldl shake256IncAbsorb (shake256IncInit ctx)).count =
            (chunks.take k).flatten.length % 136 := by
  refine ⟨incremental_eq_shakeOneShot shake128Rate ctx t chunks ns,
    incremental_eq_shakeOneShot shake256Rate ctx t chunks ns, fun k => ⟨?_, ?_⟩⟩
  · have hcount := (absorbing_chunks shake128Rate ctx (chunks.take k)).count
    exact ⟨hcount ▸ Nat.mod_lt _ shake128Rate.pos, hcount⟩
  · have hcount := (absorbing_chunks shake256Rate ctx (chunks.take k)).count
    exact ⟨hcount ▸ Nat.mod_lt _ shake256Rate.pos, hcount⟩

end ShakeAccel
