import Mathlib.Data.List.GetD
import ShakeAccel.Soft.Bytes

/-!
# The one-shot hash functions are sponges

`spongeHash` is the sponge over `KeccakF1600_StatePermute` with bytes for blocks: pad, absorb block
by block, squeeze. The code splits the work differently: `keccak_absorb` leaves the permutation
after the last block to `keccak_squeezeblocks`, and the output has a path of its own for whole
blocks.
-/

namespace ShakeAccel

open Vec

/-- The word that the bytes from `8*k` on form, little-endian; missing bytes are 0. -/
def leWord (b : List Byte) (k : Nat) : Lane :=
  Bits.ofBits 64 fun i => (b.getD (8 * k + i / 8) 0).getLsbD (i % 8)

/-- XORs a block of bytes into the state. -/
def injectBytes (s : State) (b : List Byte) : State := .ofFn fun k => s.get k ^^^ leWord b k

/-- The first `r` bytes of the state. -/
def extractBlock (r : Nat) (s : State) : List Byte := (List.range r).map (stateByte s)

/-- The state after absorbing the padded message, the permutation after the last block included. -/
def absorbed (r : Nat) (p : Byte) (m : List Byte) : State :=
  Sponge.absorb keccakF1600StatePermute injectBytes zeroState
    (Sponge.blocks r (Sponge.padBlocks r m) (Sponge.pad r p m))

/-- The sponge with rate `r` bytes and suffix byte `p`: the first `outlen` bytes of the output. -/
def spongeHash (r : Nat) (p : Byte) (outlen : Nat) (m : List Byte) : List Byte :=
  (Sponge.squeeze keccakF1600StatePermute (extractBlock r) (outlen / r + 1)
    (absorbed r p m)).flatten.take outlen

/-- The loop that sets the 25 words of a state to 0. -/
theorem foldl_clear (s : State) :
    (List.range 25).foldl (fun s i => s.setIfInBounds i 0) s = zeroState := by
  refine ext_getD (0 : Lane) fun k hk => ?_
  have hfill := getD_fill s 0 (0 : Lane) 25 k
  rw [if_pos ⟨hk, hk⟩] at hfill
  exact hfill.trans (getD_replicate 0 0 hk).symm

theorem byteAt_leWord (b : List Byte) (k : Nat) {j : Nat} (hj : j < 8) :
    Bits.byteAt (leWord b k) j = b.getD (8 * k + j) 0 := by
  apply BitVec.eq_of_getLsbD_eq
  intro i hi
  rw [Bits.getLsbD_byteAt, leWord, Bits.getLsbD_ofBits, decide_eq_true hi,
    decide_eq_true (show 8 * j + i < 64 by omega), Bool.true_and, Bool.true_and,
    show (8 * j + i) / 8 = j by omega, show (8 * j + i) % 8 = i by omega]

theorem stateByte_injectBytes (s : State) (b : List Byte) {j : Nat} (hj : j < 200) :
    stateByte (injectBytes s b) j = stateByte s j ^^^ b.getD j 0 := by
  have hk : j / 8 < 25 := by omega
  rw [stateByte, getD_of_lt _ _ hk, injectBytes, Vector.getElem_ofFn, Bits.byteAt_xor,
    byteAt_leWord _ _ (Nat.mod_lt j (by decide)), Nat.div_add_mod, stateByte, getD_of_lt _ _ hk]
  rfl

/-- XORing the first `r` bytes of a buffer at offset 0 injects them as a block. -/
theorem xorBytes_eq_injectBytes (s : State) (data : List Byte) {r : Nat} (hr : r ≤ 200) :
    keccakF1600StateXORBytes s data 0 r = injectBytes s (data.take r) := by
  apply State.ext_bytes
  intro j hj
  rw [stateByte_xorBytes s data (by omega), stateByte_injectBytes _ _ hj]
  by_cases hjr : j < r
  · rw [if_pos (by omega), Nat.sub_zero, List.getD_eq_getElem?_getD, List.getD_eq_getElem?_getD,
      List.getElem?_take_of_lt hjr]
  · rw [if_neg (by omega), List.getD_eq_default _ _ (by simp; omega)]
    exact BitVec.xor_zero.symm

/-- `keccak_absorb` absorbs the padded message; the permutation after the last block is still to
be done. -/
theorem permute_keccakAbsorb (s : State) (r : Rate) (m : List Byte) (p : Byte) :
    keccakF1600StatePermute (keccakAbsorb s r m p) =
      Sponge.absorb keccakF1600StatePermute injectBytes s
        (Sponge.blocks r.bytes (Sponge.padBlocks r.bytes m) (Sponge.pad r.bytes p m)) := by
  induction s, m using keccakAbsorb.induct r with
  | case1 s m h _ _ ih =>
    -- a whole block of the message
    rw [keccakAbsorb, dif_pos h, ih, Sponge.blocks_pad_of_le r.pos p h, Sponge.absorb_cons,
      ← xorBytes_eq_injectBytes s m r.le]
  | case2 s m h =>
    have hlt : m.length < r.bytes := Nat.not_le.1 h
    have hlen : (Sponge.pad r.bytes p m).length ≤ r.bytes := by
      rw [← lastBlock_eq_pad r p hlt, length_lastBlock r p hlt]
    rw [keccakAbsorb, dif_neg h, Sponge.blocks_pad_of_lt p hlt, Sponge.absorb_cons,
      Sponge.absorb_nil, lastBlock_eq_pad r p hlt, xorBytes_eq_injectBytes _ _ r.le,
      List.take_of_length_le hlen]

/-- Calls of `keccak_squeezeblocks` add up. -/
theorem keccakSqueezeblocks_add (m n : Nat) (s : State) (r : Rate) :
    keccakSqueezeblocks (m + n) s r =
      ((keccakSqueezeblocks m s r).1 ++
          (keccakSqueezeblocks n (keccakSqueezeblocks m s r).2 r).1,
        (keccakSqueezeblocks n (keccakSqueezeblocks m s r).2 r).2) := by
  induction m generalizing s with
  | zero => rw [Nat.zero_add, keccakSqueezeblocks, List.nil_append]
  | succ m ih => rw [Nat.succ_add, keccakSqueezeblocks, ih, keccakSqueezeblocks, List.append_assoc]

/-- `keccak_squeezeblocks` squeezes with a permutation before each block. -/
theorem keccakSqueezeblocks_eq (n : Nat) (s : State) (r : Rate) :
    (keccakSqueezeblocks n s r).1 =
        (Sponge.squeeze keccakF1600StatePermute (extractBlock r.bytes) n
          (keccakF1600StatePermute s)).flatten ∧
      (keccakSqueezeblocks n s r).2 = keccakF1600StatePermute^[n] s := by
  induction n generalizing s with
  | zero => exact ⟨rfl, rfl⟩
  | succ n ih =>
    obtain ⟨h1, h2⟩ := ih (keccakF1600StatePermute s)
    refine ⟨?_, ?_⟩
    · rw [keccakSqueezeblocks, Sponge.squeeze, List.flatten_cons, ← h1, extractBytes_eq]
      simp only [Nat.zero_add]
      rfl
    · rw [keccakSqueezeblocks, h2, Function.iterate_succ_apply]

theorem length_flatten_squeeze (r n : Nat) (s : State) :
    (Sponge.squeeze keccakF1600StatePermute (extractBlock r) n s).flatten.length = n * r := by
  induction n generalizing s with
  | zero => exact (Nat.zero_mul r).symm
  | succ n ih =>
    rw [Sponge.squeeze, List.flatten_cons, List.length_append, ih, extractBlock, List.length_map,
      List.length_range, Nat.succ_mul, Nat.add_comm]

/-- The output path of the extendable-output functions: whole blocks, then the rest from one more
block. -/
theorem take_flatten_squeeze (s : State) (r : Rate) (outlen : Nat) :
    (Sponge.squeeze keccakF1600StatePermute (extractBlock r.bytes) (outlen / r.bytes + 1)
        (keccakF1600StatePermute s)).flatten.take outlen =
      if outlen % r.bytes ≠ 0 then
        (keccakSqueezeblocks (outlen / r.bytes) s r).1 ++
          (keccakSqueezeblocks 1 (keccakSqueezeblocks (outlen / r.bytes) s r).2 r).1.take
            (outlen % r.bytes)
      else (keccakSqueezeblocks (outlen / r.bytes) s r).1 := by
  obtain ⟨h1, h2⟩ := keccakSqueezeblocks_eq (outlen / r.bytes) s r
  have hlen := length_flatten_squeeze r.bytes (outlen / r.bytes) (keccakF1600StatePermute s)
  have hwhole : outlen / r.bytes * r.bytes ≤ outlen := Nat.div_mul_le_self outlen r.bytes
  rw [Sponge.squeeze_add, List.flatten_append, List.take_append, hlen, ← Nat.mod_eq_sub_div_mul,
    List.take_of_length_le (by rw [hlen]; exact hwhole), h1, h2,
    (keccakSqueezeblocks_eq 1 _ r).1, ← Function.iterate_succ_apply' keccakF1600StatePermute,
    Function.iterate_succ_apply]
  split
  · rfl
  · next h => rw [not_not.1 h, List.take_zero, List.append_nil]

theorem shakeOneShot_eq (r : Rate) (outlen : Nat) (m : List Byte) :
    shakeOneShot r outlen m = spongeHash r.bytes 0x1F outlen m := by
  rw [spongeHash, absorbed, ← permute_keccakAbsorb, take_flatten_squeeze]
  simp only [shakeOneShot, ← Nat.mod_eq_sub_div_mul]

/-- The output is the beginning of the output stream of the absorbed message. -/
theorem spongeHash_eq_stream {r : Nat} (hr : 0 < r) (p : Byte) (outlen : Nat) (m : List Byte) :
    spongeHash r p outlen m = (List.range outlen).map
      (Sponge.stream keccakF1600StatePermute stateByte r (absorbed r p m)) := by
  have hle : outlen ≤ (outlen / r + 1) * r := by
    rw [Nat.succ_mul, Nat.mul_comm]
    have := Nat.div_add_mod outlen r
    have := Nat.mod_lt outlen hr
    omega
  have hflat := Sponge.flatten_squeeze keccakF1600StatePermute stateByte hr (outlen / r + 1)
    (absorbed r p m)
  rw [spongeHash, show extractBlock r = fun s => (List.range r).map (stateByte s) from rfl, hflat,
    ← List.map_take, List.take_range, Nat.min_eq_left hle]

/-- A shorter output is a prefix of a longer one. -/
theorem take_spongeHash {r : Nat} (hr : 0 < r) (p : Byte) {k n : Nat} (h : k ≤ n)
    (m : List Byte) : (spongeHash r p n m).take k = spongeHash r p k m := by
  rw [spongeHash_eq_stream hr, spongeHash_eq_stream hr, ← List.map_take, List.take_range,
    Nat.min_eq_left h]

/-- The output path of the SHA-3 functions: a prefix of one block. -/
theorem sha3OneShot_eq (r : Rate) {digestBytes : Nat} (h : digestBytes < r.bytes) (m : List Byte) :
    sha3OneShot zeroState r digestBytes m = spongeHash r.bytes 0x06 digestBytes m := by
  simp only [sha3OneShot, (keccakSqueezeblocks_eq 1 _ r).1, spongeHash, Nat.div_eq_of_lt h,
    permute_keccakAbsorb, absorbed]

/-- **The one-shot functions implement the sponge** at every message length and every output
length. -/
theorem oneShot_eq_spongeHash (outlen : Nat) (m : List Byte) :
    shake128 outlen m = spongeHash 168 0x1F outlen m ∧
      shake256 outlen m = spongeHash 136 0x1F outlen m ∧
      sha3256 m = spongeHash 136 0x06 32 m ∧
      sha3512 m = spongeHash 72 0x06 64 m :=
  ⟨shakeOneShot_eq shake128Rate outlen m, shakeOneShot_eq shake256Rate outlen m,
    sha3OneShot_eq sha3256Rate (by decide) m, sha3OneShot_eq sha3512Rate (by decide) m⟩

end ShakeAccel
