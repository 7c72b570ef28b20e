import Mathlib.Algebra.BigOperators.Group.List.Basic
import Mathlib.Algebra.GroupWithZero.Nat
import ShakeAccel.Lib.Encode
import ShakeAccel.Soft.OneShot

/-!
# The simple cSHAKE functions (`fips202.c`)

`cShake` is the customisable sponge: the encoded function name and customisation string fill a block
of their own before the message. The code writes the first eight bytes of that block by hand (the
others are zero), permutes, and lets `keccak_absorb` continue from there.
-/

namespace ShakeAccel

open Encode

/-- The array `sep` of the cSHAKE functions, with the byte in which they differ. -/
def sepBytes (sep1 : Byte) (cstm : BitVec 16) : List Byte :=
  [0x01, sep1, 0x01, 0x00, 0x01, 16, (cstm &&& 0xff).setWidth 8, (cstm >>> 8).setWidth 8]

/-- The body that `cshake128_simple_absorb` and `cshake256_simple_absorb` share, from what the
context holds. -/
def cshakeSimpleAbsorb (ctx : State) (r : Rate) (sep1 : Byte) (cstm : BitVec 16)
    (input : List Byte) : State :=
  let s := (List.range 25).foldl (fun s i => s.setIfInBounds i 0) ctx
  let s := keccakF1600StateXORBytes s (sepBytes sep1 cstm) 0 8
  let s := keccakF1600StatePermute s
  keccakAbsorb s r input 0x04

/-- The body that `cshake128_simple` and `cshake256_simple` share behind `absorb`: whole blocks
straight to the output, then the rest from one more block in the buffer `t`. -/
def cshakeSimpleOutput (s : State) (r : Rate) (outlen : Nat) : List Byte :=
  let out := keccakSqueezeblocks (outlen / r.bytes) s r
  if outlen % r.bytes ≠ 0 then
    let t := keccakSqueezeblocks 1 out.2 r
    out.1 ++ t.1.take (outlen % r.bytes)
  else out.1

/-- `cshake128_simple_absorb`. -/
def cshake128SimpleAbsorb (ctx : State) (cstm : BitVec 16) (input : List Byte) : State :=
  cshakeSimpleAbsorb ctx shake128Rate 0xa8 cstm input

/-- `cshake128_simple_squeezeblocks`. -/
def cshake128SimpleSqueezeblocks (nblocks : Nat) (ctx : State) : List Byte × State :=
  keccakSqueezeblocks nblocks ctx shake128Rate

/-- `cshake128_simple`; `ctx` is what its local context holds on entry. -/
def cshake128Simple (ctx : State) (outlen : Nat) (cstm : BitVec 16) (input : List Byte) :
    List Byte :=
  cshakeSimpleOutput (cshake128SimpleAbsorb ctx cstm input) shake128Rate outlen

/-- `cshake256_simple_absorb`. -/
def cshake256SimpleAbsorb (ctx : State) (cstm : BitVec 16) (input : List Byte) : State :=
  cshakeSimpleAbsorb ctx shake256Rate 0x88 cstm input

/-- `cshake256_simple_squeezeblocks`. -/
def cshake256SimpleSqueezeblocks (nblocks : Nat) (ctx : State) : List Byte × State :=
  keccakSqueezeblocks nblocks ctx shake256Rate

/-- `cshake256_simple`; `ctx` is what its local context holds on entry. -/
def cshake256Simple (ctx : State) (outlen : Nat) (cstm : BitVec 16) (input : List Byte) :
    List Byte :=
  cshakeSimpleOutput (cshake256SimpleAbsorb ctx cstm input) shake256Rate outlen

/-- Calls of a `squeezeblocks` function one after the other: the bytes they write, in order. -/
def squeezeblocksCalls (squeezeblocks : Nat → State → List Byte × State) :
    State → List Nat → List Byte
  | _, [] => []
  | s, n :: ns =>
    (squeezeblocks n s).1 ++ squeezeblocksCalls squeezeblocks (squeezeblocks n s).2 ns

/-! ## The customisable sponge -/

/-- cSHAKE with rate `r` bytes, function name `n` and customisation string `s`: the first `outlen`
bytes of the output for the message `x`. Without name and customisation it is SHAKE. -/
def cShake (r : Nat) (n s : List Byte) (outlen : Nat) (x : List Byte) : List Byte :=
  if n = [] ∧ s = [] then spongeHash r 0x1F outlen x
  else spongeHash r 0x04 outlen (bytepad (encodeString n ++ encodeString s) r ++ x)

/-- A shorter output is a prefix of a longer one. -/
theorem take_cShake {r : Nat} (hr : 0 < r) (n s : List Byte) {k l : Nat} (h : k ≤ l)
    (x : List Byte) : (cShake r n s l x).take k = cShake r n s k x := by
  unfold cShake
  split
  · exact take_spongeHash hr _ h x
  · exact take_spongeHash hr _ h _

/-- The customisation string of the simple functions: the two bytes of `cstm`, low byte first. -/
def cstmBytes (cstm : BitVec 16) : List Byte := [Bits.byteAt cstm 0, Bits.byteAt cstm 1]

/-- The block that the simple functions put before the message. -/
def cstmBlock (r : Nat) (cstm : BitVec 16) : List Byte :=
  bytepad (encodeString [] ++ encodeString (cstmBytes cstm)) r

theorem cShake_cstmBytes (r : Nat) (cstm : BitVec 16) (outlen : Nat) (x : List Byte) :
    cShake r [] (cstmBytes cstm) outlen x = spongeHash r 0x04 outlen (cstmBlock r cstm ++ x) :=
  if_neg fun h => List.cons_ne_nil _ _ h.2

/-- The eight bytes of the code are the encoded customisation behind the encoded rate. -/
theorem encode_cstm {r : Nat} (hr : r < 256) (cstm : BitVec 16) :
    leftEncode r ++ (encodeString [] ++ encodeString (cstmBytes cstm)) =
      sepBytes (BitVec.ofNat 8 r) cstm := by
  have hlow : (cstm &&& 0xff).setWidth 8 = Bits.byteAt cstm 0 := by
    rw [BitVec.setWidth_and, ← Bits.setWidth_ushiftRight, BitVec.ushiftRight_zero]
    exact BitVec.and_allOnes
  have hhigh : (cstm >>> 8).setWidth 8 = Bits.byteAt cstm 1 := Bits.setWidth_ushiftRight cstm 1
  rw [leftEncode_of_lt hr, encodeString, encodeString, List.length_nil, Nat.mul_zero,
    leftEncode_of_lt (by decide), show 8 * (cstmBytes cstm).length = 16 from rfl,
    leftEncode_of_lt (by decide), sepBytes, hlow, hhigh]
  rfl

/-- The block is these eight bytes and zeros. -/
theorem cstmBlock_eq {r : Nat} (h8 : 8 ≤ r) (hr : r < 256) (cstm : BitVec 16) :
    cstmBlock r cstm = sepBytes (BitVec.ofNat 8 r) cstm ++ List.replicate (r - 8) 0 := by
  have henc := encode_cstm hr cstm
  have hlen : (sepBytes (BitVec.ofNat 8 r) cstm).length = 8 := rfl
  rw [cstmBlock, bytepad_of_le (by rw [henc]; exact h8), henc, hlen]

theorem length_cstmBlock {r : Nat} (h8 : 8 ≤ r) (hr : r < 256) (cstm : BitVec 16) :
    (cstmBlock r cstm).length = r := by
  rw [cstmBlock, length_bytepad_of_le]
  rw [encode_cstm hr cstm]
  exact h8

/-- Zeros behind a block change nothing. -/
theorem injectBytes_append_zeros (s : State) (b : List Byte) (n : Nat) :
    injectBytes s (b ++ List.replicate n 0) = injectBytes s b := by
  apply State.ext_bytes
  intro j hj
  rw [stateByte_injectBytes _ _ hj, stateByte_injectBytes _ _ hj]
  by_cases hjb : j < b.length
  · rw [List.getD_append _ _ _ _ hjb]
  · rw [List.getD_append_right _ _ _ _ (by omega), List.getD_eq_default b _ (by omega),
      List.getD_eq_getElem?_getD, List.getElem?_getD_replicate_default_eq]

/-! ## The code -/

section
variable {r : Rate} {sep1 : Byte} {cstm : BitVec 16}

/-- The state before the message: the block of the customisation is absorbed. -/
theorem permute_xorBytes_sep (h8 : 8 ≤ r.bytes) (hsep : sep1 = BitVec.ofNat 8 r.bytes) :
    keccakF1600StatePermute (keccakF1600StateXORBytes zeroState (sepBytes sep1 cstm) 0 8) =
      keccakF1600StatePermute (injectBytes zeroState (cstmBlock r.bytes cstm)) := by
  have hr : r.bytes < 256 := Nat.lt_of_le_of_lt r.le (by decide)
  have htake : (sepBytes sep1 cstm).take 8 = sepBytes sep1 cstm := rfl
  rw [xorBytes_eq_injectBytes _ _ (by decide), htake, cstmBlock_eq h8 hr, injectBytes_append_zeros,
    hsep]

/-- **`absorb` of the simple functions.** Whatever the context held, it has absorbed the block of
the customisation and the message, up to the permutation after the last block. -/
theorem permute_cshakeSimpleAbsorb (h8 : 8 ≤ r.bytes) (hsep : sep1 = BitVec.ofNat 8 r.bytes)
    (ctx : State) (x : List Byte) :
    keccakF1600StatePermute (cshakeSimpleAbsorb ctx r sep1 cstm x) =
      absorbed r.bytes 0x04 (cstmBlock r.bytes cstm ++ x) := by
  have hr : r.bytes < 256 := Nat.lt_of_le_of_lt r.le (by decide)
  have hsplit := Sponge.blocks_pad_append r.pos 0x04 (length_cstmBlock h8 hr cstm) x
  rw [absorbed, hsplit, Sponge.absorb_cons, ← permute_xorBytes_sep h8 hsep,
    ← permute_keccakAbsorb, ← foldl_clear ctx]
  rfl

/-- The output path of the simple functions. -/
theorem cshakeSimpleOutput_eq (s : State) (outlen : Nat) :
    cshakeSimpleOutput s r outlen =
      (Sponge.squeeze keccakF1600StatePermute (extractBlock r.bytes) (outlen / r.bytes + 1)
        (keccakF1600StatePermute s)).flatten.take outlen := by
  rw [take_flatten_squeeze]
  rfl

/-- The simple functions are cSHAKE. -/
theorem cshakeSimpleOutput_eq_cShake (h8 : 8 ≤ r.bytes) (hsep : sep1 = BitVec.ofNat 8 r.bytes)
    (ctx : State) (outlen : Nat) (x : List Byte) :
    cshakeSimpleOutput (cshakeSimpleAbsorb ctx r sep1 cstm x) r outlen =
      cShake r.bytes [] (cstmBytes cstm) outlen x := by
  rw [cshakeSimpleOutput_eq, permute_cshakeSimpleAbsorb h8 hsep, cShake_cstmBytes, spongeHash]

/-- Calls of `squeezeblocks` write what one call for all their blocks writes. -/
theorem squeezeblocksCalls_eq (s : State) (ns : List Nat) :
    squeezeblocksCalls (fun n s => keccakSqueezeblocks n s r) s ns =
      (keccakSqueezeblocks ns.sum s r).1 := by
  induction ns generalizing s with
  | nil => rfl
  | cons n ns ih => rw [squeezeblocksCalls, ih, List.sum_cons, keccakSqueezeblocks_add]

/-- Whole blocks are the output at a length that is a multiple of the rate. -/
theorem keccakSqueezeblocks_eq_output (n : Nat) (s : State) :
    (keccakSqueezeblocks n s r).1 = cshakeSimpleOutput s r (n * r.bytes) := by
  rw [cshakeSimpleOutput, Nat.mul_div_cancel n r.pos, Nat.mul_mod_left]
  rfl

end

/-- **The simple functions implement cSHAKE** with an empty function name and the two bytes of
`cstm` for customisation, at every message and output length; and `absorb` followed by any calls of
`squeezeblocks` writes the blocks of the same output, whatever the context held. Shorter outputs
are prefixes of longer ones. -/
theorem cshake_simple_eq_cShake (cstm : BitVec 16) (x : List Byte) (ctx : State) :
    (∀ outlen,
      cshake128Simple ctx outlen cstm x = cShake 168 [] (cstmBytes cstm) outlen x ∧
        cshake256Simple ctx outlen cstm x = cShake 136 [] (cstmBytes cstm) outlen x) ∧
    (∀ ns : List Nat,
      squeezeblocksCalls cshake128SimpleSqueezeblocks (cshake128SimpleAbsorb ctx cstm x) ns =
          cShake 168 [] (cstmBytes cstm) (ns.sum * 168) x ∧
        squeezeblocksCalls cshake256SimpleSqueezeblocks (cshake256SimpleAbsorb ctx cstm x) ns =
          cShake 136 [] (cstmBytes cstm) (ns.sum * 136) x) ∧
    ∀ k n, k ≤ n →
      (cShake 168 [] (cstmBytes cstm) n x).take k = cShake 168 [] (cstmBytes cstm) k x ∧
        (cShake 136 [] (cstmBytes cstm) n x).take k = cShake 136 [] (cstmBytes cstm) k x := by
  have h128 : ∀ outlen,
      cshake128Simple ctx outlen cstm x = cShake 168 [] (cstmBytes cstm) outlen x :=
    fun outlen => cshakeSimpleOutput_eq_cShake (r := shake128Rate) (by decide) rfl ctx outlen x
  have h256 : ∀ outlen,
      cshake256Simple ctx outlen cstm x = cShake 136 [] (cstmBytes cstm) outlen x :=
    fun outlen => cshakeSimpleOutput_eq_cShake (r := shake256Rate) (by decide) rfl ctx outlen x
  refine ⟨fun outlen => ⟨h128 outlen, h256 outlen⟩, fun ns => ⟨?_, ?_⟩, fun k n hkn => ⟨?_, ?_⟩⟩
  · exact (squeezeblocksCalls_eq _ ns).trans
      ((keccakSqueezeblocks_eq_output _ _).trans (h128 (ns.sum * 168)))
  · exact (squeezeblocksCalls_eq _ ns).trans
      ((keccakSqueezeblocks_eq_output _ _).trans (h256 (ns.sum * 136)))
  · exact take_cShake (by decide) _ _ hkn x
  · exact take_cShake (by decide) _ _ hkn x

/-- One block and a byte of output, and the first byte of the same for the other rate. -/
theorem cshake_simple_eq_cShake_blocks :
    cshake128Simple zeroState 169 0x0102 [1, 2, 3] =
        cShake 168 [] [0x02, 0x01] 169 [1, 2, 3] ∧
      (cShake 136 [] [0x02, 0x01] 137 [1, 2, 3]).take 1 = cShake 136 [] [0x02, 0x01] 1 [1, 2, 3] :=
  ⟨((cshake_simple_eq_cShake 0x0102 [1, 2, 3] zeroState).1 169).1,
    ((cshake_simple_eq_cShake 0x0102 [1, 2, 3] zeroState).2.2 1 137 (by decide)).2⟩

end ShakeAccel
