import ShakeAccel.Soft.Permute

/-!
# The software hash functions (`keccakf1600.c`, `fips202.c`)

The byte accesses to the state, the absorb and squeeze loops and the one-shot functions. Lengths
are natural numbers; a pointer to a buffer is the list of the bytes it points to, and a function
that fills a buffer returns the bytes it writes.
-/

namespace ShakeAccel

/-- `KeccakF1600_StateExtractBytes`: the bytes written to `data`. -/
def keccakF1600StateExtractBytes (state : State) (offset length : Nat) : List Byte :=
  (List.range length).map fun i =>
    (state.getD ((offset + i) >>> 3) 0 >>> (8 * ((offset + i) &&& 0x07))).setWidth 8

/-- `KeccakF1600_StateXORBytes`. -/
def keccakF1600StateXORBytes (state : State) (data : List Byte) (offset length : Nat) : State :=
  (List.range length).foldl (fun state i =>
    state.setIfInBounds ((offset + i) >>> 3)
      (state.getD ((offset + i) >>> 3) 0 ^^^
        ((data.getD i 0).setWidth 64 <<< (8 * ((offset + i) &&& 0x07))))) state

/-- A sponge rate in bytes: positive, and at most the 200 bytes of the state and of the scratch
buffer `t`. -/
structure Rate where
  bytes : Nat
  pos : 0 < bytes
  le : bytes ≤ 200

/-- `SHAKE128_RATE`. -/
def shake128Rate : Rate := ⟨168, by decide, by decide⟩

/-- `SHAKE256_RATE`. -/
def shake256Rate : Rate := ⟨136, by decide, by decide⟩

/-- `SHA3_256_RATE`. -/
def sha3256Rate : Rate := ⟨136, by decide, by decide⟩

/-- `SHA3_384_RATE`. -/
def sha3384Rate : Rate := ⟨104, by decide, by decide⟩

/-- `SHA3_512_RATE`. -/
def sha3512Rate : Rate := ⟨72, by decide, by decide⟩

/-- The scratch buffer `t` that `keccak_absorb` fills for the last block: `r` zero bytes, the rest
of the message, the domain-separation byte and the final bit. The bytes of `t` from `r` on are
never read. -/
def lastBlock (r : Rate) (m : List Byte) (p : Byte) : List Byte :=
  let t := List.replicate r.bytes (0 : Byte)
  let t := (List.range m.length).foldl (fun t i => t.set i (m.getD i 0)) t
  let t := t.set m.length p
  t.set (r.bytes - 1) (t.getD (r.bytes - 1) 0 ||| 128)

/-- `keccak_absorb`. -/
def keccakAbsorb (s : State) (r : Rate) (m : List Byte) (p : Byte) : State :=
  if _ : r.bytes ≤ m.length then
    let s := keccakF1600StateXORBytes s m 0 r.bytes
    let s := keccakF1600StatePermute s
    keccakAbsorb s r (m.drop r.bytes) p
  else keccakF1600StateXORBytes s (lastBlock r m p) 0 r.bytes
termination_by m.length
decreasing_by
  have := r.pos
  simp only [List.length_drop]
  omega

/-- `keccak_squeezeblocks`: the bytes written to `h`, and the state after. -/
def keccakSqueezeblocks : (nblocks : Nat) → State → Rate → List Byte × State
  | 0, s, _ => ([], s)
  | nblocks + 1, s, r =>
    let s := keccakF1600StatePermute s
    let h := keccakF1600StateExtractBytes s 0 r.bytes
    let rest := keccakSqueezeblocks nblocks s r
    (h ++ rest.1, rest.2)

/-- The state that the one-shot functions start from: every word set to 0. -/
def zeroState : State := .replicate 25 0

/-- The body that `shake128` and `shake256` share: `nblocks` full blocks straight to the output,
then the rest from one more block in the buffer `t`. -/
def shakeOneShot (r : Rate) (outlen : Nat) (input : List Byte) : List Byte :=
  let nblocks := outlen / r.bytes
  let s := keccakAbsorb zeroState r input 0x1F
  let out := keccakSqueezeblocks nblocks s r
  let outlen := outlen - nblocks * r.bytes
  if outlen ≠ 0 then
    let t := keccakSqueezeblocks 1 out.2 r
    out.1 ++ t.1.take outlen
  else out.1

/-- `shake128`. -/
def shake128 (outlen : Nat) (input : List Byte) : List Byte :=
  shakeOneShot shake128Rate outlen input

/-- `shake256`. -/
def shake256 (outlen : Nat) (input : List Byte) : List Byte :=
  shakeOneShot shake256Rate outlen input

/-- The body that the one-shot SHA-3 functions share, from the initial contents `s` of their local
state: one squeezed block, of which the first `digestBytes` bytes are the digest. -/
def sha3OneShot (s : State) (r : Rate) (digestBytes : Nat) (input : List Byte) : List Byte :=
  let s := keccakAbsorb s r input 0x06
  let t := keccakSqueezeblocks 1 s r
  t.1.take digestBytes

/-- `sha3_256`: the local state is initialised with `{0}`. -/
def sha3256 (input : List Byte) : List Byte := sha3OneShot zeroState sha3256Rate 32 input

/-- `sha3_512`: the local state is initialised with `{0}`. -/
def sha3512 (input : List Byte) : List Byte := sha3OneShot zeroState sha3512Rate 64 input

end ShakeAccel
