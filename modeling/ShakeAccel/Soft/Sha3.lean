import ShakeAccel.Soft.Incremental
import ShakeAccel.Keccak.Bijective

/-!
# One-shot and incremental SHA-3

The local variables of the C functions start with what the memory holds (`LocalMem`). The array of
the padding functions is overwritten before it is read; the state of `sha3_384` is not, since it is
declared without an initialiser and `keccak_absorb` only XORs into it.
-/

namespace ShakeAccel

open Vec

/-- What the memory of the local variables holds on entry: the array `s[25]` of a one-shot function
and the array `t[200]` of the function that pads. -/
structure LocalMem where
  s : State
  t : Vector Byte 200

/-- The array `t[200]` that `keccak_absorb` fills for the last block. -/
def lastScratch (t : Vector Byte 200) (r : Rate) (m : List Byte) (p : Byte) : Vector Byte 200 :=
  let t := (List.range r.bytes).foldl (fun t i => t.setIfInBounds i 0) t
  let t := (List.range m.length).foldl (fun t i => t.setIfInBounds i (m.getD i 0)) t
  let t := t.setIfInBounds m.length p
  t.setIfInBounds (r.bytes - 1) (t.getD (r.bytes - 1) 0 ||| 128)

/-- `keccak_absorb`, from what its local array holds on entry. -/
def keccakAbsorbFrom (t : Vector Byte 200) (s : State) (r : Rate) (m : List Byte) (p : Byte) :
    State :=
  if _ : r.bytes ≤ m.length then
    let s := keccakF1600StateXORBytes s m 0 r.bytes
    let s := keccakF1600StatePermute s
    keccakAbsorbFrom t s r (m.drop r.bytes) p
  else keccakF1600StateXORBytes s (lastScratch t r m p).toList 0 r.bytes
termination_by m.length
decreasing_by
  have := r.pos
  simp only [List.length_drop]
  omega

/-- The body that the one-shot SHA-3 functions share, from the contents of both arrays. -/
def sha3OneShotFrom (mem : LocalMem) (r : Rate) (digestBytes : Nat) (input : List Byte) :
    List Byte :=
  let s := keccakAbsorbFrom mem.t mem.s r input 0x06
  let t := keccakSqueezeblocks 1 s r
  t.1.take digestBytes

/-- The body that the `finalize` functions of SHA-3 share. -/
def sha3IncFinalize (t : Vector Byte 200) (ctx : IncCtx) (r : Rate) (digestBytes : Nat) :
    List Byte :=
  let ctx := keccakIncFinalize t ctx r 0x06
  let t := keccakSqueezeblocks 1 ctx.state r
  t.1.take digestBytes

/-- The SHA-3 functions that have both interfaces. -/
inductive Sha3 where
  | sha3_256 | sha3_384 | sha3_512
deriving DecidableEq, Repr

namespace Sha3

def rate : Sha3 → Rate
  | sha3_256 => sha3256Rate
  | sha3_384 => sha3384Rate
  | sha3_512 => sha3512Rate

def digestBytes : Sha3 → Nat
  | sha3_256 => 32
  | sha3_384 => 48
  | sha3_512 => 64

/-- What the local state holds when `keccak_absorb` is called: `sha3_256` and `sha3_512` declare it
with the initialiser `{0}`, `sha3_384` declares it without. -/
def initialState (v : Sha3) (mem : LocalMem) : State :=
  match v with
  | sha3_256 => zeroState
  | sha3_384 => mem.s
  | sha3_512 => zeroState

/-- `sha3_256`, `sha3_384` and `sha3_512`. -/
def oneShot (v : Sha3) (mem : LocalMem) (input : List Byte) : List Byte :=
  sha3OneShotFrom { mem with s := v.initialState mem } v.rate v.digestBytes input

/-- `sha3_256_inc_init`, `sha3_384_inc_init` and `sha3_512_inc_init`. -/
def incInit (_ : Sha3) (ctx : IncCtx) : IncCtx := keccakIncInit ctx

/-- `sha3_256_inc_absorb`, `sha3_384_inc_absorb` and `sha3_512_inc_absorb`. -/
def incAbsorb (v : Sha3) (ctx : IncCtx) (input : List Byte) : IncCtx :=
  keccakIncAbsorb ctx v.rate input

/-- `sha3_256_inc_finalize`, `sha3_384_inc_finalize` and `sha3_512_inc_finalize`. -/
def incFinalize (v : Sha3) (t : Vector Byte 200) (ctx : IncCtx) : List Byte :=
  sha3IncFinalize t ctx v.rate v.digestBytes

/-- The digest of a message in chunks, from any contents of the context and of the local array. -/
def incremental (v : Sha3) (t : Vector Byte 200) (ctx : IncCtx) (chunks : List (List Byte)) :
    List Byte :=
  v.incFinalize t (chunks.foldl v.incAbsorb (v.incInit ctx))

end Sha3

/-! ## The local array of the padding functions -/

/-- The loop that copies the message into the array. -/
theorem getD_copy (t : Vector Byte 200) (m : List Byte) {n : Nat} (hn : n ≤ 200) (j : Nat) :
    ((List.range n).foldl (fun t i => t.setIfInBounds i (m.getD i 0)) t).getD j 0 =
      if j < n then m.getD j 0 else t.getD j 0 := by
  have hbound : j < n ∧ j < 200 ↔ j < n := and_iff_left_of_imp fun h => Nat.lt_of_lt_of_le h hn
  rw [getD_foldl_set t fun i => m.getD i 0]
  simp only [hbound]

/-- Below the rate the array is the last block, whatever it held. -/
theorem getD_lastScratch (t : Vector Byte 200) (r : Rate) {m : List Byte} (h : m.length < r.bytes)
    (p : Byte) {j : Nat} (hj : j < r.bytes) :
    (lastScratch t r m p).getD j 0 = (lastBlock r m p).getD j 0 := by
  have hr := r.le
  rw [lastBlock_eq_pad r p h, Sponge.getD_pad p h hj, lastScratch, getD_setFinalBit _ r hj,
    getD_setIfInBounds, getD_copy _ _ (by omega), getD_fill]
  by_cases hjm : m.length = j
  · rw [if_pos ⟨hjm, by omega⟩, if_neg (show ¬j < m.length by omega), if_pos hjm.symm]
  · rw [if_neg fun h => hjm h.1, if_pos (show j < r.bytes ∧ j < 200 by omega),
      if_neg (show ¬j = m.length from fun h => hjm h.symm)]

/-- XORing bytes into the state reads only these bytes of the buffer. -/
theorem xorBytes_congr (s : State) {d d' : List Byte} {n : Nat} (hn : n ≤ 200)
    (h : ∀ j < n, d.getD j 0 = d'.getD j 0) :
    keccakF1600StateXORBytes s d 0 n = keccakF1600StateXORBytes s d' 0 n := by
  apply State.ext_bytes
  intro j hj
  rw [stateByte_xorBytes s d (by omega), stateByte_xorBytes s d' (by omega)]
  by_cases hjn : j < n
  · rw [if_pos (by omega), if_pos (by omega), Nat.sub_zero, h j hjn]
  · rw [if_neg (by omega), if_neg (by omega)]

/-- **What the local array of `keccak_absorb` holds on entry does not matter.** -/
theorem keccakAbsorbFrom_eq (t : Vector Byte 200) (s : State) (r : Rate) (m : List Byte)
    (p : Byte) : keccakAbsorbFrom t s r m p = keccakAbsorb s r m p := by
  induction s, m using keccakAbsorb.induct r with
  | case1 s m h _ _ ih => rw [keccakAbsorbFrom, dif_pos h, keccakAbsorb, dif_pos h, ih]
  | case2 s m h =>
    rw [keccakAbsorbFrom, dif_neg h, keccakAbsorb, dif_neg h]
    refine xorBytes_congr s r.le fun j hj => ?_
    rw [← getD_lastScratch t r (Nat.not_le.1 h) p hj, getD_of_lt _ _ (by have := r.le; omega)]
    have : j < 200 := by have := r.le; omega
    simp [List.getD_eq_getElem?_getD, this]

theorem sha3OneShotFrom_eq (mem : LocalMem) (r : Rate) (digestBytes : Nat) (m : List Byte) :
    sha3OneShotFrom mem r digestBytes m = sha3OneShot mem.s r digestBytes m := by
  rw [sha3OneShotFrom, sha3OneShot, keccakAbsorbFrom_eq]

/-! ## The digests -/

/-- The digest is a prefix of the permuted state. -/
theorem sha3OneShot_eq_bytes (s : State) (r : Rate) {digestBytes : Nat} (h : digestBytes ≤ r.bytes)
    (m : List Byte) :
    sha3OneShot s r digestBytes m =
      (List.range digestBytes).map
        (stateByte (keccakF1600StatePermute (keccakAbsorb s r m 0x06))) := by
  have hone : (keccakSqueezeblocks 1 (keccakAbsorb s r m 0x06) r).1 =
      (List.range r.bytes).map (stateByte (keccakF1600StatePermute (keccakAbsorb s r m 0x06))) := by
    rw [keccakSqueezeblocks, keccakSqueezeblocks, List.append_nil, extractBytes_eq]
    simp only [Nat.zero_add]
  rw [sha3OneShot]
  simp only [hone]
  rw [← List.map_take, List.take_range, Nat.min_eq_left h]

namespace Sha3

theorem digestBytes_le (v : Sha3) : v.digestBytes ≤ v.rate.bytes := by
  cases v <;> decide

theorem oneShot_eq (v : Sha3) (mem : LocalMem) (m : List Byte) :
    v.oneShot mem m = sha3OneShot (v.initialState mem) v.rate v.digestBytes m :=
  sha3OneShotFrom_eq _ _ _ _

/-- The incremental interface computes the digest from the zero state. -/
theorem incremental_eq (v : Sha3) (t : Vector Byte 200) (ctx : IncCtx) (chunks : List (List Byte)) :
    v.incremental t ctx chunks = sha3OneShot zeroState v.rate v.digestBytes chunks.flatten := by
  have hstate := (absorbing_chunks v.rate ctx chunks).finalize t 0x06
  rw [sha3OneShot, ← hstate]
  rfl

/-- The contents of the local state on entry go through a bijection before the digest is cut. -/
theorem permute_keccakAbsorb_bijective (r : Rate) (m : List Byte) (p : Byte) :
    Function.Bijective fun s => keccakF1600StatePermute (keccakAbsorb s r m p) := by
  have hinj : ∀ b : List Byte, Function.Bijective fun s => injectBytes s b := by
    intro b
    refine Function.Involutive.bijective fun s => ?_
    apply State.ext_bytes
    intro j hj
    rw [stateByte_injectBytes _ _ hj, stateByte_injectBytes _ _ hj, BitVec.xor_assoc,
      BitVec.xor_self, BitVec.xor_zero]
  simp only [permute_keccakAbsorb]
  exact Sponge.absorb_bijective keccakF1600StatePermute_bijective hinj _

/-- The digest is cut from the permuted state. -/
theorem oneShot_eq_bytes (v : Sha3) (mem : LocalMem) (m : List Byte) :
    v.oneShot mem m = (List.range v.digestBytes).map
      (stateByte (keccakF1600StatePermute (keccakAbsorb (v.initialState mem) v.rate m 0x06))) := by
  rw [oneShot_eq, sha3OneShot_eq_bytes _ _ v.digestBytes_le]

theorem incremental_eq_bytes (v : Sha3) (t : Vector Byte 200) (ctx : IncCtx)
    (chunks : List (List Byte)) :
    v.incremental t ctx chunks = (List.range v.digestBytes).map
      (stateByte
        (keccakF1600StatePermute (keccakAbsorb zeroState v.rate chunks.flatten 0x06))) := by
  rw [incremental_eq, sha3OneShot_eq_bytes _ _ v.digestBytes_le]

/-- The one-shot digest is the incremental one if the local state starts with zeros. -/
theorem oneShot_eq_incremental {v : Sha3} {mem : LocalMem} (h : v.initialState mem = zeroState)
    (t : Vector Byte 200) (ctx : IncCtx) (chunks : List (List Byte)) :
    v.oneShot mem chunks.flatten = v.incremental t ctx chunks := by
  rw [oneShot_eq, h, incremental_eq]

theorem initialState_eq_zero {v : Sha3} {mem : LocalMem}
    (h : v ≠ .sha3_384 ∨ mem.s = zeroState) : v.initialState mem = zeroState := by
  cases v with
  | sha3_256 => rfl
  | sha3_384 =>
    rcases h with h | h
    · exact absurd rfl h
    · exact h
  | sha3_512 => rfl

/-! ## The contents that `sha3_384` starts from -/

/-- A state with the lowest bit of word `k` inverted. -/
def flipWord (s : State) (k : Nat) : State := s.setIfInBounds k (s.getD k 0 ^^^ 1)

theorem stateByte_flipWord (s : State) {k : Nat} (hk : k < 25) (j : Nat) :
    stateByte (flipWord s k) j = if j = 8 * k then stateByte s j ^^^ 1 else stateByte s j := by
  have h := stateByte_xorByte s 1 (p := 8 * k) (by omega) j
  rwa [show 8 * k / 8 = k by omega, show 8 * k % 8 = 0 by omega] at h

/-- The byte that holds the inverted bit changes. -/
theorem stateByte_flipWord_ne (s : State) {k : Nat} (hk : k < 25) :
    stateByte (flipWord s k) (8 * k) ≠ stateByte s (8 * k) := by
  have hflip : ∀ d : Byte, d ^^^ 1 ≠ d := by decide
  rw [stateByte_flipWord s hk, if_pos rfl]
  exact hflip _

/-- Some contents of the local state put any wanted state under the squeeze. -/
theorem exists_contents (m : List Byte) (target : State) :
    ∃ s, keccakF1600StatePermute (keccakAbsorb s sha3384Rate m 0x06) = target :=
  (permute_keccakAbsorb_bijective sha3384Rate m 0x06).2 target

/-- For every message some contents of the local state spoil the digest of `sha3_384`. -/
theorem exists_oneShot_ne (chunks : List (List Byte)) (t : Vector Byte 200) (ctx : IncCtx) :
    ∃ mem, sha3_384.oneShot mem chunks.flatten ≠ sha3_384.incremental t ctx chunks := by
  obtain ⟨s, hs⟩ := exists_contents chunks.flatten
    (flipWord
      (keccakF1600StatePermute (keccakAbsorb zeroState sha3384Rate chunks.flatten 0x06)) 0)
  refine ⟨⟨s, t⟩, fun heq => ?_⟩
  rw [oneShot_eq_bytes, incremental_eq_bytes] at heq
  have hbyte := List.map_eq_map_iff.1 heq 0 (List.mem_range.2 (by decide))
  simp only [initialState, rate, hs] at hbyte
  exact stateByte_flipWord_ne _ (k := 0) (by decide) hbyte

/-- For every message some nonzero contents leave the digest of `sha3_384` as it should be: they
change a part of the state that is not squeezed. -/
theorem exists_ne_zero_oneShot_eq (chunks : List (List Byte)) (t : Vector Byte 200) (ctx : IncCtx) :
    ∃ mem : LocalMem, mem.s ≠ zeroState ∧
      sha3_384.oneShot mem chunks.flatten = sha3_384.incremental t ctx chunks := by
  obtain ⟨s, hs⟩ := exists_contents chunks.flatten
    (flipWord
      (keccakF1600StatePermute (keccakAbsorb zeroState sha3384Rate chunks.flatten 0x06)) 24)
  refine ⟨⟨s, t⟩, ?_, ?_⟩
  · rintro rfl
    exact stateByte_flipWord_ne _ (k := 24) (by decide) (congrArg (stateByte · 192) hs.symm)
  · rw [oneShot_eq_bytes, incremental_eq_bytes]
    refine List.map_congr_left fun j hj => ?_
    have hj : j < 48 := List.mem_range.1 hj
    simp only [initialState, rate, hs]
    rw [stateByte_flipWord _ (by decide), if_neg (by omega)]

/-- **When the one-shot and the incremental digest agree**: always from a local state of zeros, and
whatever the memory holds exactly for the functions that initialise it. -/
theorem oneShot_eq_incremental_iff (v : Sha3) (chunks : List (List Byte)) :
    ((∀ mem t ctx, v.oneShot mem chunks.flatten = v.incremental t ctx chunks) ↔ v ≠ .sha3_384) ∧
      ∀ mem t ctx, mem.s = zeroState →
        v.oneShot mem chunks.flatten = v.incremental t ctx chunks := by
  refine ⟨⟨?_, ?_⟩, ?_⟩
  · rintro h rfl
    obtain ⟨mem, hne⟩ := exists_oneShot_ne chunks (.replicate 200 0) ⟨zeroState, 0⟩
    exact hne (h mem _ _)
  · intro h mem t ctx
    exact oneShot_eq_incremental (initialState_eq_zero (.inl h)) t ctx chunks
  · intro mem t ctx h
    exact oneShot_eq_incremental (initialState_eq_zero (.inr h)) t ctx chunks

/-- `sha3_384` on a stack of zeros, against the incremental interface with two chunks. -/
theorem oneShot_eq_incremental_iff_zeros :
    sha3_384.oneShot ⟨zeroState, .replicate 200 0⟩ [0x61, 0x62, 0x63] =
      sha3_384.incremental (.replicate 200 0) ⟨zeroState, 0⟩ [[0x61], [0x62, 0x63]] :=
  (oneShot_eq_incremental_iff .sha3_384 [[0x61], [0x62, 0x63]]).2 _ _ _ rfl

set_option maxRecDepth 100000 in
/-- One bit left over in the local state of `sha3_384` changes the digest of the empty message. -/
theorem sha3_384_ne_incremental :
    sha3_384.oneShot ⟨flipWord zeroState 0, .replicate 200 0⟩ [] ≠
      sha3_384.incremental (.replicate 200 0) ⟨zeroState, 0⟩ [] := by
  intro heq
  rw [oneShot_eq_bytes, incremental_eq_bytes] at heq
  have hbyte := List.map_eq_map_iff.1 heq 0 (List.mem_range.2 (by decide))
  revert hbyte
  have habsorb : ∀ s : State, keccakAbsorb s sha3384Rate [] 0x06 =
      keccakF1600StateXORBytes s (lastBlock sha3384Rate [] 0x06) 0 104 := by
    intro s
    rw [keccakAbsorb, dif_neg (by decide)]
    rfl
  simp only [initialState, rate, List.flatten_nil, habsorb]
  decide +kernel

end Sha3

end ShakeAccel
