import ShakeAccel.Reference.SpongeSession
import ShakeAccel.Soft.OneShot

/-!
# The reference sponge agrees with `fips202.c`

A byte message followed by a few suffix bits, padded as a bit string, is the byte message padded
with one suffix byte that holds these bits and the first bit of the padding. With the suffix `1111`
the reference sponge therefore computes the extendable-output functions of `fips202.c`, and with the
suffix `01` its SHA-3 functions.
-/

namespace ShakeAccel.Reference

open Vec BitSponge

/-! ## Bytes as bits -/

/-- The bits of a byte string. -/
def byteBits (l : List Byte) : List Bool := bits (fun k => l.getD k 0) (8 * l.length)

theorem length_byteBits (l : List Byte) : (byteBits l).length = 8 * l.length := length_bits _ _

theorem byteBits_append (a b : List Byte) : byteBits (a ++ b) = byteBits a ++ byteBits b := by
  rw [byteBits, List.length_append, Nat.mul_add, bits_add _ (by omega)]
  congr 1
  · exact bits_congr fun k hk => List.getD_append _ _ _ _ (by omega)
  · refine bits_congr fun k _ => ?_
    rw [Nat.mul_div_cancel_left _ (show 0 < 8 by decide),
      List.getD_append_right _ _ _ _ (Nat.le_add_right _ _), Nat.add_sub_cancel_left]

theorem getD_byteBits (l : List Byte) (i : Nat) :
    (byteBits l).getD i false = (l.getD (i / 8) 0).getLsbD (i % 8) := by
  by_cases h : i < 8 * l.length
  · exact getD_bits _ h
  · rw [List.getD_eq_default _ _ (by rw [length_byteBits]; omega),
      List.getD_eq_default _ _ (by omega)]
    exact BitVec.getLsbD_zero.symm

/-- A bit string that is as long as some bytes and agrees with them. -/
theorem eq_byteBits {l : List Bool} {b : List Byte} (hlen : l.length = 8 * b.length)
    (h : ∀ i < 8 * b.length, l.getD i false = (b.getD (i / 8) 0).getLsbD (i % 8)) :
    l = byteBits b :=
  (bits_eq_of_getD hlen fun i hi => (h i hi).symm).symm

/-- XORing a block of bytes into the words is XORing its bits into the bytes. -/
theorem fromWordsToBytes_injectBytes (s : State) (b : List Byte) :
    fromWordsToBytes (injectBytes s b) = xorBits (fromWordsToBytes s) (byteBits b) := by
  apply ext_getD 0
  intro k hk
  rw [getD_fromWordsToBytes _ hk, stateByte_injectBytes _ _ hk, getD_xorBits _ _ hk,
    getD_fromWordsToBytes _ hk]
  congr 1
  apply BitVec.eq_of_getLsbD_eq
  intro i hi
  rw [Bits.getLsbD_ofBits, decide_eq_true hi, Bool.true_and, getD_byteBits,
    show (8 * k + i) / 8 = k by omega, show (8 * k + i) % 8 = i by omega]

theorem fromWordsToBytes_permute (s : State) :
    fromWordsToBytes (keccakF1600StatePermute s) = keccakPermutation (fromWordsToBytes s) := by
  rw [keccakPermutation, fromBytesToWords_fromWordsToBytes, keccakPermutationOnWords_eq]

theorem fromWordsToBytes_zeroState : fromWordsToBytes zeroState = keccakInitializeState := by
  apply ext_getD 0
  intro k hk
  rw [getD_fromWordsToBytes _ hk, stateByte, zeroState, getD_replicate _ _ (by omega),
    keccakInitializeState, getD_replicate _ _ hk]
  exact Bits.byteAt_zero _

/-! ## The two paddings -/

/-- The suffix byte of `fips202.c` for suffix bits: the bits and the first bit of the padding. -/
def suffixByte (s : List Bool) : Byte := Bits.ofBits 8 fun i => (s ++ [true]).getD i false

/-- The paddings agree on a message shorter than a block. -/
theorem pad_byteBits_of_lt {r : Nat} {m : List Byte} {s : List Bool} (h : m.length < r)
    (hs : s.length ≤ 6) :
    pad (8 * r) (byteBits m ++ s) = byteBits (Sponge.pad r (suffixByte s) m) := by
  have hlen : (Sponge.pad r (suffixByte s) m).length = r := by
    rw [Sponge.length_pad (by omega), Sponge.padBlocks, Nat.div_eq_of_lt h, Nat.zero_add,
      Nat.one_mul]
  have hms : (byteBits m ++ s).length = 8 * m.length + s.length := by
    rw [List.length_append, length_byteBits]
  have hroom : (byteBits m ++ s).length + 2 ≤ 8 * r := by omega
  have h80 : ∀ t < 8, (0x80 : Byte).getLsbD t = decide (t = 7) := by decide
  refine eq_byteBits (by rw [length_pad_of_add_two_le hroom, hlen]) fun i hi => ?_
  rw [hlen] at hi
  have ht := Nat.mod_lt i (show 0 < 8 by decide)
  rw [getD_pad, length_pad_of_add_two_le hroom, hms, Sponge.getD_pad _ h (by omega),
    BitVec.getLsbD_or]
  -- the bit of the last byte
  have hlast : (if i / 8 = r - 1 then (0x80 : Byte) else 0).getLsbD (i % 8) =
      decide (8 * r - 1 = i) := by
    split
    · rw [h80 _ ht]
      exact decide_eq_decide.2 (by omega)
    · rw [decide_eq_false (by omega)]
      exact BitVec.getLsbD_zero
  rw [hlast]
  congr 1
  rcases Nat.lt_trichotomy (i / 8) m.length with hlt | heq | hgt
  · rw [if_pos hlt, List.getD_append _ _ _ _ (by rw [length_byteBits]; omega), getD_byteBits,
      decide_eq_false (by omega), Bool.or_false]
  · rw [if_neg (by omega), if_pos heq, suffixByte, Bits.getLsbD_ofBits, decide_eq_true ht,
      Bool.true_and, getD_append_true,
      List.getD_append_right _ _ _ _ (by rw [length_byteBits]; omega), length_byteBits,
      show i - 8 * m.length = i % 8 by omega]
    congr 1
    exact decide_eq_decide.2 (by omega)
  · rw [if_neg (by omega), if_neg (by omega), List.getD_eq_default _ _ (by omega),
      decide_eq_false (by omega)]
    exact BitVec.getLsbD_zero.symm

/-- The paddings agree. -/
theorem pad_byteBits {r : Nat} (hr : 0 < r) (m : List Byte) {s : List Bool} (hs : s.length ≤ 6) :
    pad (8 * r) (byteBits m ++ s) = byteBits (Sponge.pad r (suffixByte s) m) := by
  induction h : m.length / r generalizing m with
  | zero => exact pad_byteBits_of_lt ((Nat.div_eq_zero_iff_lt hr).1 h) hs
  | succ n ih =>
    have hle : r ≤ m.length := by
      by_contra hlt
      rw [Nat.div_eq_of_lt (by omega)] at h
      exact absurd h (Nat.succ_ne_zero n).symm
    have htake : (byteBits (m.take r)).length % (8 * r) = 0 := by
      rw [length_byteBits, List.length_take, Nat.min_eq_left hle, Nat.mod_self]
    have hn : (m.drop r).length / r = n := by
      rw [Nat.div_eq_sub_div hr hle] at h
      rw [List.length_drop]
      omega
    rw [Sponge.pad_of_le _ hle, byteBits_append, ← ih _ hn, ← pad_append htake,
      ← List.append_assoc, ← byteBits_append, List.take_append_drop]

/-! ## Absorbing and squeezing -/

theorem blocks_byteBits (r n : Nat) (l : List Byte) (h : r * n ≤ l.length) :
    Sponge.blocks (8 * r) n (byteBits l) = (Sponge.blocks r n l).map byteBits := by
  induction n generalizing l with
  | zero => rfl
  | succ n ih =>
    rw [Nat.mul_succ] at h
    have hlen : (byteBits (l.take r)).length = 8 * r := by
      rw [length_byteBits, List.length_take, Nat.min_eq_left (by omega)]
    have hsplit : byteBits l = byteBits (l.take r) ++ byteBits (l.drop r) := by
      rw [← byteBits_append, List.take_append_drop]
    rw [Sponge.blocks, hsplit, List.take_left' hlen, List.drop_left' hlen,
      ih _ (by rw [List.length_drop]; omega), Sponge.blocks, List.map_cons]

/-- The reference sponge and `fips202.c` reach the same state. -/
theorem finalState_byteBits (r : SpongeRate) (m : List Byte) {s : List Bool} (hs : s.length ≤ 6) :
    finalState r (byteBits m ++ s) =
      fromWordsToBytes (absorbed (r.bits / 8) (suffixByte s) m) := by
  have h8 : 8 * (r.bits / 8) = r.bits := by
    have := r.mod_eight
    omega
  have hpos : 0 < r.bits / 8 := by
    have := r.ge_min
    omega
  have hpad := pad_byteBits hpos m hs
  have hlen := Sponge.length_pad hpos (suffixByte s) m
  have hdiv : 8 * (Sponge.padBlocks (r.bits / 8) m * (r.bits / 8)) / r.bits =
      Sponge.padBlocks (r.bits / 8) m := by
    rw [Nat.mul_left_comm, h8, Nat.mul_div_cancel _ r.pos]
  have hblocks := blocks_byteBits (r.bits / 8) (Sponge.padBlocks (r.bits / 8) m)
    (Sponge.pad (r.bits / 8) (suffixByte s) m) (by rw [hlen, Nat.mul_comm])
  rw [h8] at hpad hblocks
  rw [absorbed, Sponge.absorb_map fromWordsToBytes byteBits fromWordsToBytes_permute
    fromWordsToBytes_injectBytes, fromWordsToBytes_zeroState, finalState, final, absorbWhole, hpad,
    length_byteBits, hlen, hdiv, hblocks]

/-- The reference sponge and `fips202.c` hand out the same bytes. -/
theorem outputBytes_byteBits (r : SpongeRate) (m : List Byte) {s : List Bool} (hs : s.length ≤ 6)
    (n : Nat) :
    outputBytes r (byteBits m ++ s) 0 (8 * n) =
      spongeHash (r.bits / 8) (suffixByte s) n m := by
  have h8 := r.mod_eight
  have hpos : 0 < r.bits / 8 := by
    have := r.ge_min
    omega
  have hlt := r.lt
  have hiter : ∀ (k : Nat) (w : State), keccakPermutation^[k] (fromWordsToBytes w) =
      fromWordsToBytes (keccakF1600StatePermute^[k] w) := by
    intro k w
    induction k with
    | zero => rfl
    | succ k ih =>
      rw [Function.iterate_succ_apply', ih, Function.iterate_succ_apply', fromWordsToBytes_permute]
  rw [spongeHash_eq_stream hpos, outputBytes, Nat.mul_div_cancel_left _ (by decide)]
  refine List.map_congr_left fun j _ => ?_
  apply BitVec.eq_of_getLsbD_eq
  intro t ht
  have hdm := Nat.div_add_mod j (r.bits / 8)
  have hm := Nat.mod_lt j hpos
  have hmul : 8 * (r.bits / 8 * (j / (r.bits / 8))) = j / (r.bits / 8) * r.bits := by
    rw [← Nat.mul_assoc, show 8 * (r.bits / 8) = r.bits by omega, Nat.mul_comm]
  rw [Bits.getLsbD_ofBits, decide_eq_true ht, Bool.true_and, outputBit, finalState_byteBits r m hs,
    show 0 + 8 * j + t = j / (r.bits / 8) * r.bits + (8 * (j % (r.bits / 8)) + t) by omega,
    Sponge.stream_add_mul _ _ r.pos, Sponge.stream_of_lt _ _ _ (by omega), hiter, bitAt,
    Sponge.stream, show (8 * (j % (r.bits / 8)) + t) / 8 = j % (r.bits / 8) by omega,
    show (8 * (j % (r.bits / 8)) + t) % 8 = t by omega, ptr, getD_fromWordsToBytes _ (by omega)]

/-! ## Sessions -/

/-- A byte string as the argument of `Absorb`. -/
def absorbBytesCall (c : List Byte) : Call := .absorb (fun k => c.getD k 0) (8 * c.length)

/-- A session that absorbs byte strings, then suffix bits, and squeezes whole bytes. -/
def hashCalls (chunks : List (List Byte)) (suffix : Byte) (suffixBits : Nat) (outlens : List Nat) :
    List Call :=
  chunks.map absorbBytesCall ++
    .absorb (fun _ => suffix) suffixBits :: outlens.map fun n => .squeeze (8 * n)

/-- The calls of a session return when every byte string is shorter than 2^29 bytes, less a
block. -/
theorem returns_hashCalls (r : SpongeRate) {chunks : List (List Byte)}
    (hchunks : ∀ c ∈ chunks, 8 * c.length + 1536 ≤ 2 ^ 32) (suffix : Byte) {suffixBits : Nat}
    (hs : suffixBits ≤ 6) (outlens : List Nat) (m : List Bool) :
    Machine.Along Phase.next (Phase.Returns r) (.absorbing m)
      (hashCalls chunks suffix suffixBits outlens) := by
  have hmax := r.le_max
  have hfit : ∀ (m : List Bool) (n : Nat), n + 1536 ≤ 2 ^ 32 →
      AbsorbReturns r.bits (m.length % r.bits) n := by
    intro m n hn
    have := Nat.mod_lt m.length r.pos
    unfold AbsorbReturns
    omega
  have hsqueeze : ∀ p : Phase, Machine.Along Phase.next (Phase.Returns r) p
      (outlens.map fun n => .squeeze (8 * n)) := by
    induction outlens with
    | nil => exact fun _ => trivial
    | cons n outlens ih =>
      intro p
      cases p <;> exact ⟨trivial, ih _⟩
  induction chunks generalizing m with
  | nil => exact ⟨fun _ => hfit m _ (by omega), hsqueeze _⟩
  | cons c chunks ih =>
    exact ⟨fun _ => hfit m _ (hchunks c (.head _)), ih (fun c' hc' => hchunks c' (.tail _ hc')) _⟩

/-- The answers that a list of `Squeeze` calls for whole bytes gets. -/
theorem collect_squeeze (r : SpongeRate) (m : List Bool) (k : Nat) (outlens : List Nat) :
    (∀ a ∈ Machine.collect Phase.next (fun p c => [p.answer r c]) (.squeezing m k)
      (outlens.map fun n => .squeeze (8 * n)), a.1 = 0) ∧
    ((Machine.collect Phase.next (fun p c => [p.answer r c]) (.squeezing m k)
      (outlens.map fun n => .squeeze (8 * n))).map Prod.snd).flatten =
        outputBytes r m k (8 * outlens.sum) := by
  induction outlens generalizing k with
  | nil => exact ⟨fun a ha => absurd ha List.not_mem_nil, rfl⟩
  | cons n outlens ih =>
    have h8 : 8 * n % 8 = 0 := Nat.mul_mod_right 8 n
    obtain ⟨hcode, hout⟩ := ih (k + 8 * n)
    rw [List.map_cons, Machine.collect, Phase.answer_squeeze h8, Phase.next_squeeze h8]
    refine ⟨fun a ha => ?_, ?_⟩
    · rcases List.mem_cons.1 ha with rfl | ha
      · rfl
      · exact hcode a ha
    · rw [List.singleton_append, List.map_cons, List.flatten_cons, hout, List.sum_cons, Nat.mul_add,
        outputBytes_add r m k h8]

/-- The first `Squeeze` of a session pads: the answers are those of the padded message. -/
theorem collect_squeeze_absorbing (r : SpongeRate) (m : List Bool) (outlens : List Nat) :
    Machine.collect Phase.next (fun p c => [p.answer r c]) (.absorbing m)
        (outlens.map fun n => .squeeze (8 * n)) =
      Machine.collect Phase.next (fun p c => [p.answer r c]) (.squeezing m 0)
        (outlens.map fun n => .squeeze (8 * n)) := by
  cases outlens with
  | nil => rfl
  | cons n outlens =>
    rw [List.map_cons, Machine.collect, Machine.collect, Phase.answer_absorbing_squeeze,
      Phase.next_absorbing_squeeze]

/-- The answers of a session. -/
theorem collect_hashCalls (r : SpongeRate) (chunks : List (List Byte)) (suffix : Byte)
    (suffixBits : Nat) (outlens : List Nat) {m : List Bool} (hm : m.length % 8 = 0) :
    (∀ a ∈ Machine.collect Phase.next (fun p c => [p.answer r c]) (.absorbing m)
      (hashCalls chunks suffix suffixBits outlens), a.1 = 0) ∧
    ((Machine.collect Phase.next (fun p c => [p.answer r c]) (.absorbing m)
      (hashCalls chunks suffix suffixBits outlens)).map Prod.snd).flatten =
        outputBytes r (m ++ byteBits chunks.flatten ++ bits (fun _ => suffix) suffixBits) 0
          (8 * outlens.sum) := by
  induction chunks generalizing m with
  | nil =>
    obtain ⟨hcode, hout⟩ := collect_squeeze r (m ++ bits (fun _ => suffix) suffixBits) 0 outlens
    rw [hashCalls, List.map_nil, List.nil_append, Machine.collect, Phase.answer_absorb hm,
      Phase.next_absorb hm, collect_squeeze_absorbing]
    refine ⟨fun a ha => ?_, ?_⟩
    · rcases List.mem_cons.1 ha with rfl | ha
      · rfl
      · exact hcode a ha
    · rw [List.singleton_append, List.map_cons, List.flatten_cons, hout, List.flatten_nil,
        show byteBits [] = [] from rfl, List.append_nil]
      rfl
  | cons c chunks ih =>
    have hm' : (m ++ byteBits c).length % 8 = 0 := by
      rw [List.length_append, length_byteBits]
      omega
    obtain ⟨hcode, hout⟩ := ih hm'
    rw [hashCalls, List.map_cons, List.cons_append, Machine.collect, absorbBytesCall,
      Phase.answer_absorb hm, Phase.next_absorb hm]
    refine ⟨fun a ha => ?_, ?_⟩
    · rcases List.mem_cons.1 ha with rfl | ha
      · rfl
      · exact hcode a ha
    · rw [List.singleton_append, List.map_cons, List.flatten_cons, List.nil_append,
        List.flatten_cons, byteBits_append, ← List.append_assoc]
      exact hout

/-- A session of the reference sponge, on an object in any state. -/
def referenceHash (rate : Nat) (st : SpongeState) (chunks : List (List Byte)) (suffix : Byte)
    (suffixBits : Nat) (outlens : List Nat) (fuel : Nat) : Option (List Answer × SpongeState) :=
  runCalls fuel (initSponge st rate (1600 - rate)).2 (hashCalls chunks suffix suffixBits outlens)

/-- Every call of a session succeeds, and together they write `out`. -/
def Writes (res : Option (List Answer × SpongeState)) (out : List Byte) : Prop :=
  ∃ answers st', res = some (answers, st') ∧ (∀ a ∈ answers, a.1 = 0) ∧
    (answers.map Prod.snd).flatten = out

/-- Iterations that are enough for every call of a session. -/
theorem exists_bound {α : Type} (cost : α → Nat) (cs : List α) : ∃ N, ∀ c ∈ cs, cost c ≤ N := by
  induction cs with
  | nil => exact ⟨0, fun c hc => absurd hc List.not_mem_nil⟩
  | cons c cs ih =>
    obtain ⟨N, hN⟩ := ih
    refine ⟨max (cost c) N, fun c' hc' => ?_⟩
    rcases List.mem_cons.1 hc' with rfl | hc'
    · exact Nat.le_max_left _ _
    · exact Nat.le_trans (hN c' hc') (Nat.le_max_right _ _)

/-- A session writes the bytes of the byte sponge with the suffix byte. -/
theorem writes_referenceHash (r : SpongeRate) (st : SpongeState) {chunks : List (List Byte)}
    (hchunks : ∀ c ∈ chunks, 8 * c.length + 1536 ≤ 2 ^ 32) (suffix : Byte) {suffixBits : Nat}
    (hs : suffixBits ≤ 6) (outlens : List Nat) :
    ∃ N, ∀ fuel ≥ N, Writes (referenceHash r.bits st chunks suffix suffixBits outlens fuel)
      (spongeHash (r.bits / 8) (suffixByte (bits (fun _ => suffix) suffixBits)) outlens.sum
        chunks.flatten) := by
  obtain ⟨N, hN⟩ := exists_bound Call.cost (hashCalls chunks suffix suffixBits outlens)
  refine ⟨N, fun fuel hfuel => ?_⟩
  obtain ⟨st', hrun, -⟩ := Represents.runCalls (p := .absorbing []) (initSponge_absorbing r st)
    (returns_hashCalls r hchunks suffix hs outlens [])
    fun c hc => Nat.le_trans (hN c hc) hfuel
  obtain ⟨hcode, hout⟩ := collect_hashCalls r chunks suffix suffixBits outlens (m := []) rfl
  refine ⟨_, st', hrun, hcode, ?_⟩
  rw [hout, List.nil_append, outputBytes_byteBits r _ (by rw [length_bits]; exact hs)]

/-- **Two implementations of one hash.** However the message is cut into calls of `Absorb`, of at
most `2^29 - 192` bytes each, and the output into calls of `Squeeze`, the reference sponge computes
the functions of `fips202.c`: with four suffix bits `1111` the extendable-output functions, with the
suffix bits `01` the SHA-3 functions, whose outputs are 32 and 64 bytes. -/
theorem reference_eq_fips202 (st : SpongeState) (chunks : List (List Byte))
    (hchunks : ∀ c ∈ chunks, 8 * c.length + 1536 ≤ 2 ^ 32) (outlens : List Nat) :
    ∃ N, ∀ fuel ≥ N,
      Writes (referenceHash 1344 st chunks 0x0F 4 outlens fuel)
        (shake128 outlens.sum chunks.flatten) ∧
      Writes (referenceHash 1088 st chunks 0x0F 4 outlens fuel)
        (shake256 outlens.sum chunks.flatten) ∧
      (outlens.sum = 32 →
        Writes (referenceHash 1088 st chunks 0x02 2 outlens fuel) (sha3256 chunks.flatten)) ∧
      (outlens.sum = 64 →
        Writes (referenceHash 576 st chunks 0x02 2 outlens fuel) (sha3512 chunks.flatten)) := by
  obtain ⟨h128, h256, h3, h5⟩ := oneShot_eq_spongeHash outlens.sum chunks.flatten
  have hxof : suffixByte (bits (fun _ => 0x0F) 4) = 0x1F := by decide
  have hsha3 : suffixByte (bits (fun _ => 0x02) 2) = 0x06 := by decide
  obtain ⟨N₁, w₁⟩ := writes_referenceHash ⟨1344, by decide, by decide, by decide⟩ st hchunks 0x0F
    (show 4 ≤ 6 by decide) outlens
  obtain ⟨N₂, w₂⟩ := writes_referenceHash ⟨1088, by decide, by decide, by decide⟩ st hchunks 0x0F
    (show 4 ≤ 6 by decide) outlens
  obtain ⟨N₃, w₃⟩ := writes_referenceHash ⟨1088, by decide, by decide, by decide⟩ st hchunks 0x02
    (show 2 ≤ 6 by decide) outlens
  obtain ⟨N₄, w₄⟩ := writes_referenceHash ⟨576, by decide, by decide, by decide⟩ st hchunks 0x02
    (show 2 ≤ 6 by decide) outlens
  rw [hxof] at w₁ w₂
  rw [hsha3] at w₃ w₄
  refine ⟨max (max N₁ N₂) (max N₃ N₄), fun fuel hfuel => ?_⟩
  rw [h128, h256, h3, h5]
  refine ⟨w₁ fuel (by omega), w₂ fuel (by omega), fun h32 => ?_, fun h64 => ?_⟩
  · have h := w₃ fuel (by omega)
    rwa [h32] at h
  · have h := w₄ fuel (by omega)
    rwa [h64] at h

/-- A message in two pieces; an extendable output in three pieces, a SHA3-256 digest in two. -/
theorem reference_eq_fips202_pieces :
    (∃ N, ∀ fuel ≥ N,
      Writes (referenceHash 1344 uninitialised [[0x41, 0x42], [0x43]] 0x0F 4 [1, 0, 200] fuel)
        (shake128 201 [0x41, 0x42, 0x43])) ∧
    ∃ N, ∀ fuel ≥ N,
      Writes (referenceHash 1088 uninitialised [[0x41, 0x42], [0x43]] 0x02 2 [20, 12] fuel)
        (sha3256 [0x41, 0x42, 0x43]) := by
  obtain ⟨N, h⟩ := reference_eq_fips202 uninitialised [[0x41, 0x42], [0x43]] (by decide)
    [1, 0, 200]
  obtain ⟨N', h'⟩ := reference_eq_fips202 uninitialised [[0x41, 0x42], [0x43]] (by decide)
    [20, 12]
  exact ⟨⟨N, fun fuel hfuel => (h fuel hfuel).1⟩,
    N', fun fuel hfuel => (h' fuel hfuel).2.2.1 (by decide)⟩

end ShakeAccel.Reference
