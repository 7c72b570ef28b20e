import ShakeAccel.Reference.Sponge

/-!
# The reference sponge is a sponge over bit strings

Between two calls a sponge object represents the bits it has absorbed (`Absorbing`), or the message
it has padded and the number of bits it has handed out (`Squeezing`). Each call takes a phase of the
bit-string sponge to the next (`absorb_eq`, `squeeze_eq`), whatever the lengths are and whether it
is refused or not.
-/

namespace ShakeAccel.Reference

open Vec BitSponge

variable {r : SpongeRate}

/-- The state after the whole blocks of a bit string. -/
def absorbedState (r : SpongeRate) (m : List Bool) : ByteState :=
  absorbWhole keccakPermutation xorBits r.bits keccakInitializeState m

/-- The state after the padded message. -/
def finalState (r : SpongeRate) (m : List Bool) : ByteState :=
  final keccakPermutation xorBits r.bits keccakInitializeState m

/-- Bit `i` of the output for the message `m`. -/
def outputBit (r : SpongeRate) (m : List Bool) (i : Nat) : Bool :=
  Sponge.stream keccakPermutation bitAt r.bits (finalState r m) i

/-- The output for the message `m` from bit `k` on: `n` bits, in whole bytes. -/
def outputBytes (r : SpongeRate) (m : List Bool) (k n : Nat) : List Byte :=
  (List.range (n / 8)).map fun j => Bits.ofBits 8 fun t => outputBit r m (k + 8 * j + t)

/-- Every variant of the absorption of a block injects the bits of the block and permutes. -/
theorem absorbBlock_eq (r : SpongeRate) (s : ByteState) (d : Ptr) :
    absorbBlock r.bits s d = keccakPermutation (xorBits s (bits d r.bits)) := by
  have h64 : 8 * (r.bits / 64 * 8) = r.bits := by
    have := r.lanes
    omega
  unfold absorbBlock
  split
  · next h => rw [keccakAbsorb576bits, keccakPermutationAfterXor_eq, h]
  split
  · next h => rw [keccakAbsorb832bits, keccakPermutationAfterXor_eq, h]
  split
  · next h => rw [keccakAbsorb1024bits, keccakPermutationAfterXor_eq, h]
  split
  · next h => rw [keccakAbsorb1088bits, keccakPermutationAfterXor_eq, h]
  split
  · next h => rw [keccakAbsorb1152bits, keccakPermutationAfterXor_eq, h]
  split
  · next h => rw [keccakAbsorb1344bits, keccakPermutationAfterXor_eq, h]
  · rw [keccakAbsorb, keccakPermutationAfterXor_eq, h64]

/-- The loop over whole blocks. -/
theorem foldl_absorbBlock (s : ByteState) (d : Ptr) (n : Nat) :
    (List.range n).foldl (fun s j => absorbBlock r.bits s fun k => d (j * (r.bits / 8) + k)) s =
      absorbWhole keccakPermutation xorBits r.bits s (bits d (n * r.bits)) := by
  have h8 := r.mod_eight
  induction n with
  | zero =>
    rw [Nat.zero_mul]
    exact (absorbWhole_of_lt (m := []) s r.pos).symm
  | succ n ih =>
    have hmul : n * r.bits % 8 = 0 := by rw [Nat.mul_mod, h8, Nat.mul_zero, Nat.zero_mod]
    have hdiv : n * r.bits / 8 = n * (r.bits / 8) := by
      rw [Nat.mul_div_assoc _ (Nat.dvd_of_mod_eq_zero h8)]
    rw [List.range_succ, List.foldl_append, List.foldl_cons, List.foldl_nil, ih, absorbBlock_eq,
      Nat.succ_mul, bits_add _ hmul, absorbWhole_append r.pos _
        (by rw [length_bits, Nat.mul_mod_left]), absorbWhole_block r.pos _ (length_bits _ _), hdiv]

/-! ## The absorbing phase -/

/-- The object has absorbed `m`: the whole blocks are in the state, the rest is in the queue, and
the bits of the queue's last byte that it does not use are clear. -/
structure Absorbing (r : SpongeRate) (m : List Bool) (st : SpongeState) : Prop where
  rate : st.rate = r.bits
  squeezing : st.squeezing = false
  bitsInQueue : st.bitsInQueue = m.length % r.bits
  state : st.state = absorbedState r m
  queue : bits (ptr st.dataQueue) (m.length % r.bits) = rest r.bits m
  clear : ∀ i, m.length % r.bits ≤ i → i < 8 * ((m.length % r.bits + 7) / 8) →
    (ptr st.dataQueue (i / 8)).getLsbD (i % 8) = false

/-- `InitSponge` starts the absorbing phase. -/
theorem initSponge_absorbing (r : SpongeRate) (st : SpongeState) :
    Absorbing r [] (initSponge st r.bits (1600 - r.bits)).2 := by
  have hlt := r.lt
  have hpos := r.pos
  have hlanes := r.lanes
  have hok : initSponge st r.bits (1600 - r.bits) =
      (0, { state := keccakInitializeState, dataQueue := memzero st.dataQueue 0 192, rate := r.bits,
            capacity := 1600 - r.bits, bitsInQueue := 0, fixedOutputLength := 0, squeezing := false,
            bitsAvailableForSqueezing := 0 }) := by
    unfold initSponge
    rw [if_neg (by omega), if_neg (by omega)]
  rw [hok]
  refine ⟨rfl, rfl, (Nat.zero_mod _).symm, ?_, ?_, fun i _ hi => ?_⟩
  · exact (absorbWhole_of_lt (m := []) _ hpos).symm
  · rw [List.length_nil, Nat.zero_mod, rest_of_mod_eq_zero (Nat.zero_mod _)]
    rfl
  · rw [List.length_nil, Nat.zero_mod] at hi
    omega

/-- Whole bytes that are copied behind the bits of the queue. -/
theorem bits_memcpy (q : Vector Byte 192) (d : Ptr) {n p : Nat} (hn : n % 8 = 0) (hp : p % 8 = 0)
    (hle : n + p ≤ 1536) :
    bits (ptr (memcpy q (n / 8) d (p / 8))) (n + p) = bits (ptr q) n ++ bits d p := by
  rw [bits_add _ hn]
  congr 1
  · exact bits_congr fun k hk => by rw [ptr_memcpy, if_neg (by omega)]
  · exact bits_congr fun k hk => by rw [ptr_memcpy, if_pos (by omega), Nat.add_sub_cancel_left]

/-- `AbsorbQueue` on a full queue. -/
theorem absorbQueue_eq {st : SpongeState} (h : st.rate = r.bits) :
    absorbQueue st =
      { st with
        state := keccakPermutation (xorBits st.state (bits (ptr st.dataQueue) r.bits))
        bitsInQueue := 0 } := by
  rw [absorbQueue, h, absorbBlock_eq]

/-- The queueing branch: whole bytes that fit into the queue. -/
theorem Absorbing.bytes {m : List Bool} {st : SpongeState} (h : Absorbing r m st)
    (hm : m.length % 8 = 0) (d : Ptr) {p : Nat} (hp : p % 8 = 0)
    (hle : m.length % r.bits + p ≤ r.bits) :
    Absorbing r (m ++ bits d p) (absorbBytes st d p) := by
  have h8 := r.mod_eight
  have hmax := r.le_max
  have hq : m.length % r.bits % 8 = 0 := by
    rw [Nat.mod_mod_of_dvd _ (Nat.dvd_of_mod_eq_zero h8), hm]
  have hlen : (m ++ bits d p).length = m.length + p := by rw [List.length_append, length_bits]
  have hqueue : bits (ptr (memcpy st.dataQueue (m.length % r.bits / 8) d (p / 8)))
      (m.length % r.bits + p) = rest r.bits m ++ bits d p := by
    rw [bits_memcpy _ _ hq hp (by omega), h.queue]
  have hstate := absorbWhole_rest (f := keccakPermutation) (g := xorBits) r.pos
    keccakInitializeState m (bits d p)
  simp only [absorbBytes, h.bitsInQueue]
  split
  · next hfull =>
    rw [h.rate] at hfull
    have hmod : (m.length + p) % r.bits = 0 := by
      rw [← Nat.mod_add_mod, hfull, Nat.mod_self]
    have hblock : (rest r.bits m ++ bits d p).length = r.bits := by
      rw [List.length_append, length_rest, length_bits, hfull]
    rw [absorbQueue_eq (by exact h.rate)]
    refine ⟨h.rate, h.squeezing, by rw [hlen, hmod], ?_, ?_, fun i _ hi => ?_⟩
    · rw [absorbWhole_block r.pos _ hblock] at hstate
      rw [absorbedState, hstate, ← absorbedState, ← h.state, ← hqueue, hfull]
    · rw [hlen, hmod, rest_of_mod_eq_zero (by rw [hlen, hmod])]
      rfl
    · rw [hlen, hmod] at hi
      omega
  · next hnot =>
    rw [h.rate] at hnot
    have hmod : (m.length + p) % r.bits = m.length % r.bits + p := by
      rw [← Nat.mod_add_mod, Nat.mod_eq_of_lt (by omega)]
    have hlt : m.length % r.bits + (bits d p).length < r.bits := by
      rw [length_bits]
      omega
    refine ⟨h.rate, h.squeezing, by rw [hlen, hmod], ?_, ?_, fun i hi hi' => ?_⟩
    · have hshort : (rest r.bits m ++ bits d p).length < r.bits := by
        rw [List.length_append, length_rest]
        exact hlt
      rw [absorbWhole_of_lt _ hshort] at hstate
      rw [absorbedState, hstate]
      exact h.state
    · rw [hlen, hmod, rest_append_of_lt hlt]
      exact hqueue
    · rw [hlen, hmod] at hi hi'
      omega

/-- The queueing branch: the bits of the last byte, when they do not fill it. -/
theorem Absorbing.partialByte {m : List Bool} {st : SpongeState} (h : Absorbing r m st)
    (hm : m.length % 8 = 0) (last : Byte) {p : Nat} (hp : p < 8) :
    Absorbing r (m ++ bits (fun _ => last) p) (absorbPartialByte st last p) := by
  have h8 := r.mod_eight
  have hmax := r.le_max
  have hlt := Nat.mod_lt m.length r.pos
  have hq : m.length % r.bits % 8 = 0 := by
    rw [Nat.mod_mod_of_dvd _ (Nat.dvd_of_mod_eq_zero h8), hm]
  have hlen : (m ++ bits (fun _ => last) p).length = m.length + p := by
    rw [List.length_append, length_bits]
  have hfit : m.length % r.bits + (bits (fun _ => last) p).length < r.bits := by
    rw [length_bits]
    omega
  have hmod : (m.length + p) % r.bits = m.length % r.bits + p := by
    rw [← Nat.mod_add_mod, Nat.mod_eq_of_lt (by omega)]
  have hstate := absorbWhole_rest (f := keccakPermutation) (g := xorBits) r.pos
    keccakInitializeState m (bits (fun _ => last) p)
  have hshort : (rest r.bits m ++ bits (fun _ => last) p).length < r.bits := by
    rw [List.length_append, length_rest]
    exact hfit
  rw [absorbWhole_of_lt _ hshort] at hstate
  -- the byte that the mask leaves, bit by bit
  have hmask : ∀ i < 8, (last &&& ((1 : Byte) <<< p - 1)).getLsbD i =
      (last.getLsbD i && decide (i < p)) := by
    intro i hi
    rw [BitVec.getLsbD_and, getLsbD_mask p hp i hi]
  simp only [absorbPartialByte, h.bitsInQueue]
  refine ⟨h.rate, h.squeezing, by rw [hlen, hmod], ?_, ?_, fun i hi hi' => ?_⟩
  · rw [absorbedState, hstate]
    exact h.state
  · rw [hlen, hmod, rest_append_of_lt hfit, ← h.queue, bits_add _ hq]
    congr 1
    · exact bits_congr fun k hk => by rw [ptr_setIfInBounds, if_neg (by omega)]
    · refine List.map_congr_left fun i hi => ?_
      have := List.mem_range.1 hi
      rw [show i / 8 = 0 by omega, show i % 8 = i by omega]
      have hget : ptr (st.dataQueue.setIfInBounds (m.length % r.bits / 8)
          (last &&& ((1 : Byte) <<< p - 1))) (m.length % r.bits / 8) =
          last &&& ((1 : Byte) <<< p - 1) := by
        rw [ptr_setIfInBounds, if_pos ⟨rfl, by omega⟩]
      simp only [Nat.add_zero, hget]
      rw [hmask i (by omega), decide_eq_true this, Bool.and_true]
  · rw [hlen, hmod] at hi hi'
    rw [ptr_setIfInBounds, if_pos (by omega), hmask _ (Nat.mod_lt i (by decide)),
      decide_eq_false (by omega), Bool.and_false]

/-- The whole-blocks branch. -/
theorem Absorbing.whole {m : List Bool} {st : SpongeState} (h : Absorbing r m st)
    (hm : m.length % r.bits = 0) (d : Ptr) (n : Nat) :
    Absorbing r (m ++ bits d (n * r.bits)) { st with
      state := (List.range n).foldl (fun s j =>
        absorbBlock r.bits s fun k => d (j * (r.bits / 8) + k)) st.state } := by
  have hlen : (m ++ bits d (n * r.bits)).length % r.bits = 0 := by
    rw [List.length_append, length_bits, Nat.add_mul_mod_self_right, hm]
  refine ⟨h.rate, h.squeezing, by rw [hlen, ← hm]; exact h.bitsInQueue, ?_, ?_, fun i _ hi => ?_⟩
  · rw [foldl_absorbBlock, absorbedState, absorbWhole_append r.pos _ hm, h.state, absorbedState]
  · rw [hlen, rest_of_mod_eq_zero hlen]
    rfl
  · rw [hlen] at hi
    omega

/-- When the loop of `Absorb` comes to its end, with `q` bits in the queue and `left` bits to
absorb: the number of bits left, truncated to 32 bits, has to be all of them or to fill the queue,
and its sum with `q` must not wrap around. -/
def AbsorbReturns (rate q left : Nat) : Prop :=
  q = 0 ∨ (left % 2 ^ 32 + q < 2 ^ 32 ∧ (left < 2 ^ 32 ∨ rate ≤ left % 2 ^ 32 + q))

instance (rate q left : Nat) : Decidable (AbsorbReturns rate q left) :=
  inferInstanceAs (Decidable (_ ∨ _))

/-- The queueing branch takes `n` bits when there is room for them: the rest of the data, or whole
bytes. -/
theorem Absorbing.queueing {m : List Bool} {st : SpongeState} (h : Absorbing r m st)
    (hm : m.length % 8 = 0) (d : Ptr) {n : Nat} (hle : m.length % r.bits + n ≤ r.bits) :
    Absorbing r (m ++ bits d n)
      (if n % 8 > 0 then
        absorbPartialByte (absorbBytes st d (n - n % 8)) (d ((n - n % 8) / 8)) (n % 8)
      else absorbBytes st d (n - n % 8)) := by
  have hwhole := h.bytes hm d (p := n - n % 8) (by omega) (by omega)
  split
  · have hlen : (m ++ bits d (n - n % 8)).length % 8 = 0 := by
      rw [List.length_append, length_bits]
      omega
    have hlast := hwhole.partialByte hlen (d ((n - n % 8) / 8)) (p := n % 8)
      (Nat.mod_lt n (by decide))
    have hsplit : bits d n = bits d (n - n % 8) ++ bits (fun _ => d ((n - n % 8) / 8)) (n % 8) := by
      have hadd := bits_add d (p := n - n % 8) (by omega) (n % 8)
      rw [show n - n % 8 + n % 8 = n by omega] at hadd
      rw [hadd]
      congr 1
      exact bits_congr fun k hk => by rw [show k = 0 by omega, Nat.add_zero]
    rwa [hsplit, ← List.append_assoc]
  · next h0 =>
    rwa [show n - n % 8 = n by omega] at hwhole ⊢

/-- An iteration of the loop of `Absorb` that takes the queueing branch and chooses `left` bits for
which there is room. -/
theorem Absorbing.step_queueing {m : List Bool} {st : SpongeState} (h : Absorbing r m st)
    (hm : m.length % 8 = 0) (d : Ptr) {len i left : Nat} (hi8 : i % 8 = 0)
    (hnot : ¬(st.bitsInQueue = 0 ∧ len ≥ st.rate ∧ i ≤ len - st.rate))
    (hleft : (if ((len - i) % 2 ^ 32 + m.length % r.bits) % 2 ^ 32 > r.bits then
      r.bits - m.length % r.bits else (len - i) % 2 ^ 32) = left)
    (hroom : m.length % r.bits + left ≤ r.bits) :
    ∃ st', absorbStep d len st i = some (st', i + left) ∧
      Absorbing r (m ++ bits (fun k => d (i / 8 + k)) left) st' := by
  have hmax := r.le_max
  refine ⟨_, ?_, h.queueing hm _ hroom⟩
  unfold absorbStep
  rw [if_neg hnot]
  simp only [h.rate, h.bitsInQueue, hleft]
  rw [if_neg (by omega), show i + (left - left % 8) + left % 8 = i + left by omega,
    show (i + (left - left % 8)) / 8 = i / 8 + (left - left % 8) / 8 by omega]
  split
  · rfl
  · rw [show left - left % 8 = left by omega]

/-- One iteration of the loop of `Absorb`. It comes to the end of the data, or it leaves the queue
empty. -/
theorem Absorbing.step {m : List Bool} {st : SpongeState} (h : Absorbing r m st)
    (hm : m.length % 8 = 0) (d : Ptr) {len i : Nat} (hi : i < len) (hi8 : i % 8 = 0)
    (hret : AbsorbReturns r.bits (m.length % r.bits) (len - i)) :
    ∃ st' n, absorbStep d len st i = some (st', i + n) ∧ 0 < n ∧ i + n ≤ len ∧
      Absorbing r (m ++ bits (fun k => d (i / 8 + k)) n) st' ∧
      (i + n = len ∨ n % 8 = 0 ∧ (m.length + n) % r.bits = 0) := by
  have hpos := r.pos
  have hmax := r.le_max
  have h8 := r.mod_eight
  have hlt := Nat.mod_lt m.length r.pos
  have hq : m.length % r.bits % 8 = 0 := by
    rw [Nat.mod_mod_of_dvd _ (Nat.dvd_of_mod_eq_zero h8), hm]
  by_cases hbig : st.bitsInQueue = 0 ∧ len ≥ st.rate ∧ i ≤ len - st.rate
  · -- whole blocks
    have hstep : absorbStep d len st i = some ({ st with
        state := (List.range ((len - i) / r.bits)).foldl (fun s j =>
          absorbBlock r.bits s fun k => d (i / 8 + (j * (r.bits / 8) + k))) st.state },
        i + (len - i) / r.bits * r.bits) := by
      unfold absorbStep
      rw [if_pos hbig, h.rate]
    obtain ⟨h0, h1, h2⟩ := hbig
    rw [h.bitsInQueue] at h0
    rw [h.rate] at h1 h2
    have hdiv := Nat.div_add_mod (len - i) r.bits
    have hmul : r.bits ≤ (len - i) / r.bits * r.bits :=
      Nat.le_mul_of_pos_left _ (Nat.div_pos (by omega) hpos)
    refine ⟨_, (len - i) / r.bits * r.bits, hstep, by omega, ?_, h.whole h0 _ _, Or.inr ⟨?_, ?_⟩⟩
    · rw [Nat.mul_comm]
      omega
    · rw [Nat.mul_mod, h8, Nat.mul_zero, Nat.zero_mod]
    · rw [Nat.add_mul_mod_self_right, h0]
  · have hnot := hbig
    rw [h.bitsInQueue, h.rate] at hbig
    unfold AbsorbReturns at hret
    by_cases hcap : ((len - i) % 2 ^ 32 + m.length % r.bits) % 2 ^ 32 > r.bits
    · -- the queue is filled
      obtain ⟨st', hstep, h'⟩ := h.step_queueing hm d hi8 hnot (if_pos hcap) (by omega)
      refine ⟨st', _, hstep, by omega, by omega, h', Or.inr ⟨by omega, ?_⟩⟩
      rw [← Nat.mod_add_mod, Nat.add_sub_cancel' (by omega), Nat.mod_self]
    · -- everything fits, or it fills the queue exactly
      have hfit : m.length % r.bits + (len - i) % 2 ^ 32 ≤ r.bits := by omega
      obtain ⟨st', hstep, h'⟩ := h.step_queueing hm d hi8 hnot (if_neg hcap) hfit
      refine ⟨st', _, hstep, by omega, by omega, h', ?_⟩
      by_cases hall : len - i < 2 ^ 32
      · left
        omega
      · right
        have hfull : m.length % r.bits + (len - i) % 2 ^ 32 = r.bits := by omega
        refine ⟨by omega, ?_⟩
        rw [← Nat.mod_add_mod, hfull, Nat.mod_self]

/-- The loop of `Absorb` absorbs the rest of the data. -/
theorem Absorbing.loop {m : List Bool} {st : SpongeState} (h : Absorbing r m st) (d : Ptr)
    {len i fuel : Nat} (hi : i ≤ len)
    (hgo : i < len → m.length % 8 = 0 ∧ i % 8 = 0 ∧
      AbsorbReturns r.bits (m.length % r.bits) (len - i)) (hfuel : len - i < fuel) :
    ∃ st', absorbLoop d len fuel st i = some st' ∧
      Absorbing r (m ++ bits (fun k => d (i / 8 + k)) (len - i)) st' := by
  induction fuel generalizing m st i with
  | zero => exact absurd hfuel (Nat.not_lt_zero _)
  | succ fuel ih =>
    rw [absorbLoop]
    split
    · next hlt =>
      obtain ⟨hm, hi8, hret⟩ := hgo hlt
      obtain ⟨st', n, hstep, hn, hle, h', hnext⟩ := h.step hm d hlt hi8 hret
      simp only [hstep]
      have hlen : (m ++ bits (fun k => d (i / 8 + k)) n).length = m.length + n := by
        rw [List.length_append, length_bits]
      -- the next iteration starts at a byte, with an empty queue
      have hgo' : i + n < len → (m ++ bits (fun k => d (i / 8 + k)) n).length % 8 = 0 ∧
          (i + n) % 8 = 0 ∧ AbsorbReturns r.bits
            ((m ++ bits (fun k => d (i / 8 + k)) n).length % r.bits) (len - (i + n)) := by
        intro hlt'
        obtain hend | ⟨hn8, hq⟩ := hnext
        · omega
        · rw [hlen]
          exact ⟨by omega, by omega, Or.inl hq⟩
      obtain ⟨st'', hloop, h''⟩ := ih h' hle hgo' (by omega)
      refine ⟨st'', hloop, ?_⟩
      have hsplit : bits (fun k => d (i / 8 + k)) (len - i) =
          bits (fun k => d (i / 8 + k)) n ++
            bits (fun k => d ((i + n) / 8 + k)) (len - (i + n)) := by
        obtain hend | ⟨hn8, -⟩ := hnext
        · rw [show len - i = n by omega, show len - (i + n) = 0 by omega]
          exact (List.append_nil _).symm
        · rw [show len - i = n + (len - (i + n)) by omega, bits_add _ hn8]
          simp only [← Nat.add_assoc, show (i + n) / 8 = i / 8 + n / 8 by omega]
      rwa [hsplit, ← List.append_assoc]
    · next hge =>
      rw [show len - i = 0 by omega]
      refine ⟨st, rfl, ?_⟩
      rwa [show bits (fun k => d (i / 8 + k)) 0 = [] from rfl, List.append_nil]

/-- `Absorb` on an object that has absorbed whole bytes. -/
theorem Absorbing.absorb {m : List Bool} {st : SpongeState} (h : Absorbing r m st)
    (hm : m.length % 8 = 0) (d : Ptr) {len fuel : Nat}
    (hret : AbsorbReturns r.bits (m.length % r.bits) len) (hfuel : len < fuel) :
    ∃ st', Reference.absorb fuel st d len = some (0, st') ∧ Absorbing r (m ++ bits d len) st' := by
  have hq : st.bitsInQueue % 8 = 0 := by
    rw [h.bitsInQueue, Nat.mod_mod_of_dvd _ (Nat.dvd_of_mod_eq_zero r.mod_eight), hm]
  obtain ⟨st', hloop, h'⟩ := h.loop d (Nat.zero_le len)
    (fun _ => ⟨hm, rfl, hret⟩) hfuel
  simp only [Nat.zero_div, Nat.zero_add] at h'
  refine ⟨st', ?_, h'⟩
  rw [Reference.absorb, if_neg (by omega), h.squeezing, if_neg (by decide), hloop]
  rfl

/-- `Absorb` refuses a call after a partial byte. -/
theorem Absorbing.absorb_of_partialByte {m : List Bool} {st : SpongeState} (h : Absorbing r m st)
    (hm : m.length % 8 ≠ 0) (fuel : Nat) (d : Ptr) (len : Nat) :
    Reference.absorb fuel st d len = some (1, st) := by
  have hq : st.bitsInQueue % 8 ≠ 0 := by
    rwa [h.bitsInQueue, Nat.mod_mod_of_dvd _ (Nat.dvd_of_mod_eq_zero r.mod_eight)]
  rw [Reference.absorb, if_pos hq]

/-! ## Calls of `Absorb` that do not return -/

/-- The loop that comes to its end does so with more iterations allowed. -/
theorem absorbLoop_mono {data : Ptr} {len fuel fuel' i : Nat} {st st' : SpongeState}
    (h : absorbLoop data len fuel st i = some st') (hle : fuel ≤ fuel') :
    absorbLoop data len fuel' st i = some st' := by
  induction fuel generalizing fuel' st i with
  | zero => cases h
  | succ fuel ih =>
    obtain ⟨k, rfl⟩ : ∃ k, fuel' = k + 1 := ⟨fuel' - 1, by omega⟩
    rw [absorbLoop] at h ⊢
    split at h
    · next hlt =>
      rw [if_pos hlt]
      split at h
      · exact ih h (by omega)
      · cases h
    · next hge => rwa [if_neg hge]

theorem absorb_mono {data : Ptr} {len fuel fuel' : Nat} {st : SpongeState}
    {res : Nat × SpongeState} (h : absorb fuel st data len = some res) (hle : fuel ≤ fuel') :
    absorb fuel' st data len = some res := by
  unfold absorb at h ⊢
  split at h
  · next hbit => rwa [if_pos hbit]
  · next hbit =>
    rw [if_neg hbit]
    split at h
    · next hsq => rwa [if_pos hsq]
    · next hsq =>
      obtain ⟨st', hloop, he⟩ := Option.map_eq_some_iff.1 h
      rw [if_neg hsq, absorbLoop_mono hloop hle, Option.map_some, he]

/-- An iteration that finds a multiple of `2^32` bits left and a queue that is not empty takes no
bit, so the loop goes on for ever. -/
theorem Absorbing.loop_stuck {m : List Bool} {st : SpongeState} (h : Absorbing r m st)
    (hq : m.length % r.bits ≠ 0) (d : Ptr) {len i : Nat} (hi : i < len)
    (hleft : (len - i) % 2 ^ 32 = 0) (fuel : Nat) : absorbLoop d len fuel st i = none := by
  have hlt := Nat.mod_lt m.length r.pos
  have hmax := r.le_max
  have hstep : absorbStep d len st i = some (absorbBytes st (fun k => d (i / 8 + k)) 0, i) := by
    unfold absorbStep
    rw [h.bitsInQueue, if_neg fun h' => hq h'.1]
    simp only [hleft, h.rate, Nat.zero_add]
    rw [if_neg (show ¬m.length % r.bits % 2 ^ 32 > r.bits by omega)]
    simp only [Nat.zero_mod, Nat.sub_zero, Nat.zero_div, Nat.add_zero, gt_iff_lt, Nat.lt_irrefl,
      if_false]
    rw [if_neg (by omega)]
  have hsame : absorbBytes st (fun k => d (i / 8 + k)) 0 = st := by
    unfold absorbBytes
    simp only [Nat.add_zero, Nat.zero_div]
    rw [if_neg (by rw [h.bitsInQueue, h.rate]; omega)]
    rfl
  induction fuel with
  | zero => rfl
  | succ fuel ih =>
    rw [absorbLoop, if_pos hi, hstep, hsame]
    exact ih

/-- A call that does not satisfy `AbsorbReturns` never returns: it copies beyond the end of the
queue, or it comes to a multiple of `2^32` bits that it cannot take. -/
theorem Absorbing.absorb_eq_none {m : List Bool} {st : SpongeState} (h : Absorbing r m st)
    (hm : m.length % 8 = 0) (d : Ptr) {len : Nat}
    (hret : ¬AbsorbReturns r.bits (m.length % r.bits) len) (fuel : Nat) :
    Reference.absorb fuel st d len = none := by
  have hlt := Nat.mod_lt m.length r.pos
  have hmax := r.le_max
  have hmin := r.ge_min
  unfold AbsorbReturns at hret
  have hq8 : st.bitsInQueue % 8 = 0 := by
    rw [h.bitsInQueue, Nat.mod_mod_of_dvd _ (Nat.dvd_of_mod_eq_zero r.mod_eight), hm]
  have hq : m.length % r.bits ≠ 0 := fun h0 => hret (Or.inl h0)
  have hnot : ¬(st.bitsInQueue = 0 ∧ len ≥ st.rate ∧ 0 ≤ len - st.rate) := by
    rw [h.bitsInQueue]
    exact fun h' => hq h'.1
  suffices hloop : absorbLoop d len fuel st 0 = none by
    rw [Reference.absorb, if_neg (by omega), h.squeezing, if_neg (by decide), hloop]
    rfl
  cases fuel with
  | zero => rfl
  | succ fuel =>
    rw [absorbLoop, if_pos (by omega)]
    by_cases hwrap : len % 2 ^ 32 + m.length % r.bits < 2 ^ 32
    · -- the bits below the last multiple of `2^32` are taken, and the loop is stuck
      have hcap : ¬((len - 0) % 2 ^ 32 + m.length % r.bits) % 2 ^ 32 > r.bits := by omega
      obtain ⟨st', hstep, h'⟩ := h.step_queueing hm d (Nat.zero_mod 8) hnot
        (if_neg hcap) (by omega)
      have hlen : (m ++ bits (fun k => d (0 / 8 + k)) ((len - 0) % 2 ^ 32)).length % r.bits =
          m.length % r.bits + len % 2 ^ 32 := by
        rw [List.length_append, length_bits, Nat.sub_zero, ← Nat.mod_add_mod,
          Nat.mod_eq_of_lt (by omega)]
      rw [hstep]
      exact h'.loop_stuck (by rw [hlen]; omega) d (by omega) (by omega) fuel
    · -- the sum wraps around, and the copy leaves the queue
      have hstep : absorbStep d len st 0 = none := by
        unfold absorbStep
        rw [if_neg hnot]
        simp only [h.bitsInQueue, h.rate, Nat.sub_zero]
        rw [if_neg (show ¬(len % 2 ^ 32 + m.length % r.bits) % 2 ^ 32 > r.bits by omega),
          if_pos (by omega)]
      rw [hstep]

/-! ## The padding -/

/-- The bits of the bytes that the queue uses. -/
theorem Absorbing.bitAt {m : List Bool} {st : SpongeState} (h : Absorbing r m st) {i : Nat}
    (hi : i < 8 * ((m.length % r.bits + 7) / 8)) :
    Reference.bitAt st.dataQueue i = (rest r.bits m).getD i false := by
  by_cases hlt : i < m.length % r.bits
  · rw [← h.queue, getD_bits _ hlt, Reference.bitAt]
  · rw [List.getD_eq_default _ _ (by rw [length_rest]; omega)]
    exact h.clear i (by omega) hi

/-- An object whose queue has just been filled from the state, in the squeezing phase. -/
structure Filled (r : SpongeRate) (s : ByteState) (st : SpongeState) : Prop where
  rate : st.rate = r.bits
  squeezing : st.squeezing = true
  bitsInQueue : st.bitsInQueue = 0
  state : st.state = s
  queue : ∀ k < r.bits / 8, ptr st.dataQueue k = ptr s k
  available : st.bitsAvailableForSqueezing = r.bits

/-- Both extractions copy the bytes of a block and make all its bits available. -/
theorem extractBlock_eq {st : SpongeState} (h : st.rate = r.bits) :
    extractBlock st =
      { st with
        dataQueue := memcpy st.dataQueue 0 (ptr st.state) (r.bits / 8)
        bitsAvailableForSqueezing := r.bits } := by
  have hlanes := r.lanes
  unfold extractBlock
  rw [h]
  split
  · next h1024 => rw [keccakExtract1024bits, h1024]
  · rw [keccakExtract, show r.bits / 64 * 8 = r.bits / 8 by omega]

theorem extractBlock_filled {st : SpongeState} (hrate : st.rate = r.bits)
    (hq : st.bitsInQueue = 0) :
    Filled r st.state { extractBlock st with squeezing := true } := by
  have hmax := r.le_max
  rw [extractBlock_eq hrate]
  refine ⟨hrate, rfl, hq, rfl, fun k hk => ?_, rfl⟩
  rw [ptr_memcpy, if_pos (by omega), Nat.sub_zero]

/-- The end of `PadAndSwitchToSqueezingPhase`: the last bit of the padding and the last block. -/
theorem filled_lastBlock {st : SpongeState} (hrate : st.rate = r.bits)
    (hs : keccakPermutation (xorBits st.state
      (bits (ptr (setBit st.dataQueue (r.bits - 1))) r.bits)) = s) :
    Filled r s
      { extractBlock (absorbQueue { st with dataQueue := setBit st.dataQueue (st.rate - 1) }) with
        squeezing := true } := by
  generalize hqueue : { st with dataQueue := setBit st.dataQueue (st.rate - 1) } = q
  have hq : q.rate = r.bits := by rw [← hqueue, hrate]
  have habs := absorbQueue_eq hq
  have hend := extractBlock_filled (r := r) (by rw [habs]; exact hq)
    (show (absorbQueue q).bitsInQueue = 0 by rw [habs])
  have hstate : (absorbQueue q).state = s := by rw [habs, ← hs, ← hqueue, hrate]
  rwa [hstate] at hend

/-- `PadAndSwitchToSqueezingPhase` absorbs the padded message, also when the padding needs a block
of its own. -/
theorem Absorbing.padAndSwitch {m : List Bool} {st : SpongeState} (h : Absorbing r m st) :
    Filled r (finalState r m) (padAndSwitchToSqueezingPhase st) := by
  have hmax := r.le_max
  have hmin := r.ge_min
  have h8 := r.mod_eight
  have hlt := Nat.mod_lt m.length r.pos
  have hrest := length_rest r.bits m
  have hfinal := final_rest (f := keccakPermutation) (g := xorBits) r.pos keccakInitializeState m
  unfold padAndSwitchToSqueezingPhase
  by_cases hone : m.length % r.bits + 1 = r.bits
  · -- the first bit of the padding fills the queue
    have hfirst : bits (ptr (setBit st.dataQueue (m.length % r.bits))) r.bits =
        rest r.bits m ++ [true] := by
      refine bits_eq_of_bitAt (by rw [List.length_append, List.length_singleton, hrest, hone])
        fun i hi => ?_
      rw [bitAt_setBit _ (by omega), h.bitAt (by omega), getD_append_true, hrest]
    have hlen : (List.replicate (r.bits - 1) false ++ [true]).length = r.bits := by
      rw [List.length_append, List.length_singleton, List.length_replicate]
      omega
    have hlast : ∀ q : Vector Byte 192,
        bits (ptr (setBit (memzero q 0 (r.bits / 8)) (r.bits - 1))) r.bits =
          List.replicate (r.bits - 1) false ++ [true] := by
      intro q
      refine bits_eq_of_bitAt hlen fun i hi => ?_
      rw [bitAt_setBit _ (by omega), bitAt_memzero, if_pos (by omega), getD_append_true,
        getD_replicate_false, List.length_replicate]
    rw [final_of_add_one_eq (m := rest r.bits m) (by omega) _ (by rw [hrest, hone])] at hfinal
    rw [if_pos (by rw [h.bitsInQueue, h.rate, hone]), h.bitsInQueue,
      absorbQueue_eq (by exact h.rate)]
    refine filled_lastBlock h.rate ?_
    simp only [h.rate]
    rw [hfirst, hlast, h.state, finalState, hfinal, absorbedState]
  · -- there is room for the whole padding
    have hroom : (rest r.bits m).length + 2 ≤ r.bits := by omega
    have hpad : bits (ptr (setBit (setBit (memzero st.dataQueue ((m.length % r.bits + 7) / 8)
        (r.bits / 8 - (m.length % r.bits + 7) / 8)) (m.length % r.bits)) (r.bits - 1))) r.bits =
        pad r.bits (rest r.bits m) := by
      refine bits_eq_of_bitAt (length_pad_of_add_two_le hroom) fun i hi => ?_
      rw [bitAt_setBit _ (by omega), bitAt_setBit _ (by omega), bitAt_memzero,
        getD_pad, length_pad_of_add_two_le hroom, hrest]
      congr 2
      split
      · exact (List.getD_eq_default _ _ (by omega)).symm
      · exact h.bitAt (by omega)
    rw [final_of_add_two_le (m := rest r.bits m) _ hroom] at hfinal
    rw [if_neg (by rw [h.bitsInQueue, h.rate]; exact hone), h.bitsInQueue]
    refine filled_lastBlock h.rate ?_
    simp only [h.rate]
    rw [hpad, h.state, finalState, hfinal, absorbedState]

end ShakeAccel.Reference
