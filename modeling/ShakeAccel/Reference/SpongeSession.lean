import ShakeAccel.Lib.Machine
import ShakeAccel.Reference.SpongeCorrect

/-!
# Sessions of the reference sponge

`Phase` is the sponge over bit strings as a machine: the message absorbed so far, or the padded
message and the number of bits handed out. A sponge object goes through the same phases and gives
the same answers, over every sequence of calls (`runCalls_eq`).
-/

namespace ShakeAccel.Reference

open Vec BitSponge

variable {r : SpongeRate}

/-! ## The squeezing phase -/

/-- The object has handed out `k` bits of the output for `m`, the last of them from block `b`, which
is in the queue. -/
structure Squeezing (r : SpongeRate) (m : List Bool) (b k : Nat) (st : SpongeState) : Prop where
  rate : st.rate = r.bits
  squeezing : st.squeezing = true
  bitsInQueue : st.bitsInQueue = 0
  aligned : k % 8 = 0
  lower : b * r.bits ≤ k
  available : st.bitsAvailableForSqueezing + k = (b + 1) * r.bits
  state : st.state = keccakPermutation^[b] (finalState r m)
  queue : ∀ j < r.bits / 8, ptr st.dataQueue j = ptr st.state j

theorem Filled.squeezing_zero {m : List Bool} {st : SpongeState}
    (h : Filled r (finalState r m) st) : Squeezing r m 0 0 st where
  rate := h.rate
  squeezing := h.squeezing
  bitsInQueue := h.bitsInQueue
  aligned := rfl
  lower := by rw [Nat.zero_mul]
  available := by rw [h.available, Nat.zero_add, Nat.one_mul, Nat.add_zero]
  state := h.state
  queue := by rw [h.state]; exact h.queue

/-- A byte of the queue that has not been handed out is the next byte of the output. -/
theorem Squeezing.outputByte {m : List Bool} {b k : Nat} {st : SpongeState}
    (h : Squeezing r m b k st) {j : Nat} (hj : 8 * j + 8 ≤ st.bitsAvailableForSqueezing) :
    ptr st.dataQueue ((st.rate - st.bitsAvailableForSqueezing) / 8 + j) =
      Bits.ofBits 8 fun t => outputBit r m (k + 8 * j + t) := by
  have h8 := r.mod_eight
  have hav := h.available
  have hlow := h.lower
  have hk := h.aligned
  have hmul : b * r.bits % 8 = 0 := by rw [Nat.mul_mod, h8, Nat.mul_zero, Nat.zero_mod]
  rw [Nat.add_mul, Nat.one_mul] at hav
  obtain ⟨x, rfl⟩ := Nat.exists_eq_add_of_le hlow
  rw [h.rate, show r.bits - st.bitsAvailableForSqueezing = x by omega,
    h.queue (x / 8 + j) (by omega)]
  apply BitVec.eq_of_getLsbD_eq
  intro t ht
  rw [Bits.getLsbD_ofBits, decide_eq_true ht, Bool.true_and, outputBit,
    show b * r.bits + x + 8 * j + t = b * r.bits + (x + 8 * j + t) by omega,
    Sponge.stream_add_mul _ _ r.pos, Sponge.stream_of_lt _ _ _ (by omega), ← h.state, bitAt,
    show (x + 8 * j + t) / 8 = x / 8 + j by omega, show (x + 8 * j + t) % 8 = t by omega]

/-- The next block is extracted when the queue has been handed out. -/
theorem Squeezing.refill {m : List Bool} {b k : Nat} {st : SpongeState} (h : Squeezing r m b k st)
    (h0 : st.bitsAvailableForSqueezing = 0) :
    Squeezing r m (b + 1) k (extractBlock { st with state := keccakPermutation st.state }) := by
  have hmax := r.le_max
  have hav := h.available
  rw [h0, Nat.zero_add] at hav
  rw [extractBlock_eq (by exact h.rate)]
  refine ⟨h.rate, h.squeezing, h.bitsInQueue, h.aligned, Nat.le_of_eq hav.symm, ?_, ?_,
    fun j hj => ?_⟩
  · rw [hav, Nat.add_mul (b + 1), Nat.one_mul, Nat.add_comm]
  · rw [Function.iterate_succ_apply', ← h.state]
  · rw [ptr_memcpy, if_pos (by omega), Nat.sub_zero]

/-- Handing out whole bytes of the queue. -/
theorem Squeezing.advance {m : List Bool} {b k p : Nat} {st : SpongeState}
    (h : Squeezing r m b k st) (hp : p % 8 = 0) (hle : p ≤ st.bitsAvailableForSqueezing) :
    Squeezing r m b (k + p)
      { st with bitsAvailableForSqueezing := st.bitsAvailableForSqueezing - p } where
  rate := h.rate
  squeezing := h.squeezing
  bitsInQueue := h.bitsInQueue
  aligned := by
    have := h.aligned
    omega
  lower := Nat.le_trans h.lower (Nat.le_add_right k p)
  available := by
    have := h.available
    simp only
    omega
  state := h.state
  queue := h.queue

theorem outputBytes_add (r : SpongeRate) (m : List Bool) (k : Nat) {p : Nat} (hp : p % 8 = 0)
    (n : Nat) : outputBytes r m k (p + n) = outputBytes r m k p ++ outputBytes r m (k + p) n := by
  rw [outputBytes, outputBytes, outputBytes, show (p + n) / 8 = p / 8 + n / 8 by omega,
    List.range_add, List.map_append, List.map_map]
  congr 1
  refine List.map_congr_left fun j _ => ?_
  rw [Function.comp_apply, show k + 8 * (p / 8 + j) = k + p + 8 * j by omega]

/-- The loop of `Squeeze` hands out the next bits of the output. -/
theorem Squeezing.loop {m : List Bool} {b k : Nat} {st : SpongeState} (h : Squeezing r m b k st)
    {len i fuel : Nat} (hlen : len % 8 = 0) (hi8 : i % 8 = 0) (hi : i ≤ len)
    (hfuel : len - i < fuel) :
    ∃ b' st', squeezeLoop len fuel st i = some (outputBytes r m k (len - i), st') ∧
      Squeezing r m b' (k + (len - i)) st' := by
  induction fuel generalizing b k st i with
  | zero => exact absurd hfuel (Nat.not_lt_zero _)
  | succ fuel ih =>
    rw [squeezeLoop]
    split
    · next hlt =>
      -- the block from which this iteration hands out bytes
      obtain ⟨b₁, st₁, hst₁, h₁, hpos⟩ : ∃ b₁ st₁,
          (if st.bitsAvailableForSqueezing = 0 then
            extractBlock { st with state := keccakPermutation st.state } else st) = st₁ ∧
          Squeezing r m b₁ k st₁ ∧ 0 < st₁.bitsAvailableForSqueezing := by
        split
        · next h0 =>
          refine ⟨b + 1, _, rfl, h.refill h0, ?_⟩
          rw [extractBlock_eq (by exact h.rate)]
          exact r.pos
        · next h0 => exact ⟨b, st, rfl, h, Nat.pos_of_ne_zero h0⟩
      simp only [hst₁]
      have h8 := r.mod_eight
      have hav8 : st₁.bitsAvailableForSqueezing % 8 = 0 := by
        have hk := h₁.aligned
        have hav := congrArg (· % 8) h₁.available
        simp only [Nat.mul_mod _ r.bits, h8, Nat.mul_zero, Nat.zero_mod] at hav
        omega
      generalize hp : (if st₁.bitsAvailableForSqueezing > len - i then len - i
        else st₁.bitsAvailableForSqueezing) = p
      have hp' : p ≤ st₁.bitsAvailableForSqueezing ∧ p ≤ len - i ∧ 0 < p ∧ p % 8 = 0 := by
        split at hp <;> omega
      obtain ⟨hle, hlen', hp0, hp8⟩ := hp'
      obtain ⟨b', st', hloop, h'⟩ := ih (h₁.advance hp8 hle) (i := i + p) (by omega) (by omega)
        (by omega)
      have hsplit : len - i = p + (len - (i + p)) := by omega
      refine ⟨b', st', ?_, by rwa [hsplit, ← Nat.add_assoc]⟩
      rw [hloop, hsplit, outputBytes_add r m k hp8]
      refine congrArg some (Prod.ext (congrArg (· ++ _) ?_) rfl)
      refine List.map_congr_left fun j hj => ?_
      have := List.mem_range.1 hj
      exact h₁.outputByte (by omega)
    · next hge =>
      rw [show len - i = 0 by omega]
      exact ⟨b, st, rfl, h⟩

/-! ## Calls -/

/-- A call of a sponge object. -/
inductive Call where
  | absorb (data : Ptr) (databitlen : Nat)
  | squeeze (outputLength : Nat)

/-- What a call answers: the value it returns and the bytes it writes. -/
abbrev Answer := Nat × List Byte

/-- A call of the code. -/
def call (fuel : Nat) (st : SpongeState) : Call → Option (Answer × SpongeState)
  | .absorb data databitlen => (absorb fuel st data databitlen).map fun r => ((r.1, []), r.2)
  | .squeeze outputLength => (squeeze fuel st outputLength).map fun r => ((r.1, r.2.1), r.2.2)

/-- A sequence of calls of the code. -/
def runCalls (fuel : Nat) : SpongeState → List Call → Option (List Answer × SpongeState)
  | st, [] => some ([], st)
  | st, c :: cs =>
    match call fuel st c with
    | none => none
    | some (a, st) => (runCalls fuel st cs).map fun r => (a :: r.1, r.2)

/-- The phases of a sponge over bit strings: absorbing, with the message so far, and squeezing, with
the whole message and the number of bits handed out. -/
inductive Phase where
  | absorbing (m : List Bool)
  | squeezing (m : List Bool) (k : Nat)

/-- The phase after a call. Bits are absorbed behind whole bytes only; `Squeeze` ends the absorbing
phase even when it refuses the length. -/
def Phase.next : Phase → Call → Phase
  | .absorbing m, .absorb d n => .absorbing (if m.length % 8 = 0 then m ++ bits d n else m)
  | .squeezing m k, .absorb _ _ => .squeezing m k
  | .absorbing m, .squeeze n => .squeezing m (if n % 8 = 0 then n else 0)
  | .squeezing m k, .squeeze n => .squeezing m (if n % 8 = 0 then k + n else k)

/-- What a call answers in a phase. -/
def Phase.answer (r : SpongeRate) : Phase → Call → Answer
  | .absorbing m, .absorb _ _ => (if m.length % 8 = 0 then 0 else 1, [])
  | .squeezing _ _, .absorb _ _ => (1, [])
  | .absorbing m, .squeeze n => if n % 8 = 0 then (0, outputBytes r m 0 n) else (1, [])
  | .squeezing m k, .squeeze n => if n % 8 = 0 then (0, outputBytes r m k n) else (1, [])

/-- The calls that return: every call but an `Absorb` of `2^32` bits or more, or close to it, on a
queue that is not empty. -/
def Phase.Returns (r : SpongeRate) : Phase → Call → Prop
  | .absorbing m, .absorb _ n => m.length % 8 = 0 → AbsorbReturns r.bits (m.length % r.bits) n
  | _, _ => True

section
variable {m : List Bool} {k n : Nat} {d : Ptr}

theorem Phase.answer_absorb (h : m.length % 8 = 0) :
    Phase.answer r (.absorbing m) (.absorb d n) = (0, []) := by
  rw [Phase.answer, if_pos h]

theorem Phase.next_absorb (h : m.length % 8 = 0) :
    Phase.next (.absorbing m) (.absorb d n) = .absorbing (m ++ bits d n) := by
  rw [Phase.next, if_pos h]

theorem Phase.answer_squeeze (h : n % 8 = 0) :
    Phase.answer r (.squeezing m k) (.squeeze n) = (0, outputBytes r m k n) := by
  rw [Phase.answer, if_pos h]

theorem Phase.next_squeeze (h : n % 8 = 0) :
    Phase.next (.squeezing m k) (.squeeze n) = .squeezing m (k + n) := by
  rw [Phase.next, if_pos h]

/-- `Squeeze` in the absorbing phase is `Squeeze` after the padding. -/
theorem Phase.answer_absorbing_squeeze :
    Phase.answer r (.absorbing m) (.squeeze n) = Phase.answer r (.squeezing m 0) (.squeeze n) :=
  rfl

theorem Phase.next_absorbing_squeeze :
    Phase.next (.absorbing m) (.squeeze n) = Phase.next (.squeezing m 0) (.squeeze n) := by
  rw [Phase.next, Phase.next, Nat.zero_add]

end

/-- A number of iterations that is enough for a call. -/
def Call.cost : Call → Nat
  | .absorb _ n => n + 1
  | .squeeze n => n + 1

/-- The object is in a phase. -/
def Represents (r : SpongeRate) : Phase → SpongeState → Prop
  | .absorbing m, st => Absorbing r m st
  | .squeezing m k, st => ∃ b, Squeezing r m b k st

/-- `Squeeze` on an object in the squeezing phase. -/
theorem Squeezing.squeeze {m : List Bool} {b k : Nat} {st : SpongeState} (h : Squeezing r m b k st)
    {n fuel : Nat} (hfuel : n < fuel) :
    ∃ st', (if n % 8 ≠ 0 then some (1, [], st)
        else (squeezeLoop n fuel st 0).map fun r => (0, r)) =
        some ((Phase.answer r (.squeezing m k) (.squeeze n)).1,
          (Phase.answer r (.squeezing m k) (.squeeze n)).2, st') ∧
      Represents r (Phase.next (.squeezing m k) (.squeeze n)) st' := by
  simp only [Phase.answer, Phase.next, Represents]
  by_cases hn : n % 8 = 0
  · obtain ⟨b', st', hloop, h'⟩ := h.loop hn (i := 0) rfl (Nat.zero_le n) hfuel
    refine ⟨st', ?_, b', ?_⟩
    · rw [if_neg (not_not.2 hn), hloop, if_pos hn]
      rfl
    · rwa [if_pos hn]
  · refine ⟨st, ?_, b, ?_⟩
    · rw [if_pos hn, if_neg hn]
    · rwa [if_neg hn]

/-- A call that returns gives the answer of the phase and takes the object to the next phase. -/
theorem Represents.call {p : Phase} {st : SpongeState} (h : Represents r p st) {c : Call}
    (hc : p.Returns r c) {fuel : Nat} (hfuel : c.cost ≤ fuel) :
    ∃ st', call fuel st c = some (p.answer r c, st') ∧ Represents r (p.next c) st' := by
  cases c with
  | absorb d n =>
    cases p with
    | absorbing m =>
      simp only [Phase.answer, Phase.next]
      by_cases hm : m.length % 8 = 0
      · obtain ⟨st', habs, h'⟩ := Absorbing.absorb h hm d (hc hm) hfuel
        refine ⟨st', ?_, ?_⟩
        · rw [Reference.call, habs, if_pos hm]
          rfl
        · rwa [if_pos hm]
      · refine ⟨st, ?_, ?_⟩
        · rw [Reference.call, Absorbing.absorb_of_partialByte h hm, if_neg hm]
          rfl
        · rwa [if_neg hm]
    | squeezing m k =>
      obtain ⟨b, h⟩ := h
      refine ⟨st, ?_, b, h⟩
      rw [Reference.call, absorb, h.bitsInQueue, if_neg (by decide), h.squeezing, if_pos rfl]
      rfl
  | squeeze n =>
    cases p with
    | absorbing m =>
      obtain ⟨st', hsq, h'⟩ := (Absorbing.padAndSwitch h).squeezing_zero.squeeze (n := n) hfuel
      refine ⟨st', ?_, by rwa [Phase.next_absorbing_squeeze]⟩
      have hpad : (if st.squeezing then st else padAndSwitchToSqueezingPhase st) =
          padAndSwitchToSqueezingPhase st := by
        rw [Absorbing.squeezing h]
        rfl
      simp only [Reference.call, squeeze, hpad, hsq]
      rfl
    | squeezing m k =>
      obtain ⟨b, h⟩ := h
      obtain ⟨st', hsq, h'⟩ := h.squeeze (n := n) hfuel
      refine ⟨st', ?_, h'⟩
      have hpad : (if st.squeezing then st else padAndSwitchToSqueezingPhase st) = st := by
        rw [h.squeezing]
        rfl
      simp only [Reference.call, squeeze, hpad, hsq]
      rfl

/-- A sequence of calls that return gives the answers of the phases. -/
theorem Represents.runCalls {p : Phase} {st : SpongeState} (h : Represents r p st)
    {cs : List Call} (hcs : Machine.Along Phase.next (Phase.Returns r) p cs) {fuel : Nat}
    (hfuel : ∀ c ∈ cs, c.cost ≤ fuel) :
    ∃ st', runCalls fuel st cs =
        some (Machine.collect Phase.next (fun p c => [p.answer r c]) p cs, st') ∧
      Represents r (Machine.run Phase.next p cs) st' := by
  induction cs generalizing p st with
  | nil => exact ⟨st, rfl, h⟩
  | cons c cs ih =>
    obtain ⟨st₁, hcall, h₁⟩ := h.call hcs.1 (hfuel c (.head _))
    obtain ⟨st₂, hrun, h₂⟩ := ih h₁ hcs.2 fun c' hc' => hfuel c' (.tail _ hc')
    refine ⟨st₂, ?_, h₂⟩
    rw [Reference.runCalls, hcall]
    simp only [hrun]
    rfl

/-! ## Main results -/

/-- **The reference sponge is the bit-string sponge over every session.** After `InitSponge`, every
sequence of calls is answered as the phases say: calls that are refused, calls after the padding and
calls of any length included, as long as every `Absorb` of the sequence returns. -/
theorem spongeSession_refines (r : SpongeRate) (st : SpongeState) (cs : List Call)
    (hcs : Machine.Along Phase.next (Phase.Returns r) (.absorbing []) cs) (fuel : Nat)
    (hfuel : ∀ c ∈ cs, c.cost ≤ fuel) :
    ∃ st', runCalls fuel (initSponge st r.bits (1600 - r.bits)).2 cs =
        some (Machine.collect Phase.next (fun p c => [p.answer r c]) (.absorbing []) cs, st') ∧
      Represents r (Machine.run Phase.next (.absorbing []) cs) st' :=
  Represents.runCalls (p := .absorbing []) (initSponge_absorbing r st) hcs hfuel

/-- An object before `InitSponge`. -/
def uninitialised : SpongeState :=
  ⟨.replicate 200 0xA5, .replicate 192 0x5A, 7, 7, 7, 7, true, 7⟩

/-- The rate of SHAKE128. -/
def rate1344 : SpongeRate := ⟨1344, by decide, by decide, by decide⟩

/-- Twelve bits, a refused byte, two bytes of output, a refused length, a late byte. -/
theorem spongeSession_refines_partialByte :
    ∃ st', runCalls 17 (initSponge uninitialised 1344 256).2
        [.absorb (fun _ => 0x35) 12, .absorb (fun _ => 0x35) 8, .squeeze 16, .squeeze 5,
          .absorb (fun _ => 0x35) 8] =
        some ([(0, []), (1, []), (0, outputBytes rate1344 (bits (fun _ => 0x35) 12) 0 16), (1, []),
          (1, [])], st') ∧
      Represents rate1344 (.squeezing (bits (fun _ => 0x35) 12) 16) st' :=
  spongeSession_refines rate1344 uninitialised
    [.absorb (fun _ => 0x35) 12, .absorb (fun _ => 0x35) 8, .squeeze 16, .squeeze 5,
      .absorb (fun _ => 0x35) 8]
    ⟨fun _ => by decide, fun h => absurd h (by decide), trivial, trivial, trivial, trivial⟩ 17
    (by simp [Call.cost])

/-- **Exactly when `Absorb` returns.** On an object that has absorbed whole bytes a call of `Absorb`
comes to its end if and only if the queue is empty, or the number of bits, truncated to 32 bits and
added to the bits in the queue, does not wrap around and leaves nothing to a later iteration that
would find a multiple of `2^32` bits. -/
theorem absorb_returns_iff {m : List Bool} {st : SpongeState} (h : Absorbing r m st)
    (hm : m.length % 8 = 0) (d : Ptr) (len : Nat) :
    (∃ fuel, (absorb fuel st d len).isSome) ↔ AbsorbReturns r.bits (m.length % r.bits) len := by
  constructor
  · rintro ⟨fuel, hsome⟩
    by_contra hret
    rw [h.absorb_eq_none hm d hret fuel] at hsome
    exact absurd hsome (by decide)
  · intro hret
    obtain ⟨st', habs, -⟩ := h.absorb hm d hret (Nat.lt_succ_self len)
    exact ⟨len + 1, by rw [habs]; rfl⟩

/-- After one byte, `2^32` bits more are never absorbed. -/
theorem absorb_returns_iff_wrap : ∃ st, Absorbing rate1344 (bits (fun _ => 0x35) 8) st ∧
    ¬∃ fuel, (absorb fuel st (fun _ => 0) (2 ^ 32)).isSome := by
  obtain ⟨st, -, h⟩ := (initSponge_absorbing rate1344 uninitialised).absorb (Nat.zero_mod 8)
    (fun _ => 0x35) (Or.inl (Nat.zero_mod _)) (show 8 < 9 by decide)
  rw [List.nil_append] at h
  refine ⟨st, h, fun hsome => ?_⟩
  have hret := (absorb_returns_iff h (by decide) (fun _ => 0) (2 ^ 32)).1 hsome
  rw [length_bits] at hret
  exact absurd hret (by decide)

end ShakeAccel.Reference
