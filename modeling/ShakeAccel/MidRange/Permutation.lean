import ShakeAccel.MidRange.Core

/-!
# The permutation on the mid-range core

The register after `t` cycles from `go` is a function of `t` and of the state at `go` (`At`): round
`t / 33` and block `t % 33`, the last 32 cycles apart. While a round moves through the register its
low part still holds the state before, its high part the state after theta.
-/

namespace ShakeAccel.MidRange

/-! ## The states between the phases -/

/-- What theta of round `r` is applied to: the last round's chi and iota come first. -/
def preTheta (r : Nat) (S : KState) : KState :=
  if r = 0 then S else iotaOut (ShakeAccel.chiOut S) (keccakRoundConstantsGen (r - 1))

/-- The register at the start of round `r`. -/
def atRound (S : KState) : Nat → KState
  | 0 => S
  | r + 1 => rhoPiOut (thetaOut (preTheta r (atRound S r)))

/-- Chi and iota of the round before complete the rounds of the netlist. -/
theorem preTheta_atRound (S : KState) (r : Nat) : preTheta r (atRound S r) = applyRounds r S := by
  induction r with
  | zero => rfl
  | succ r ih =>
    rw [preTheta, if_neg (Nat.succ_ne_zero r), atRound, ih, applyRounds_succ, keccakRound, rhoPiOut,
      Nat.add_sub_cancel]

/-! ## A block of slices -/

/-- A register that a block-wise pass has moved by `j` blocks: `new` enters while `old` leaves. -/
structure Moved (reg old new : KState) (j : Nat) : Prop where
  low : ∀ y < 5, ∀ x < 5, ∀ k, k + 2 * j < 64 → reg.bit y x k = old.bit y x (k + 2 * j)
  high : ∀ y < 5, ∀ x < 5, ∀ k, k < 2 * j → reg.bit y x (64 - 2 * j + k) = new.bit y x k

theorem moved_zero (S new : KState) : Moved S S new 0 :=
  ⟨fun _ _ _ _ _ _ => rfl, fun _ _ _ _ k hk => absurd hk (Nat.not_lt_zero k)⟩

/-- After 32 blocks the register holds the new state. -/
theorem Moved.eq {reg old new : KState} (h : Moved reg old new 32) : reg = new := by
  refine KState.ext_lane fun y hy x hx => KState.lane_eq_of_bits fun i hi => ?_
  have := h.high y hy x hx i hi
  rwa [Nat.mul_comm, show 64 - 32 * 2 + i = i by omega] at this

/-- A block whose bits are those of the new state. -/
theorem Moved.shift {reg old new : KState} {j : Nat} (h : Moved reg old new j) (hj : j < 32)
    {s : SubState} (hs : ∀ y < 5, ∀ x < 5, ∀ i < 2, s y x i = new.bit y x (i + 2 * j)) :
    Moved (Core.shiftBlock reg s) old new (j + 1) := by
  constructor
  · intro y hy x hx k hk
    rw [Core.shiftBlock, KState.bit_ofBits hy hx (by omega), if_pos (by omega),
      h.low y hy x hx _ (by omega), show k + 2 + 2 * j = k + 2 * (j + 1) by omega]
  · intro y hy x hx k hk
    rw [Core.shiftBlock, KState.bit_ofBits hy hx (by omega)]
    by_cases hlt : k < 2 * j
    · rw [if_pos (by omega), ← h.high y hy x hx k hlt,
        show 64 - 2 * (j + 1) + k + 2 = 64 - 2 * j + k by omega]
    · rw [if_neg (by omega), hs y hy x hx _ (by omega),
        show 64 - 2 * (j + 1) + k - 62 + 2 * j = k by omega]

/-- A block of round `r` is at the computational block: block `j` of the state `S`, with the parity
of the slice before it. -/
structure AtBlock (r j : Nat) (S : KState) (c : Core) : Prop where
  round : c.counterNrRounds = r
  block : c.counterBlock = j
  first : c.firstRound = decide (r = 0)
  slices : ∀ y < 5, ∀ x < 5, ∀ i < 2, c.regData.bit y x i = S.bit y x (i + 2 * j)

namespace AtBlock

variable {r j : Nat} {S : KState} {c : Core}

theorem roundConstant (h : AtBlock r j S c) (hj : j < 32) (i : Nat) :
    c.roundConstantSignalSub i = (roundConstantsGen r).getLsbD (i + 2 * j) := by
  rw [Core.roundConstantSignalSub, Core.roundConstantSignal, h.round, h.block]
  split
  · rfl
  · rw [show j = 31 by omega]

/-- Chi works on each slice by itself. -/
theorem chiOut (h : AtBlock r j S c) (hj : j < 32) {y x i : Nat} (hy : y < 5) (hx : x < 5)
    (hi : i < 2) : c.chiIotaTheta.chiOut y x i = (ShakeAccel.chiOut S).bit y x (i + 2 * j) := by
  have hs : ∀ x < 5, c.chiIotaTheta.chiInp y x i = S.bit y x (i + 2 * j) :=
    fun x hx => h.slices y hy x hx i hi
  rw [ShakeAccel.chiOut, KState.bit_ofBits hy hx (by omega), ChiIotaTheta.chiOut]
  split
  · rw [hs x hx, hs _ (by omega), hs _ (by omega)]
  · rw [hs 3 (by decide), hs 4 (by decide), hs 0 (by decide), hs 1 (by decide)]

/-- So does iota. -/
theorem iotaOutp (h : AtBlock r j S c) (hr : r ≠ 0) (hj : j < 32) {y x i : Nat} (hy : y < 5)
    (hx : x < 5) (hi : i < 2) :
    c.chiIotaTheta.iotaOutp y x i = (preTheta r S).bit y x (i + 2 * j) := by
  have hrc : c.chiIotaTheta.roundConstantSignal i =
      (keccakRoundConstantsGen (r - 1)).getLsbD (i + 2 * j) := by
    have := h.roundConstant hj i
    rwa [roundConstantsGen, if_neg hr] at this
  rw [preTheta, if_neg hr, iotaOut, KState.bit_ofBits hy hx (by omega), ChiIotaTheta.iotaOutp,
    h.chiOut hj hy hx hi, h.chiOut hj (by decide) (by decide) hi, hrc]

/-- What theta is applied to. -/
theorem thetaIn (h : AtBlock r j S c) (hj : j < 32) {y x i : Nat} (hy : y < 5) (hx : x < 5)
    (hi : i < 2) : c.chiIotaTheta.thetaIn y x i = (preTheta r S).bit y x (i + 2 * j) := by
  have hf : c.chiIotaTheta.firstRound = decide (r = 0) := h.first
  rw [ChiIotaTheta.thetaIn, hf]
  by_cases hr : r = 0
  · rw [decide_eq_true hr, if_pos rfl, preTheta, if_pos hr]
    exact h.slices y hy x hx i hi
  · rw [decide_eq_false hr, if_neg Bool.false_ne_true, h.iotaOutp hr hj hy hx hi]

theorem sumSheet (h : AtBlock r j S c) (hj : j < 32) {x i : Nat} (hx : x < 5) (hi : i < 2) :
    c.chiIotaTheta.sumSheet x i = ShakeAccel.sumSheet (preTheta r S) x (i + 2 * j) := by
  rw [ChiIotaTheta.sumSheet, ShakeAccel.sumSheet, h.thetaIn hj (by decide) hx hi,
    h.thetaIn hj (by decide) hx hi, h.thetaIn hj (by decide) hx hi,
    h.thetaIn hj (by decide) hx hi, h.thetaIn hj (by decide) hx hi]

/-- Theta, given the parity of the slice before the block. -/
theorem thetaOutp (h : AtBlock r j S c) (hj : j < 32)
    (hpar : ∀ x < 5, c.chiIotaTheta.thetaParity x =
      ShakeAccel.sumSheet (preTheta r S) x (if j = 0 then 63 else 2 * j - 1))
    {y x i : Nat} (hy : y < 5) (hx : x < 5) (hi : i < 2) :
    c.chiIotaTheta.thetaOutp y x i = (thetaOut (preTheta r S)).bit y x (i + 2 * j) := by
  have hleft : (if x = 0 then 4 else x - 1) < 5 := by split <;> omega
  have hright : (if x = 4 then 0 else x + 1) < 5 := by split <;> omega
  rw [thetaOut, KState.bit_ofBits hy hx (by omega), ChiIotaTheta.thetaOutp]
  obtain rfl | rfl : i = 0 ∨ i = 1 := by omega
  · simp only [if_pos, h.thetaIn hj hy hx (show 0 < 2 by decide),
      h.sumSheet hj hleft (show 0 < 2 by decide), hpar _ hright]
    by_cases h0 : j = 0
    · subst h0
      rfl
    · rw [if_neg h0, if_neg (show ¬(0 + 2 * j = 0) by omega),
        show 0 + 2 * j - 1 = 2 * j - 1 by omega]
  · have h1 : ¬(1 + 2 * j = 0) := by omega
    simp only [if_neg Nat.one_ne_zero, if_neg h1, h.thetaIn hj hy hx (show 1 < 2 by decide),
      h.sumSheet hj hleft (show 1 < 2 by decide), h.sumSheet hj hright (show 1 - 1 < 2 by decide)]
    rw [show 1 - 1 + 2 * j = 1 + 2 * j - 1 by omega]

/-- The parity of slice 63, which is still in the register at the first block. -/
theorem thetaParity_first (h : AtBlock r 0 S c) (hblock : c.firstBlock = true)
    (h63 : ∀ y < 5, ∀ x < 5, c.regData.bit y x 63 = S.bit y x 63) {x : Nat} (hx : x < 5) :
    c.chiIotaTheta.thetaParity x = ShakeAccel.sumSheet (preTheta r S) x 63 := by
  have hf : c.chiIotaTheta.firstRound = decide (r = 0) := h.first
  have hb : c.chiIotaTheta.firstBlock = true := hblock
  have hs : ∀ y < 5, ∀ x < 5, c.chiIotaTheta.kSliceThetaPIn y x = S.bit y x 63 := h63
  rw [ChiIotaTheta.thetaParity, hf, hb, Bool.and_true, ShakeAccel.sumSheet]
  by_cases hr : r = 0
  · rw [decide_eq_true hr, if_pos rfl, preTheta, if_pos hr, ChiIotaTheta.thetaParityFirstRound]
    simp only [hs _ (show 0 < 5 by decide) x hx, hs _ (show 1 < 5 by decide) x hx,
      hs _ (show 2 < 5 by decide) x hx, hs _ (show 3 < 5 by decide) x hx,
      hs _ (show 4 < 5 by decide) x hx]
  · have hchi : ∀ y < 5, c.chiIotaTheta.chiOutForThetaP y x = (ShakeAccel.chiOut S).bit y x 63 := by
      intro y hy
      rw [ShakeAccel.chiOut, KState.bit_ofBits hy hx (by decide), ChiIotaTheta.chiOutForThetaP]
      split
      · rw [hs y hy x hx, hs y hy _ (by omega), hs y hy _ (by omega)]
      · rw [hs y hy 3 (by decide), hs y hy 4 (by decide), hs y hy 0 (by decide),
          hs y hy 1 (by decide)]
    have hrc : c.chiIotaTheta.thetaParityBitIotaInp =
        (keccakRoundConstantsGen (r - 1)).getLsbD 63 := by
      change (roundConstantsGen c.counterNrRounds).getLsbD 63 = _
      rw [h.round, roundConstantsGen, if_neg hr]
    have hiota : ∀ y < 5, (preTheta r S).bit y x 63 =
        if y = 0 ∧ x = 0 then (ShakeAccel.chiOut S).bit 0 0 63 ^^
          (keccakRoundConstantsGen (r - 1)).getLsbD 63
        else (ShakeAccel.chiOut S).bit y x 63 := by
      intro y hy
      rw [preTheta, if_neg hr, iotaOut, KState.bit_ofBits hy hx (by decide)]
    rw [decide_eq_false hr, if_neg Bool.false_ne_true, if_pos rfl, ChiIotaTheta.thetaParityAfterChi]
    simp only [hchi _ (show 0 < 5 by decide), hchi _ (show 1 < 5 by decide),
      hchi _ (show 2 < 5 by decide), hchi _ (show 3 < 5 by decide), hchi _ (show 4 < 5 by decide),
      hrc, hiota _ (show 0 < 5 by decide), hiota _ (show 1 < 5 by decide),
      hiota _ (show 2 < 5 by decide), hiota _ (show 3 < 5 by decide),
      hiota _ (show 4 < 5 by decide)]
    by_cases h0 : x = 0
    · subst h0
      simp [Bool.xor_comm, Bool.xor_left_comm]
    · simp [h0]

end AtBlock

/-! ## The schedule -/

/-- The inputs of a cycle in which nothing is asked of the core. -/
def CoreIn.Quiet (i : CoreIn) : Prop :=
  i.init = false ∧ i.go = false ∧ i.absorb = false ∧ i.squeeze = false

/-- The core at block `j` of theta of round `r`, when the state of the round was `S`; at `j = 32` it
is before rho and pi. -/
structure InRound (S : KState) (r j : Nat) (c : Core) : Prop where
  running : c.permutationComputed = false
  round : c.counterNrRounds = r
  block : c.counterBlock = j
  firstRound : c.firstRound = decide (r = 0)
  firstBlock : c.firstBlock = decide (j = 0)
  moved : Moved c.regData S (thetaOut (preTheta r S)) j
  parity : 0 < j → ∀ x < 5, c.thetaParityReg.getLsbD x =
    sumSheet (preTheta r S) x (2 * j - 1)

/-- The core at block `j` of the last part. -/
structure InLast (S : KState) (j : Nat) (c : Core) : Prop where
  running : c.permutationComputed = false
  round : c.counterNrRounds = 24
  block : c.counterBlock = j
  firstRound : c.firstRound = false
  moved : Moved c.regData S (preTheta 24 S) j

/-- A quiet cycle of a running core. -/
theorem step_running {c : Core} (h : c.permutationComputed = false) {i : CoreIn} (hi : i.Quiet) :
    c.step i = c.permute { c with
      tmp := 0
      thetaParityReg := Bits.ofBits 5 c.chiIotaTheta.thetaParityOutp } := by
  obtain ⟨h1, h2, h3, h4⟩ := hi
  simp [Core.step, h1, h2, h3, h4, h]

/-- The slices at the bottom of the register. -/
theorem Moved.slices {reg old new : KState} {j : Nat} (h : Moved reg old new j) (hj : j < 32) :
    ∀ y < 5, ∀ x < 5, ∀ i < 2, reg.bit y x i = old.bit y x (i + 2 * j) :=
  fun y hy x hx i hi => h.low y hy x hx i (by omega)

theorem InRound.atBlock {S : KState} {r j : Nat} {c : Core} (h : InRound S r j c) (hj : j < 32) :
    AtBlock r j S c :=
  ⟨h.round, h.block, h.firstRound, h.moved.slices hj⟩

/-- The parity that theta of a block takes. -/
theorem InRound.thetaParity {S : KState} {r j : Nat} {c : Core} (h : InRound S r j c) (hj : j < 32)
    {x : Nat} (hx : x < 5) : c.chiIotaTheta.thetaParity x =
      sumSheet (preTheta r S) x (if j = 0 then 63 else 2 * j - 1) := by
  by_cases h0 : j = 0
  · subst h0
    have h63 : ∀ y < 5, ∀ x < 5, c.regData.bit y x 63 = S.bit y x 63 :=
      fun y hy x hx => h.moved.low y hy x hx 63 (by decide)
    rw [if_pos rfl]
    exact (h.atBlock hj).thetaParity_first h.firstBlock h63 hx
  · have hb : c.chiIotaTheta.firstBlock = false := by
      have := h.firstBlock
      rwa [decide_eq_false h0] at this
    rw [if_neg h0, ChiIotaTheta.thetaParity, hb, Bool.and_false, if_neg Bool.false_ne_true,
      if_neg Bool.false_ne_true]
    exact h.parity (by omega) x hx

/-- A block of theta. -/
theorem InRound.step {S : KState} {r j : Nat} {c : Core} (h : InRound S r j c) (hr : r < 24)
    (hj : j < 32) {i : CoreIn} (hi : i.Quiet) : InRound S r (j + 1) (c.step i) := by
  have hat := h.atBlock hj
  have hs := h.moved.shift hj fun y hy x hx i hi =>
    hat.thetaOutp hj (fun x hx => h.thetaParity hj hx) hy hx hi
  have hpar : ∀ x < 5, (Bits.ofBits 5 c.chiIotaTheta.thetaParityOutp).getLsbD x =
      sumSheet (preTheta r S) x (2 * (j + 1) - 1) := by
    intro x hx
    rw [Bits.getLsbD_ofBits, decide_eq_true hx, Bool.true_and, ChiIotaTheta.thetaParityOutp,
      hat.sumSheet hj hx (by decide), show 1 + 2 * j = 2 * (j + 1) - 1 by omega]
  have hblock : (c.counterBlock + 1) % 64 = j + 1 := by
    rw [h.block]
    omega
  have h24 : ¬c.counterNrRounds = 24 := by
    rw [h.round]
    omega
  have h32 : ¬c.counterBlock = 32 := by
    rw [h.block]
    omega
  rw [step_running h.running hi]
  simp only [Core.permute, if_neg h24, if_neg h32, ite_self]
  exact ⟨h.running, h.round, hblock, h.firstRound, rfl, hs, fun _ => hpar⟩

/-- The core at the start of round `r`, or of the last part. -/
structure Fresh (S : KState) (r : Nat) (c : Core) : Prop where
  data : c.regData = S
  running : c.permutationComputed = false
  round : c.counterNrRounds = r
  block : c.counterBlock = 0
  firstRound : c.firstRound = decide (r = 0)
  firstBlock : c.firstBlock = true

theorem Fresh.inRound {S : KState} {r : Nat} {c : Core} (h : Fresh S r c) : InRound S r 0 c where
  running := h.running
  round := h.round
  block := h.block
  firstRound := h.firstRound
  firstBlock := h.firstBlock
  moved := h.data ▸ moved_zero _ _
  parity h0 := absurd h0 (Nat.lt_irrefl 0)

theorem Fresh.inLast {S : KState} {c : Core} (h : Fresh S 24 c) : InLast S 0 c where
  running := h.running
  round := h.round
  block := h.block
  firstRound := h.firstRound
  moved := h.data ▸ moved_zero _ _

/-- Rho and pi begin the next round, or the last part. -/
theorem InRound.rhoPi {S : KState} {r : Nat} {c : Core} (h : InRound S r 32 c) (hr : r < 24)
    {i : CoreIn} (hi : i.Quiet) :
    Fresh (rhoPiOut (thetaOut (preTheta r S))) (r + 1) (c.step i) := by
  have h24 : ¬c.counterNrRounds = 24 := by
    rw [h.round]
    omega
  have h0 : ¬c.counterBlock = 0 := by
    rw [h.block]
    decide
  have hround : (c.counterNrRounds + 1) % 32 = r + 1 := by
    rw [h.round]
    omega
  rw [step_running h.running hi]
  simp only [Core.permute, if_neg h24, if_neg h0, if_pos h.block, h.moved.eq]
  exact ⟨rfl, h.running, hround, rfl, (decide_eq_false (Nat.succ_ne_zero r)).symm, rfl⟩

/-- A block of the last part. -/
theorem InLast.shift {S : KState} {j : Nat} {c : Core} (h : InLast S j c) (hj : j < 32) :
    Moved (Core.shiftBlock c.regData c.chiIotaTheta.iotaOutp) S (preTheta 24 S) (j + 1) := by
  have hat : AtBlock 24 j S c := ⟨h.round, h.block, h.firstRound, h.moved.slices hj⟩
  exact h.moved.shift hj fun y hy x hx i hi => hat.iotaOutp (by decide) hj hy hx hi

/-- A block of the last part but the last. -/
theorem InLast.step {S : KState} {j : Nat} {c : Core} (h : InLast S j c) (hj : j < 31)
    {i : CoreIn} (hi : i.Quiet) : InLast S (j + 1) (c.step i) := by
  have h31 : ¬c.counterBlock = 31 := by
    rw [h.block]
    omega
  have h32 : ¬c.counterBlock = 32 := by
    rw [h.block]
    omega
  have hblock : (c.counterBlock + 1) % 64 = j + 1 := by
    rw [h.block]
    omega
  rw [step_running h.running hi]
  simp only [Core.permute, if_pos h.round, if_neg h31, if_neg h32, ite_self]
  exact ⟨h.running, h.round, hblock, h.firstRound, h.shift (by omega)⟩

/-- The last block. -/
theorem InLast.last {S : KState} {c : Core} (h : InLast S 31 c) {i : CoreIn} (hi : i.Quiet) :
    (c.step i).permutationComputed = true ∧ (c.step i).regData = preTheta 24 S := by
  rw [step_running h.running hi]
  simp only [Core.permute, if_pos h.round, if_pos h.block]
  exact ⟨trivial, (h.shift (by decide)).eq⟩

/-- The core `t` cycles after `go` took the state `S`. -/
def At (S : KState) (t : Nat) (c : Core) : Prop :=
  if t < 792 then InRound (atRound S (t / 33)) (t / 33) (t % 33) c
  else if t < 824 then InLast (atRound S 24) (t - 792) c
  else c.permutationComputed = true ∧ c.regData = permute24 S

/-- `go` starts the permutation, from whatever the core was doing. -/
theorem at_go (c : Core) {i : CoreIn} (hinit : i.init = false) (hgo : i.go = true) :
    At c.regData 0 (c.step i) := by
  have h : Fresh c.regData 0 (c.step i) := by
    simp only [Core.step, hinit, hgo, Bool.false_eq_true, if_false, if_true]
    exact ⟨rfl, rfl, rfl, rfl, rfl, rfl⟩
  exact h.inRound

/-- A quiet cycle takes the core to the next time. -/
theorem At.step {S : KState} {t : Nat} {c : Core} {i : CoreIn} (ht : t < 824) (hi : i.Quiet)
    (h : At S t c) : At S (t + 1) (c.step i) := by
  by_cases hround : t < 792
  · rw [At, if_pos hround] at h
    have hr : t / 33 < 24 := by omega
    by_cases hj : t % 33 < 32
    · have hstep := h.step hr hj hi
      rw [At, if_pos (by omega), show (t + 1) / 33 = t / 33 by omega,
        show (t + 1) % 33 = t % 33 + 1 by omega]
      exact hstep
    · rw [show t % 33 = 32 by omega] at h
      have hnext : Fresh (atRound S (t / 33 + 1)) (t / 33 + 1) (c.step i) := h.rhoPi hr hi
      by_cases hlast : t + 1 < 792
      · rw [At, if_pos hlast, show (t + 1) / 33 = t / 33 + 1 by omega,
          show (t + 1) % 33 = 0 by omega]
        exact hnext.inRound
      · rw [show t / 33 + 1 = 24 by omega] at hnext
        rw [At, if_neg hlast, if_pos (by omega), show t + 1 - 792 = 0 by omega]
        exact hnext.inLast
  · rw [At, if_neg hround, if_pos ht] at h
    by_cases hlast : t + 1 < 824
    · rw [At, if_neg (by omega), if_pos hlast, show t + 1 - 792 = t - 792 + 1 by omega]
      exact h.step (by omega) hi
    · rw [show t - 792 = 31 by omega] at h
      rw [At, if_neg (by omega), if_neg hlast, permute24, ← preTheta_atRound]
      exact h.last hi

/-- The core after `go` and up to 824 quiet cycles. -/
theorem at_run (c : Core) {i : CoreIn} (hinit : i.init = false) (hgo : i.go = true)
    {ins : List CoreIn} (hq : ∀ i ∈ ins, i.Quiet) (hlen : ins.length ≤ 824) :
    At c.regData ins.length (Machine.run Core.step c (i :: ins)) := by
  have h := Machine.run_schedule (R := At c.regData) (A := CoreIn.Quiet) (T := 824)
    (fun t c i ht hi h => h.step ht hi) (at_go c hinit hgo) hq (by omega)
  rwa [Nat.zero_add] at h

theorem At.ready {S : KState} {t : Nat} {c : Core} (h : At S t c) (ht : t ≤ 824) :
    c.ready = true ↔ t = 824 := by
  rw [Core.ready]
  by_cases hround : t < 792
  · rw [At, if_pos hround] at h
    rw [h.running]
    exact ⟨fun h => absurd h (by decide), fun h => by omega⟩
  · by_cases hlast : t < 824
    · rw [At, if_neg hround, if_pos hlast] at h
      rw [h.running]
      exact ⟨fun h => absurd h (by decide), fun h => by omega⟩
    · rw [At, if_neg hround, if_neg hlast] at h
      exact ⟨fun _ => by omega, fun _ => h.1⟩

/-- **The mid-range core computes the permutation.** From any state of its registers, `go` and 824
cycles in which nothing else is asked of it: `ready` is 0 before the last of them, and with it the
register holds the permutation of what it held at `go`. -/
theorem core_permutes (c : Core) (i : CoreIn) (hinit : i.init = false) (hgo : i.go = true)
    (ins : List CoreIn) (hq : ∀ i ∈ ins, i.Quiet) (hlen : ins.length ≤ 824) :
    let c' := Machine.run Core.step c (i :: ins)
    (c'.ready = true ↔ ins.length = 824) ∧
      (ins.length = 824 →
        c'.regData.toWords = keccakF1600StatePermute c.regData.toWords) := by
  have h := at_run c hinit hgo hq hlen
  refine ⟨h.ready hlen, fun hfull => ?_⟩
  rw [hfull, At, if_neg (by decide), if_neg (by decide)] at h
  rw [h.2, permute24_toWords]

/-- A `go` in the middle of a permutation, and words on `din` that nobody asked for. -/
theorem core_permutes_again :
    let c : Core := ⟨.zero, 0b10110, 7, 19, false, false, false, 3⟩
    let i : CoreIn := ⟨false, true, true, false, 1⟩
    let ins : List CoreIn := List.replicate 824 ⟨false, false, false, false, 5⟩
    let c' := Machine.run Core.step c (i :: ins)
    (c'.ready = true ↔ ins.length = 824) ∧
      (ins.length = 824 →
        c'.regData.toWords = keccakF1600StatePermute c.regData.toWords) :=
  core_permutes _ _ rfl rfl _ (fun _ hi => (List.eq_of_mem_replicate hi) ▸ ⟨rfl, rfl, rfl, rfl⟩)
    (Nat.le_of_eq List.length_replicate)

end ShakeAccel.MidRange
