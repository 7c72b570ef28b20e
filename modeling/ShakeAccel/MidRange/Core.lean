import ShakeAccel.Keccak.RoundAgree
import ShakeAccel.Lib.Machine

/-!
# The mid-range core (`keccak.vhd`, `chi_iota_theta.vhd`, `rho_pi.vhd` of `mid_range_core`)

The core with 32 blocks of two slices. Theta needs the parity of the slice before, chi and iota only
their own slice, so the core computes chi and iota of a round together with theta of the next one,
two slices a cycle, while the state moves through the register; rho and pi take a cycle of their
own. In the first round there is no chi, after the last theta only chi and iota are left.
-/

namespace ShakeAccel.MidRange

/-- `sub_state` and `k_slice` as the wires of their bits, by row, column and position. -/
abbrev SubState := Nat → Nat → Nat → Bool

/-! ## The entity `chi_iota_theta` -/

/-- The input ports of `chi_iota_theta`. `k_slice_theta_p_in` has a single position. -/
structure ChiIotaTheta where
  chiInp : SubState
  thetaInp : SubState
  kSliceThetaPIn : Nat → Nat → Bool
  thetaParityInp : Nat → Bool
  firstRound : Bool
  firstBlock : Bool
  roundConstantSignal : Nat → Bool
  thetaParityBitIotaInp : Bool

namespace ChiIotaTheta

variable (p : ChiIotaTheta)

/-- `chi_out`. -/
def chiOut (y x i : Nat) : Bool :=
  if x ≤ 2 then p.chiInp y x i ^^ (!p.chiInp y (x + 1) i && p.chiInp y (x + 2) i)
  else if x = 3 then p.chiInp y 3 i ^^ (!p.chiInp y 4 i && p.chiInp y 0 i)
  else p.chiInp y 4 i ^^ (!p.chiInp y 0 i && p.chiInp y 1 i)

/-- `chi_out_for_theta_p`. -/
def chiOutForThetaP (y x : Nat) : Bool :=
  let s := p.kSliceThetaPIn
  if x ≤ 2 then s y x ^^ (!s y (x + 1) && s y (x + 2))
  else if x = 3 then s y 3 ^^ (!s y 4 && s y 0)
  else s y 4 ^^ (!s y 0 && s y 1)

/-- `iota_outp`. -/
def iotaOutp (y x i : Nat) : Bool :=
  if y = 0 ∧ x = 0 then p.chiOut 0 0 i ^^ p.roundConstantSignal i else p.chiOut y x i

/-- `theta_in`. -/
def thetaIn (y x i : Nat) : Bool :=
  if p.firstRound then p.thetaInp y x i else p.iotaOutp y x i

/-- `sum_sheet`. -/
def sumSheet (x i : Nat) : Bool :=
  p.thetaIn 0 x i ^^ p.thetaIn 1 x i ^^ p.thetaIn 2 x i ^^ p.thetaIn 3 x i ^^ p.thetaIn 4 x i

/-- `theta_parity_after_chi`. -/
def thetaParityAfterChi (x : Nat) : Bool :=
  let s := fun y => p.chiOutForThetaP y x
  if x = 0 then s 0 ^^ s 1 ^^ s 2 ^^ s 3 ^^ s 4 ^^ p.thetaParityBitIotaInp
  else s 0 ^^ s 1 ^^ s 2 ^^ s 3 ^^ s 4

/-- `theta_parity_first_round`. -/
def thetaParityFirstRound (x : Nat) : Bool :=
  let s := fun y => p.kSliceThetaPIn y x
  s 0 ^^ s 1 ^^ s 2 ^^ s 3 ^^ s 4

/-- `theta_parity`: which parity of the slice before to take. -/
def thetaParity (x : Nat) : Bool :=
  if p.firstRound && p.firstBlock then p.thetaParityFirstRound x
  else if p.firstBlock then p.thetaParityAfterChi x
  else p.thetaParityInp x

/-- `theta_outp`. -/
def thetaOutp (y x i : Nat) : Bool :=
  let left := if x = 0 then 4 else x - 1
  let right := if x = 4 then 0 else x + 1
  if i = 0 then p.thetaIn y x 0 ^^ p.sumSheet left 0 ^^ p.thetaParity right
  else p.thetaIn y x i ^^ p.sumSheet left i ^^ p.sumSheet right (i - 1)

/-- `theta_parity_outp`. -/
def thetaParityOutp (x : Nat) : Bool := p.sumSheet x 1

end ChiIotaTheta

/-! ## The core -/

/-- `keccak_round_constants_gen`: the constants are numbered from 1. -/
def roundConstantsGen (roundNumber : Nat) : Lane :=
  if roundNumber = 0 then 0 else keccakRoundConstantsGen (roundNumber - 1)

/-- `rho_pi_out`: its sections are those of `keccak_round`. -/
def rhoPiOut (rhoPiIn : KState) : KState := piOut (rhoOut rhoPiIn)

/-- The registers of `keccak`. `theta_parity_reg` is its five bits. -/
structure Core where
  regData : KState
  thetaParityReg : BitVec 5
  counterNrRounds : Nat
  counterBlock : Nat
  permutationComputed : Bool
  firstRound : Bool
  firstBlock : Bool
  tmp : Lane
deriving DecidableEq

/-- The input ports of `keccak` other than clock and reset. -/
structure CoreIn where
  init : Bool
  go : Bool
  absorb : Bool
  squeeze : Bool
  din : Lane
deriving DecidableEq

namespace Core

/-- `rst_n = '0'`: `tmp` has no reset. -/
def reset (c : Core) : Core where
  regData := .zero
  thetaParityReg := 0
  counterNrRounds := 0
  counterBlock := 0
  permutationComputed := true
  firstRound := false
  firstBlock := false
  tmp := c.tmp

/-- `round_constant_signal`. -/
def roundConstantSignal (c : Core) : Lane := roundConstantsGen c.counterNrRounds

/-- `round_constant_signal_sub`: the two bits of the block, and those of the last block for every
higher count. -/
def roundConstantSignalSub (c : Core) (i : Nat) : Bool :=
  c.roundConstantSignal.getLsbD (i + 2 * if c.counterBlock ≤ 30 then c.counterBlock else 31)

/-- The wires to the computational block. -/
def chiIotaTheta (c : Core) : ChiIotaTheta where
  chiInp y x i := c.regData.bit y x i
  thetaInp y x i := c.regData.bit y x i
  kSliceThetaPIn y x := c.regData.bit y x 63
  thetaParityInp x := c.thetaParityReg.getLsbD x
  firstRound := c.firstRound
  firstBlock := c.firstBlock
  roundConstantSignal := c.roundConstantSignalSub
  thetaParityBitIotaInp := c.roundConstantSignal.getLsbD 63

/-- The register moves on by a block, and a new one enters at the top. -/
def shiftBlock (regData : KState) (s : SubState) : KState :=
  .ofBits fun y x k => if k < 62 then regData.bit y x (k + 2) else s y x (k - 62)

/-- The register in a cycle of `absorb` or `squeeze`: the lanes of rows 0 to 2 move on by one, the
first to lane `(3)(0)`, and `tmp` becomes the last. -/
def shiftLanes (c : Core) (i : CoreIn) : KState :=
  .ofLanes fun y x =>
    if y = 3 ∧ x = 0 then c.regData.lane 0 0 ^^^ (if i.absorb then i.din else 0)
    else if y = 2 ∧ x = 4 then c.tmp
    else if y ≤ 2 then
      if x ≤ 3 then c.regData.lane y (x + 1) else c.regData.lane (y + 1) 0
    else c.regData.lane y x

/-- The branch `permutation_computed='0'` of `p_main`. The assignments of the last part override
those before it. -/
def permute (c : Core) (c' : Core) : Core :=
  let c' := { c' with firstBlock := false, counterBlock := (c.counterBlock + 1) % 64 }
  let c' :=
    if c.counterBlock = 0 then
      { c' with regData := shiftBlock c.regData c.chiIotaTheta.thetaOutp }
    else if c.counterBlock = 32 then
      { c' with regData := rhoPiOut c.regData, counterBlock := 0,
                counterNrRounds := (c.counterNrRounds + 1) % 32, firstRound := false,
                firstBlock := true }
    else { c' with regData := shiftBlock c.regData c.chiIotaTheta.thetaOutp }
  if c.counterNrRounds = 24 then
    let c' := { c' with counterBlock := (c.counterBlock + 1) % 64,
                        regData := shiftBlock c.regData c.chiIotaTheta.iotaOutp }
    if c.counterBlock = 31 then { c' with permutationComputed := true, counterNrRounds := 0 }
    else c'
  else c'

/-- A rising edge: `p_main` and `p_reg_parity`. -/
def step (c : Core) (i : CoreIn) : Core :=
  let c' := { c with
    tmp := 0
    thetaParityReg := Bits.ofBits 5 c.chiIotaTheta.thetaParityOutp }
  if i.init then
    { c' with regData := .zero, counterNrRounds := 0, counterBlock := 0,
              permutationComputed := true, firstBlock := false, firstRound := false }
  else if i.go then
    { c' with counterNrRounds := 0, counterBlock := 0, permutationComputed := false,
              firstBlock := true, firstRound := true }
  else if i.absorb || i.squeeze then
    { c' with tmp := c.regData.lane 3 0, regData := c.shiftLanes i }
  else if !c.permutationComputed then c.permute c'
  else c'

/-- The output port `ready`. -/
def ready (c : Core) : Bool := c.permutationComputed

/-- The output port `dout`. -/
def dout (c : Core) : Lane := c.regData.lane 0 0

end Core

end ShakeAccel.MidRange
