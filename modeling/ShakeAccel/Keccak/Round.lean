import Mathlib.Tactic.IntervalCases
import ShakeAccel.Soft.Permute
import ShakeAccel.Lib.Bits

/-!
# The round of the VHDL core (`keccak_round.vhd`, `keccak_round_constants_gen.vhd`)

The netlist assigns every bit of its step outputs separately, so each step is a function of the
bits of its input: `KState.ofBits` collects the bits that the `generate` loops assign.
-/

namespace ShakeAccel

/-- `k_state`: five planes (index `y`, the row) of five lanes (index `x`, the column). -/
abbrev KState := Vector (Vector Lane 5) 5

namespace KState

/-- `s(y)(x)`. -/
def lane (s : KState) (y x : Nat) : Lane :=
  if h : y < 5 ∧ x < 5 then s[y][x] else 0

/-- `s(y)(x)(i)`. -/
def bit (s : KState) (y x i : Nat) : Bool :=
  (s.lane y x).getLsbD i

/-- The state whose lanes are given by a function of row and column. -/
def ofLanes (f : Nat → Nat → Lane) : KState :=
  .ofFn fun y => .ofFn fun x => f y x

/-- The state whose bits are given by a function of row, column and bit position. -/
def ofBits (f : Nat → Nat → Nat → Bool) : KState :=
  ofLanes fun y x => Bits.ofBits 64 (f y x)

/-- `s(y)(x) <= v`. -/
def setLane (s : KState) (y x : Nat) (v : Lane) : KState :=
  ofLanes fun y' x' => if y' = y ∧ x' = x then v else s.lane y' x'

/-- The state that a reset and a `start` pulse leave in `reg_data`. -/
def zero : KState := ofLanes fun _ _ => 0

@[simp] theorem lane_ofLanes {f : Nat → Nat → Lane} {y x : Nat} (hy : y < 5) (hx : x < 5) :
    (ofLanes f).lane y x = f y x := by
  simp [lane, ofLanes, hy, hx]

@[simp] theorem bit_ofBits {f : Nat → Nat → Nat → Bool} {y x i : Nat} (hy : y < 5) (hx : x < 5)
    (hi : i < 64) : (ofBits f).bit y x i = f y x i := by
  rw [bit, ofBits, lane_ofLanes hy hx, Bits.getLsbD_ofBits, decide_eq_true hi, Bool.true_and]

/-- Two states with the same lanes are equal. -/
theorem ext_lane {s t : KState} (h : ∀ y < 5, ∀ x < 5, s.lane y x = t.lane y x) : s = t := by
  apply Vector.ext
  intro y hy
  apply Vector.ext
  intro x hx
  simpa [lane, hy, hx] using h y hy x hx

/-- A lane is known by its bits. -/
theorem lane_eq_of_bits {s : KState} {y x : Nat} {v : Lane}
    (h : ∀ i < 64, s.bit y x i = v.getLsbD i) : s.lane y x = v :=
  BitVec.eq_of_getLsbD_eq h

theorem lane_setLane (s : KState) (y x : Nat) (v : Lane) {y' x' : Nat} (hy : y' < 5)
    (hx : x' < 5) : (s.setLane y x v).lane y' x' = if y' = y ∧ x' = x then v else s.lane y' x' := by
  rw [setLane, lane_ofLanes hy hx]

end KState

/-- `sum_sheet(x)(i)`. -/
def sumSheet (thetaIn : KState) (x i : Nat) : Bool :=
  thetaIn.bit 0 x i ^^ thetaIn.bit 1 x i ^^ thetaIn.bit 2 x i ^^ thetaIn.bit 3 x i ^^
    thetaIn.bit 4 x i

/-- `theta_out`. Bit 0 takes bit 63 of the right neighbour's sum, every other bit the one below
it; columns 0 and 4 wrap around. -/
def thetaOut (thetaIn : KState) : KState :=
  .ofBits fun y x i =>
    let left := if x = 0 then 4 else x - 1
    let right := if x = 4 then 0 else x + 1
    if i = 0 then thetaIn.bit y x 0 ^^ sumSheet thetaIn left 0 ^^ sumSheet thetaIn right 63
    else thetaIn.bit y x i ^^ sumSheet thetaIn left i ^^ sumSheet thetaIn right (i - 1)

/-- The rotation that the `rho` section of the netlist applies to the lane in row `y`,
column `x`. -/
def rhoOffset (y x : Nat) : Nat :=
  match y, x with
  | 0, 0 => 0  | 0, 1 => 1  | 0, 2 => 62 | 0, 3 => 28 | 0, 4 => 27
  | 1, 0 => 36 | 1, 1 => 44 | 1, 2 => 6  | 1, 3 => 55 | 1, 4 => 20
  | 2, 0 => 3  | 2, 1 => 10 | 2, 2 => 43 | 2, 3 => 25 | 2, 4 => 39
  | 3, 0 => 41 | 3, 1 => 45 | 3, 2 => 15 | 3, 3 => 21 | 3, 4 => 8
  | 4, 0 => 18 | 4, 1 => 2  | 4, 2 => 61 | 4, 3 => 56 | 4, 4 => 14
  | _, _ => 0

/-- `rho_out(y)(x)(i) <= rho_in(y)(x)((i - k) mod 64)`, with the VHDL `mod` of a possibly negative
integer. -/
def rhoOut (rhoIn : KState) : KState :=
  .ofBits fun y x i => rhoIn.bit y x (((i : Int) - rhoOffset y x) % 64).toNat

/-- `pi_out((2*x+3*y) mod 5)(0*x+1*y)(i) <= pi_in(y)(x)(i)`, for every row and column. -/
def piOut (piIn : KState) : KState :=
  (List.range 5).foldl (fun out y =>
    (List.range 5).foldl (fun out x =>
      out.setLane ((2 * x + 3 * y) % 5) (0 * x + 1 * y) (piIn.lane y x)) out) KState.zero

/-- `chi_out`: columns 0 to 2, then column 3, then column 4. -/
def chiOut (chiIn : KState) : KState :=
  .ofBits fun y x i =>
    if x ≤ 2 then chiIn.bit y x i ^^ (!chiIn.bit y (x + 1) i && chiIn.bit y (x + 2) i)
    else if x = 3 then chiIn.bit y 3 i ^^ (!chiIn.bit y 4 i && chiIn.bit y 0 i)
    else chiIn.bit y 4 i ^^ (!chiIn.bit y 0 i && chiIn.bit y 1 i)

/-- `iota_out`: only lane `(0)(0)` takes the round constant. -/
def iotaOut (iotaIn : KState) (roundConstantSignal : Lane) : KState :=
  .ofBits fun y x i =>
    if y = 0 ∧ x = 0 then iotaIn.bit 0 0 i ^^ roundConstantSignal.getLsbD i
    else iotaIn.bit y x i

/-- The entity `keccak_round`: theta, rho, pi, chi, iota. -/
def keccakRound (roundIn : KState) (roundConstantSignal : Lane) : KState :=
  iotaOut (chiOut (piOut (rhoOut (thetaOut roundIn)))) roundConstantSignal

/-- The entity `keccak_round_constants_gen`. -/
def keccakRoundConstantsGen (roundNumber : Nat) : Lane :=
  match roundNumber with
  | 0 => 0x0000000000000001
  | 1 => 0x0000000000008082
  | 2 => 0x800000000000808A
  | 3 => 0x8000000080008000
  | 4 => 0x000000000000808B
  | 5 => 0x0000000080000001
  | 6 => 0x8000000080008081
  | 7 => 0x8000000000008009
  | 8 => 0x000000000000008A
  | 9 => 0x0000000000000088
  | 10 => 0x0000000080008009
  | 11 => 0x000000008000000A
  | 12 => 0x000000008000808B
  | 13 => 0x800000000000008B
  | 14 => 0x8000000000008089
  | 15 => 0x8000000000008003
  | 16 => 0x8000000000008002
  | 17 => 0x8000000000000080
  | 18 => 0x000000000000800A
  | 19 => 0x800000008000000A
  | 20 => 0x8000000080008081
  | 21 => 0x8000000000008080
  | 22 => 0x0000000080000001
  | 23 => 0x8000000080008008
  | _ => 0

/-! ## The steps lane by lane -/

/-- The bits of a rotated word. -/
theorem getLsbD_rol (a : Lane) {k i : Nat} (hk : k < 64) (hi : i < 64) :
    (rol a k).getLsbD i = a.getLsbD (((i : Int) - k) % 64).toNat := by
  simp only [rol, BitVec.getLsbD_xor, BitVec.getLsbD_shiftLeft, BitVec.getLsbD_ushiftRight, hi,
    decide_true, Bool.true_and]
  by_cases h : i < k
  · rw [decide_eq_true h, show (((i : Int) - k) % 64).toNat = 64 - k + i by omega]
    simp
  · rw [decide_eq_false h, BitVec.getLsbD_of_ge a (64 - k + i) (by omega),
      show (((i : Int) - k) % 64).toNat = i - k by omega]
    simp

/-- The sum of column `x`. -/
def columnSum (s : KState) (x : Nat) : Lane :=
  s.lane 0 x ^^^ s.lane 1 x ^^^ s.lane 2 x ^^^ s.lane 3 x ^^^ s.lane 4 x

theorem sumSheet_eq (s : KState) (x i : Nat) : sumSheet s x i = (columnSum s x).getLsbD i := by
  simp only [sumSheet, columnSum, KState.bit, BitVec.getLsbD_xor]

theorem thetaOut_lane (s : KState) {y x : Nat} (hy : y < 5) (hx : x < 5) :
    (thetaOut s).lane y x =
      s.lane y x ^^^ (columnSum s (if x = 0 then 4 else x - 1) ^^^
        rol (columnSum s (if x = 4 then 0 else x + 1)) 1) := by
  apply KState.lane_eq_of_bits
  intro i hi
  rw [thetaOut, KState.bit_ofBits hy hx hi, BitVec.getLsbD_xor, BitVec.getLsbD_xor,
    getLsbD_rol _ (by decide) hi]
  simp only [sumSheet_eq, KState.bit]
  by_cases h0 : i = 0
  · subst h0
    rw [if_pos rfl, Bool.xor_assoc]
    rfl
  · rw [if_neg h0, Bool.xor_assoc, show (((i : Int) - (1 : Nat)) % 64).toNat = i - 1 by omega]

theorem rhoOffset_lt (y x : Nat) : rhoOffset y x < 64 := by
  unfold rhoOffset
  split <;> decide

theorem rhoOut_lane (s : KState) {y x : Nat} (hy : y < 5) (hx : x < 5) :
    (rhoOut s).lane y x = rol (s.lane y x) (rhoOffset y x) := by
  apply KState.lane_eq_of_bits
  intro i hi
  rw [rhoOut, KState.bit_ofBits hy hx hi, getLsbD_rol _ (rhoOffset_lt y x) hi]
  rfl

/-- Every lane of `pi_out` has exactly one driver: row `r`, column `c` is driven from row `c`. -/
theorem piOut_lane (s : KState) {r c : Nat} (hr : r < 5) (hc : c < 5) :
    (piOut s).lane r c = s.lane c ((3 * r + c) % 5) := by
  simp only [piOut, List.range, List.range.loop, List.foldl_cons, List.foldl_nil,
    KState.lane_setLane _ _ _ _ hr hc]
  interval_cases r <;> interval_cases c <;> rfl

theorem chiOut_lane (s : KState) {y x : Nat} (hy : y < 5) (hx : x < 5) :
    (chiOut s).lane y x =
      s.lane y x ^^^ (~~~s.lane y ((x + 1) % 5) &&& s.lane y ((x + 2) % 5)) := by
  apply KState.lane_eq_of_bits
  intro i hi
  rw [chiOut, KState.bit_ofBits hy hx hi, BitVec.getLsbD_xor, BitVec.getLsbD_and,
    BitVec.getLsbD_not, decide_eq_true hi, Bool.true_and]
  interval_cases x <;> rfl

theorem iotaOut_lane (s : KState) (rc : Lane) {y x : Nat} (hy : y < 5) (hx : x < 5) :
    (iotaOut s rc).lane y x = if y = 0 ∧ x = 0 then s.lane 0 0 ^^^ rc else s.lane y x := by
  apply KState.lane_eq_of_bits
  intro i hi
  rw [iotaOut, KState.bit_ofBits hy hx hi]
  split
  · rw [BitVec.getLsbD_xor]; rfl
  · rfl

/-- The lane of row `r`, column `c` after theta, rho and pi. -/
def thetaRhoPi (s : KState) (r c : Nat) : Lane :=
  rol ((thetaOut s).lane c ((3 * r + c) % 5)) (rhoOffset c ((3 * r + c) % 5))

/-- One round, lane by lane. -/
theorem keccakRound_lane (s : KState) (rc : Lane) {y x : Nat} (hy : y < 5) (hx : x < 5) :
    (keccakRound s rc).lane y x =
      (thetaRhoPi s y x ^^^ (~~~thetaRhoPi s y ((x + 1) % 5) &&& thetaRhoPi s y ((x + 2) % 5))) ^^^
        if y = 0 ∧ x = 0 then rc else 0 := by
  have hm : ∀ n : Nat, n % 5 < 5 := fun n => Nat.mod_lt n (by decide)
  have hpi : ∀ c < 5, (piOut (rhoOut (thetaOut s))).lane y c = thetaRhoPi s y c := by
    intro c hc
    rw [piOut_lane _ hy hc, rhoOut_lane _ hc (hm _), thetaRhoPi]
  rw [keccakRound, iotaOut_lane _ _ hy hx]
  split
  next h =>
    obtain ⟨rfl, rfl⟩ := h
    rw [chiOut_lane _ hy hx, hpi 0 hx, hpi _ (hm _), hpi _ (hm _)]
  next h =>
    rw [chiOut_lane _ hy hx, hpi x hx, hpi _ (hm _), hpi _ (hm _)]
    exact BitVec.xor_zero.symm

end ShakeAccel
