import Mathlib.Data.ZMod.Basic
import ShakeAccel.Lib.Spread
import ShakeAccel.Keccak.RoundAgree

/-!
# The permutation is a bijection

Each of the five steps of a round is injective: theta because the map on the column sums is
(`Spread.spread_injective`), the others lane by lane. So a round, the 24 rounds of the netlist and
`KeccakF1600_StatePermute` are injective, and bijective since there are finitely many states.
-/

namespace ShakeAccel

open KState

/-! ## The steps -/

/-- Iota adds a constant to one lane. -/
theorem iotaOut_injective (rc : Lane) : Function.Injective fun s => iotaOut s rc := by
  intro s t h
  apply KState.ext_lane
  intro y hy x hx
  have hlane := congrArg (KState.lane · y x) h
  simp only [iotaOut_lane _ _ hy hx] at hlane
  by_cases h0 : y = 0 ∧ x = 0
  · rw [if_pos h0, if_pos h0] at hlane
    obtain ⟨rfl, rfl⟩ := h0
    exact (BitVec.xor_left_inj rc).1 hlane
  · rwa [if_neg h0, if_neg h0] at hlane

/-- A bit of a row before chi, from the five bits of the row after it. -/
theorem chi_inverse : ∀ a b c d e : Bool,
    a = ((a ^^ (!b && c)) ^^ (!(b ^^ (!c && d)) &&
      ((c ^^ (!d && e)) ^^ (!(d ^^ (!e && a)) && (e ^^ (!a && b)))))) := by
  decide

/-- Chi on one bit: its row neighbours to the right are the only other bits read. -/
theorem chiOut_bit (s : KState) {y x i : Nat} (hy : y < 5) (hx : x < 5) (hi : i < 64) :
    (chiOut s).bit y x i =
      (s.bit y x i ^^ (!s.bit y ((x + 1) % 5) i && s.bit y ((x + 2) % 5) i)) := by
  rw [bit, chiOut_lane s hy hx, BitVec.getLsbD_xor, BitVec.getLsbD_and, BitVec.getLsbD_not,
    decide_eq_true hi, Bool.true_and]
  rfl

/-- A bit before chi is a function of the bits of its row after it. -/
theorem bit_of_chiOut (s : KState) {y x i : Nat} (hy : y < 5) (hx : x < 5) (hi : i < 64) :
    s.bit y x i = ((chiOut s).bit y x i ^^ (!(chiOut s).bit y ((x + 1) % 5) i &&
      ((chiOut s).bit y ((x + 2) % 5) i ^^ (!(chiOut s).bit y ((x + 3) % 5) i &&
        (chiOut s).bit y ((x + 4) % 5) i)))) := by
  have hm : ∀ k : Nat, (x + k) % 5 < 5 := fun k => Nat.mod_lt _ (by decide)
  rw [chiOut_bit s hy hx hi, chiOut_bit s hy (hm 1) hi, chiOut_bit s hy (hm 2) hi,
    chiOut_bit s hy (hm 3) hi, chiOut_bit s hy (hm 4) hi]
  interval_cases x <;> exact chi_inverse _ _ _ _ _

/-- So chi is injective, bit by bit. -/
theorem chiOut_injective : Function.Injective chiOut := by
  intro s t h
  apply KState.ext_lane
  intro y hy x hx
  apply BitVec.eq_of_getLsbD_eq
  intro i hi
  have hbit := bit_of_chiOut s hy hx hi
  rw [h, ← bit_of_chiOut t hy hx hi] at hbit
  exact hbit

/-- Pi moves lane `(y, x)` to a place of its own. -/
theorem piOut_injective : Function.Injective piOut := by
  intro s t h
  apply KState.ext_lane
  intro y hy x hx
  have hlane := congrArg (KState.lane · ((2 * x + 3 * y) % 5) y) h
  simp only [piOut_lane _ (Nat.mod_lt _ (show 0 < 5 by decide)) hy] at hlane
  rwa [show (3 * ((2 * x + 3 * y) % 5) + y) % 5 = x by omega] at hlane

/-- A rotation by `k`: bit `i` comes back from bit `i + k`. -/
theorem rol_injective {k : Nat} (hk : k < 64) : Function.Injective fun a => rol a k := by
  intro a b h
  apply BitVec.eq_of_getLsbD_eq
  intro i hi
  have hbit := congrArg (BitVec.getLsbD · ((i + k) % 64)) h
  simp only [getLsbD_rol _ hk (Nat.mod_lt _ (show 0 < 64 by decide))] at hbit
  rwa [show ((((i + k) % 64 : Nat) : Int) - k) % 64 = i by omega, Int.toNat_natCast] at hbit

/-- Rho rotates every lane by an offset of its own. -/
theorem rhoOut_injective : Function.Injective rhoOut := by
  intro s t h
  apply KState.ext_lane
  intro y hy x hx
  have hlane := congrArg (KState.lane · y x) h
  simp only [rhoOut_lane _ hy hx] at hlane
  exact rol_injective (rhoOffset_lt y x) hlane

/-! ## Theta -/

/-- The bits of the column sums, over the cyclic columns and bit positions. -/
def parity (s : KState) (g : ZMod 5 × ZMod 64) : Bool :=
  (columnSum s g.1.val).getLsbD g.2.val

/-- Column sums after theta: the two neighbour columns are added, one of them rotated by 1. -/
theorem columnSum_thetaOut (s : KState) {x : Nat} (hx : x < 5) :
    columnSum (thetaOut s) x =
      columnSum s x ^^^ (columnSum s (if x = 0 then 4 else x - 1) ^^^
        rol (columnSum s (if x = 4 then 0 else x + 1)) 1) := by
  rw [columnSum, thetaOut_lane s (by decide) hx, thetaOut_lane s (by decide) hx,
    thetaOut_lane s (by decide) hx, thetaOut_lane s (by decide) hx, thetaOut_lane s (by decide) hx]
  conv => rhs; rw [columnSum]
  generalize columnSum s (if x = 0 then 4 else x - 1) ^^^
    rol (columnSum s (if x = 4 then 0 else x + 1)) 1 = e
  apply BitVec.eq_of_getLsbD_eq
  intro i _
  simp only [BitVec.getLsbD_xor]
  cases e.getLsbD i <;> simp

/-- Theta spreads the column sums to the offsets `(-1, 0)` and `(1, -1)`. -/
theorem parity_thetaOut (s : KState) :
    parity (thetaOut s) = Spread.spread (-1, 0) (1, -1) (parity s) := by
  funext g
  obtain ⟨x, i⟩ := g
  have hleft : ∀ x : ZMod 5, (x + -1).val = if x.val = 0 then 4 else x.val - 1 := by decide
  have hright : ∀ x : ZMod 5, (x + 1).val = if x.val = 4 then 0 else x.val + 1 := by decide
  have hdown : ∀ i : ZMod 64, (i + -1).val = (((i.val : Int) - (1 : Nat)) % 64).toNat := by decide
  rw [parity, columnSum_thetaOut s x.val_lt, BitVec.getLsbD_xor, BitVec.getLsbD_xor,
    getLsbD_rol _ (by decide) i.val_lt, Spread.spread, parity, parity, parity, Prod.mk_add_mk,
    Prod.mk_add_mk, hleft, hright, hdown, add_zero, Bool.xor_assoc]

/-- The bits determine the column sums. -/
theorem parity_injective {s t : KState} (h : parity s = parity t) {x : Nat} (hx : x < 5) :
    columnSum s x = columnSum t x := by
  apply BitVec.eq_of_getLsbD_eq
  intro i hi
  have hbit := congrFun h (((x : Nat) : ZMod 5), ((i : Nat) : ZMod 64))
  rwa [parity, parity, ZMod.val_natCast_of_lt hx, ZMod.val_natCast_of_lt hi] at hbit

/-- Two states with one image have the same column sums, and theta adds to every lane a function of
these. -/
theorem thetaOut_injective : Function.Injective thetaOut := by
  intro s t h
  have hspread : Function.Injective (Spread.spread (-1, 0) ((1, -1) : ZMod 5 × ZMod 64)) :=
    Spread.spread_injective (c := (1, 0)) 6 (by decide) (by decide) (by decide)
  have hparity : parity s = parity t :=
    hspread (by rw [← parity_thetaOut, ← parity_thetaOut, h])
  apply KState.ext_lane
  intro y hy x hx
  have hlane := congrArg (KState.lane · y x) h
  simp only [thetaOut_lane _ hy hx] at hlane
  rw [parity_injective hparity (show (if x = 0 then 4 else x - 1) < 5 by split <;> omega),
    parity_injective hparity (show (if x = 4 then 0 else x + 1) < 5 by split <;> omega)] at hlane
  exact (BitVec.xor_left_inj _).1 hlane

/-! ## The rounds -/

/-- A round is undone step by step, the last step first. -/
theorem keccakRound_injective {s t : KState} {rc : Lane} (h : keccakRound s rc = keccakRound t rc) :
    s = t := by
  rw [keccakRound, keccakRound] at h
  have hchi := iotaOut_injective rc h
  have hpi := chiOut_injective hchi
  have hrho := piOut_injective hpi
  have htheta := rhoOut_injective hrho
  exact thetaOut_injective htheta

/-- Induction on the rounds: the last one is undone first. -/
theorem applyRounds_injective (n : Nat) : Function.Injective (applyRounds n) := by
  induction n with
  | zero => exact fun _ _ h => h
  | succ n ih =>
    intro s t h
    rw [applyRounds_succ, applyRounds_succ] at h
    exact ih (keccakRound_injective h)

/-- A state is 25 words. -/
theorem finite_state : Finite State :=
  Finite.of_injective (fun (s : State) (k : Fin 25) => (s.get k).toFin) fun s t h => by
    apply Vector.ext
    intro k hk
    exact BitVec.toFin_inj.1 (congrFun h ⟨k, hk⟩)

/-- **`KeccakF1600_StatePermute` is a bijection of the states.** -/
theorem keccakF1600StatePermute_bijective : Function.Bijective keccakF1600StatePermute := by
  have hinj : Function.Injective keccakF1600StatePermute := by
    intro s t h
    rw [← KState.toWords_ofWords s, ← KState.toWords_ofWords t, ← permute24_toWords,
      ← permute24_toWords] at h
    rw [← KState.toWords_ofWords s, ← KState.toWords_ofWords t]
    exact congrArg KState.toWords (applyRounds_injective 24 (KState.toWords_injective h))
  have := finite_state
  exact Finite.injective_iff_bijective.1 hinj

end ShakeAccel
