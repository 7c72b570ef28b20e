import ShakeAccel.Keccak.Round
import ShakeAccel.Lib.Vec

/-!
# The two permutations agree

`softRound` is one round on the 25 scalars. One iteration of the C loop is two of them
(`permuteTwoRounds_eq`), and one of them is one round of the netlist (`scalars_keccakRound`), under
the identification `toWords` of lane `(y)(x)` with word `5*y+x`.
-/

namespace ShakeAccel

open Vec

namespace KState

/-- The 25 words of a VHDL state: word `5*y+x` is lane `(y)(x)`. -/
def toWords (s : KState) : State :=
  .ofFn fun k => s.lane (k.val / 5) (k.val % 5)

/-- The VHDL state of 25 words. -/
def ofWords (t : State) : KState :=
  ofLanes fun y x => t.getD (5 * y + x) 0

theorem getElem_toWords (s : KState) {k : Nat} (hk : k < 25) :
    s.toWords[k] = s.lane (k / 5) (k % 5) := by
  simp [toWords]

theorem toWords_ofWords (t : State) : (ofWords t).toWords = t := by
  apply Vector.ext
  intro k hk
  rw [getElem_toWords _ hk, ofWords, lane_ofLanes (by omega) (Nat.mod_lt k (by decide)),
    Nat.div_add_mod k 5]
  exact getD_of_lt _ _ hk

theorem ofWords_toWords (s : KState) : ofWords s.toWords = s := by
  apply ext_lane
  intro y hy x hx
  rw [ofWords, lane_ofLanes hy hx, getD_of_lt _ _ (show 5 * y + x < 25 by omega),
    getElem_toWords _ (by omega), show (5 * y + x) / 5 = y by omega,
    show (5 * y + x) % 5 = x by omega]

theorem toWords_injective : Function.Injective toWords :=
  Function.LeftInverse.injective ofWords_toWords

end KState

/-! ## One software round -/

/-- Chi on the five lanes of a row. -/
def chiRow (a e i o u : Lane) : Lane × Lane × Lane × Lane × Lane :=
  (a ^^^ (~~~e &&& i), e ^^^ (~~~i &&& o), i ^^^ (~~~o &&& u), o ^^^ (~~~u &&& a),
    u ^^^ (~~~a &&& e))

/-- One round on the scalars: half of the body of the C loop, with the names of its results in
place of the names it reads. -/
def softRound (rc : Lane) (A : Scalars) : Scalars :=
  let Ca := A.Aba ^^^ A.Aga ^^^ A.Aka ^^^ A.Ama ^^^ A.Asa
  let Ce := A.Abe ^^^ A.Age ^^^ A.Ake ^^^ A.Ame ^^^ A.Ase
  let Ci := A.Abi ^^^ A.Agi ^^^ A.Aki ^^^ A.Ami ^^^ A.Asi
  let Co := A.Abo ^^^ A.Ago ^^^ A.Ako ^^^ A.Amo ^^^ A.Aso
  let Cu := A.Abu ^^^ A.Agu ^^^ A.Aku ^^^ A.Amu ^^^ A.Asu
  let Da := Cu ^^^ rol Ce 1
  let De := Ca ^^^ rol Ci 1
  let Di := Ce ^^^ rol Co 1
  let Do := Ci ^^^ rol Cu 1
  let Du := Co ^^^ rol Ca 1
  let b := chiRow (A.Aba ^^^ Da) (rol (A.Age ^^^ De) 44) (rol (A.Aki ^^^ Di) 43)
    (rol (A.Amo ^^^ Do) 21) (rol (A.Asu ^^^ Du) 14)
  let g := chiRow (rol (A.Abo ^^^ Do) 28) (rol (A.Agu ^^^ Du) 20) (rol (A.Aka ^^^ Da) 3)
    (rol (A.Ame ^^^ De) 45) (rol (A.Asi ^^^ Di) 61)
  let k := chiRow (rol (A.Abe ^^^ De) 1) (rol (A.Agi ^^^ Di) 6) (rol (A.Ako ^^^ Do) 25)
    (rol (A.Amu ^^^ Du) 8) (rol (A.Asa ^^^ Da) 18)
  let m := chiRow (rol (A.Abu ^^^ Du) 27) (rol (A.Aga ^^^ Da) 36) (rol (A.Ake ^^^ De) 10)
    (rol (A.Ami ^^^ Di) 15) (rol (A.Aso ^^^ Do) 56)
  let s := chiRow (rol (A.Abi ^^^ Di) 62) (rol (A.Ago ^^^ Do) 55) (rol (A.Aku ^^^ Du) 39)
    (rol (A.Ama ^^^ Da) 41) (rol (A.Ase ^^^ De) 2)
  ⟨b.1 ^^^ rc, b.2.1, b.2.2.1, b.2.2.2.1, b.2.2.2.2,
    g.1, g.2.1, g.2.2.1, g.2.2.2.1, g.2.2.2.2,
    k.1, k.2.1, k.2.2.1, k.2.2.2.1, k.2.2.2.2,
    m.1, m.2.1, m.2.2.1, m.2.2.2.1, m.2.2.2.2,
    s.1, s.2.1, s.2.2.1, s.2.2.2.1, s.2.2.2.2⟩

/-- An iteration of the C loop is two rounds. -/
theorem permuteTwoRounds_eq (round : Nat) (A : Scalars) :
    permuteTwoRounds round A =
      softRound keccakFRoundConstants[round + 1]! (softRound keccakFRoundConstants[round]! A) :=
  rfl

@[simp] theorem rol_zero (a : Lane) : rol a 0 = a := by
  rw [rol, BitVec.shiftLeft_zero, BitVec.ushiftRight_eq_zero (by decide), BitVec.xor_zero]

/-- A round of the netlist is a round on the scalars. -/
theorem scalars_keccakRound (s : KState) (rc : Lane) :
    copyFromState (keccakRound s rc).toWords = softRound rc (copyFromState s.toWords) := by
  simp only [copyFromState, KState.getElem_toWords, softRound, chiRow, Scalars.mk.injEq]
  simp [keccakRound_lane, thetaRhoPi, thetaOut_lane, columnSum, rhoOffset]

/-! ## 24 rounds -/

/-- The rounds `0, ..., n-1` of the netlist, with the constants of its generator. -/
def applyRounds (n : Nat) (s : KState) : KState :=
  (List.range n).foldl (fun s r => keccakRound s (keccakRoundConstantsGen r)) s

@[simp] theorem applyRounds_zero (s : KState) : applyRounds 0 s = s := rfl

theorem applyRounds_succ (n : Nat) (s : KState) :
    applyRounds (n + 1) s = keccakRound (applyRounds n s) (keccakRoundConstantsGen n) := by
  simp only [applyRounds, List.range_succ, List.foldl_append, List.foldl_cons, List.foldl_nil]

/-- The permutation of the netlist: 24 rounds. -/
def permute24 (s : KState) : KState := applyRounds 24 s

/-- The generator and the C table hold the same constants. -/
theorem roundConstants_agree : ∀ r < 24, keccakRoundConstantsGen r = keccakFRoundConstants[r]! := by
  decide

theorem copyToState_copyFromState (t : State) : copyToState (copyFromState t) = t := by
  apply Vector.ext
  intro k hk
  interval_cases k <;> rfl

/-- After `k` iterations the C loop holds the state that the netlist holds after `2 * k` rounds. -/
theorem loop_eq_applyRounds (s : KState) {k : Nat} (hk : k ≤ 12) :
    (List.range' 0 k 2).foldl (fun A round => permuteTwoRounds round A)
        (copyFromState s.toWords) =
      copyFromState (applyRounds (2 * k) s).toWords := by
  induction k with
  | zero => rfl
  | succ k ih =>
    rw [List.range'_concat, List.foldl_append, ih (by omega), List.foldl_cons, List.foldl_nil,
      permuteTwoRounds_eq, Nat.zero_add, ← roundConstants_agree _ (by omega),
      ← roundConstants_agree _ (by omega), ← scalars_keccakRound, ← scalars_keccakRound,
      ← applyRounds_succ, ← applyRounds_succ]
    rfl

/-- **The permutations agree.** 24 rounds of the netlist compute, word for word, what
`KeccakF1600_StatePermute` computes. -/
theorem permute24_toWords (s : KState) :
    (permute24 s).toWords = keccakF1600StatePermute s.toWords := by
  rw [keccakF1600StatePermute, loop_eq_applyRounds s (Nat.le_refl 12), copyToState_copyFromState,
    permute24]

/-- The identification of the two state layouts: bit `i` of lane `(y)(x)` is bit `i` of word
`5*y+x`. -/
theorem KState.bit_eq_getLsbD_toWords (s : KState) (y x : Fin 5) (i : Nat) :
    s.bit y x i = (s.toWords.getD (5 * y + x) 0).getLsbD i := by
  rw [getD_of_lt _ _ (show 5 * y.val + x.val < 25 by omega), getElem_toWords _ (by omega),
    show (5 * y.val + x.val) / 5 = y.val by omega, show (5 * y.val + x.val) % 5 = x.val by omega,
    bit]

/-- **Hardware and software permutations agree.** The identification is a bijection of the states,
and under it 24 applications of the netlist with the constants 0 to 23 are the C function. -/
theorem keccakRound_iterated_eq_permute :
    Function.Bijective KState.toWords ∧
      (∀ (s : KState) (y x : Fin 5) (i : Fin 64),
        s.bit y x i = (s.toWords.getD (5 * y + x) 0).getLsbD i) ∧
      ∀ s : KState,
        ((List.range 24).foldl (fun s r => keccakRound s (keccakRoundConstantsGen r)) s).toWords =
          keccakF1600StatePermute s.toWords :=
  ⟨⟨KState.toWords_injective, fun t => ⟨KState.ofWords t, KState.toWords_ofWords t⟩⟩,
    fun s y x i => s.bit_eq_getLsbD_toWords y x i, permute24_toWords⟩

end ShakeAccel
