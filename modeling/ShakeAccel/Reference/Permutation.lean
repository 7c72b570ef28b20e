import Mathlib.Data.List.ProdSigma
import ShakeAccel.Keccak.RoundAgree

/-!
# The reference permutation (`KeccakF-1600-reference.c`)

The designers' reference code computes its round constants with a shift register and its rotation
offsets by a walk over the lanes (`KeccakInitialize`), and applies the five step mappings one after
the other to the words of the state. Each step mapping is the corresponding section of the netlist
(`theta_toWords` to `iota_toWords`), so the reference permutation is the permutation of the netlist
and of `keccakf1600.c`.
-/

namespace ShakeAccel.Reference

open Vec

/-! ## The code -/

/-- `index(x, y)`. -/
def index (x y : Nat) : Nat := x % 5 + 5 * (y % 5)

/-- `ROL64(a, offset)`. -/
def rol64 (a : Lane) (offset : Nat) : Lane :=
  if offset ≠ 0 then (a <<< offset) ^^^ (a >>> (64 - offset)) else a

/-- The iterations of `for(x=0; x<5; x++) for(y=0; y<5; y++)`, in their order. -/
def forXY : List (Nat × Nat) := (List.range 5).product (List.range 5)

/-- The tables that `KeccakInitialize` fills. -/
structure Tables where
  keccakRoundConstants : Vector Lane 24
  keccakRhoOffsets : Vector Nat 25

/-- `theta`. -/
def theta (A : State) : State :=
  let C (x : Nat) : Lane := (List.range 5).foldl (fun c y => c ^^^ A.getD (index x y) 0) 0
  let D (x : Nat) : Lane := rol64 (C ((x + 1) % 5)) 1 ^^^ C ((x + 4) % 5)
  forXY.foldl (fun A p =>
    A.setIfInBounds (index p.1 p.2) (A.getD (index p.1 p.2) 0 ^^^ D p.1)) A

/-- `rho`. -/
def rho (T : Tables) (A : State) : State :=
  forXY.foldl (fun A p =>
    A.setIfInBounds (index p.1 p.2)
      (rol64 (A.getD (index p.1 p.2) 0) (T.keccakRhoOffsets.getD (index p.1 p.2) 0))) A

/-- `pi`: the lanes are copied to `tempA` and from there to their new positions. -/
def pi (A : State) : State :=
  let tempA : State := forXY.foldl (fun tempA p =>
    tempA.setIfInBounds (index p.1 p.2) (A.getD (index p.1 p.2) 0)) (.replicate 25 0)
  forXY.foldl (fun A p =>
    A.setIfInBounds (index (0 * p.1 + 1 * p.2) (2 * p.1 + 3 * p.2))
      (tempA.getD (index p.1 p.2) 0)) A

/-- The body of the outer loop of `chi`: the new lanes of row `y` are computed in `C` before any of
them is stored. -/
def chiPlane (A : State) (y : Nat) : State :=
  let C (x : Nat) : Lane :=
    A.getD (index x y) 0 ^^^ (~~~A.getD (index (x + 1) y) 0 &&& A.getD (index (x + 2) y) 0)
  (List.range 5).foldl (fun A x => A.setIfInBounds (index x y) (C x)) A

/-- `chi`. -/
def chi (A : State) : State := (List.range 5).foldl chiPlane A

/-- `iota`. -/
def iota (T : Tables) (A : State) (indexRound : Nat) : State :=
  A.setIfInBounds (index 0 0)
    (A.getD (index 0 0) 0 ^^^ T.keccakRoundConstants.getD indexRound 0)

/-- `LFSR86540`: the bit it returns and the register after, for the polynomial
`x^8+x^6+x^5+x^4+1`. -/
def lfsr86540 (LFSR : Byte) : Bool × Byte :=
  (LFSR &&& 0x01 != 0, if LFSR &&& 0x80 != 0 then (LFSR <<< 1) ^^^ 0x71 else LFSR <<< 1)

/-- `KeccakInitializeRoundConstants`. -/
def keccakInitializeRoundConstants : Vector Lane 24 :=
  ((List.range 24).foldl (fun acc i =>
    (List.range 7).foldl (fun acc j =>
      let r := lfsr86540 acc.1
      let bitPosition := (1 <<< j) - 1
      if r.1 then (r.2, acc.2.setIfInBounds i (acc.2.getD i 0 ^^^ ((1 : Lane) <<< bitPosition)))
      else (r.2, acc.2)) (acc.1, acc.2.setIfInBounds i 0))
    ((0x01 : Byte), (.replicate 24 0 : Vector Lane 24))).2

/-- `KeccakInitializeRhoOffsets`: a walk over the 24 lanes other than `(0, 0)`. -/
def keccakInitializeRhoOffsets : Vector Nat 25 :=
  ((List.range 24).foldl (fun acc t =>
    let x := acc.1
    let y := acc.2.1
    ((0 * x + 1 * y) % 5, (2 * x + 3 * y) % 5,
      acc.2.2.setIfInBounds (index x y) (((t + 1) * (t + 2) / 2) % 64)))
    (1, 0, (Vector.replicate 25 0).setIfInBounds (index 0 0) 0)).2.2

/-- `KeccakInitialize`. -/
def keccakInitialize : Tables where
  keccakRoundConstants := keccakInitializeRoundConstants
  keccakRhoOffsets := keccakInitializeRhoOffsets

/-- `KeccakPermutationOnWords`, on the tables that are in place. -/
def keccakPermutationOnWords (T : Tables) (state : State) : State :=
  (List.range 24).foldl (fun state i =>
    iota T (chi (pi (rho T (theta state)))) i) state

/-! ## The tables -/

/-- The shift register generates the table of `keccakf1600.c`. -/
theorem keccakRoundConstants_eq :
    keccakInitialize.keccakRoundConstants = keccakFRoundConstants := by
  decide +kernel

/-- The walk reaches every lane with the offset that the netlist rotates it by. -/
theorem keccakRhoOffsets_eq : ∀ y < 5, ∀ x < 5,
    keccakInitialize.keccakRhoOffsets.getD (index x y) 0 = rhoOffset y x := by
  decide +kernel

/-- The two spellings of a rotation. -/
theorem rol64_eq (a : Lane) (k : Nat) : rol64 a k = rol a k := by
  rw [rol64]
  split
  · rfl
  · next h =>
    obtain rfl := of_not_not h
    exact (rol_zero a).symm

/-! ## The loops over the lanes -/

theorem index_eq {x y : Nat} (hx : x < 5) (hy : y < 5) : index x y = 5 * y + x := by
  rw [index, Nat.mod_eq_of_lt hx, Nat.mod_eq_of_lt hy, Nat.add_comm]

theorem index_lt (x y : Nat) : index x y < 25 := by
  have hx := Nat.mod_lt x (show 0 < 5 by decide)
  have hy := Nat.mod_lt y (show 0 < 5 by decide)
  rw [index]
  omega

theorem mem_forXY {x y : Nat} (hx : x < 5) (hy : y < 5) : (x, y) ∈ forXY :=
  List.mem_product.2 ⟨List.mem_range.2 hx, List.mem_range.2 hy⟩

theorem nodup_forXY : (forXY.map fun p => index p.1 p.2).Nodup := by decide

/-- Word `index(x, y)` is lane `(y)(x)`. -/
theorem getD_toWords (s : KState) (x y : Nat) :
    s.toWords.getD (index x y) 0 = s.lane (y % 5) (x % 5) := by
  rw [getD_of_lt _ _ (index_lt x y), KState.getElem_toWords _ (index_lt x y)]
  have hx := Nat.mod_lt x (show 0 < 5 by decide)
  rw [index, show (x % 5 + 5 * (y % 5)) / 5 = y % 5 by omega,
    show (x % 5 + 5 * (y % 5)) % 5 = x % 5 by omega]

/-- Words that hold the lanes of a state are the words of that state. -/
theorem eq_toWords {A : State} {s : KState}
    (h : ∀ x < 5, ∀ y < 5, A.getD (index x y) 0 = s.lane y x) : A = s.toWords := by
  apply ext_getD 0
  intro k hk
  have hx := Nat.mod_lt k (show 0 < 5 by decide)
  have hy : k / 5 < 5 := by omega
  have hk' : k = index (k % 5) (k / 5) := by rw [index_eq hx hy, Nat.div_add_mod]
  rw [hk', h _ hx _ hy, getD_toWords, Nat.mod_eq_of_lt hx, Nat.mod_eq_of_lt hy]

/-- A loop over the lanes that updates each lane from its own value. -/
theorem getD_forXY (g : Nat × Nat → Lane → Lane) (A : State) {x y : Nat} (hx : x < 5)
    (hy : y < 5) :
    (forXY.foldl (fun A p =>
      A.setIfInBounds (index p.1 p.2) (g p (A.getD (index p.1 p.2) 0))) A).getD (index x y) 0 =
      g (x, y) (A.getD (index x y) 0) := by
  have h := getD_foldl_modify (k := (x, y)) (fun p => index p.1 p.2) g 0 A nodup_forXY
    (mem_forXY hx hy) (index_lt x y)
  exact h

/-! ## The step mappings -/

/-- `theta` is the theta of the netlist. -/
theorem theta_toWords (s : KState) : theta s.toWords = (thetaOut s).toWords := by
  refine eq_toWords fun x hx y hy => ?_
  have hC : ∀ x, (List.range 5).foldl (fun c y => c ^^^ s.toWords.getD (index x y) 0) 0 =
      columnSum s (x % 5) := by
    intro x
    simp only [List.range, List.range.loop, List.foldl_cons, List.foldl_nil, getD_toWords,
      columnSum, Nat.reduceMod]
    rw [show (0 : Lane) ^^^ s.lane 0 (x % 5) = s.lane 0 (x % 5) from BitVec.zero_xor]
  rw [theta, getD_forXY (fun p v => v ^^^ _) _ hx hy, getD_toWords, thetaOut_lane s hy hx,
    Nat.mod_eq_of_lt hx, Nat.mod_eq_of_lt hy]
  simp only [hC, rol64_eq, Nat.mod_mod]
  rw [BitVec.xor_comm (rol _ _)]
  interval_cases x <;> rfl

/-- `rho` is the rho of the netlist. -/
theorem rho_toWords (s : KState) : rho keccakInitialize s.toWords = (rhoOut s).toWords := by
  refine eq_toWords fun x hx y hy => ?_
  rw [rho, getD_forXY (fun p v => rol64 v _) _ hx hy, keccakRhoOffsets_eq y hy x hx, rol64_eq,
    getD_toWords, rhoOut_lane s hy hx, Nat.mod_eq_of_lt hx, Nat.mod_eq_of_lt hy]

/-- `pi` is the pi of the netlist. -/
theorem pi_toWords (s : KState) : pi s.toWords = (piOut s).toWords := by
  have hmove : (forXY.map fun p => index (0 * p.1 + 1 * p.2) (2 * p.1 + 3 * p.2)).Nodup := by
    decide
  refine eq_toWords fun x hx y hy => ?_
  -- lane `(x, y)` comes from column `(x + 3*y) mod 5` of row `x`
  have hsrc : (3 * y + x) % 5 < 5 := Nat.mod_lt _ (by decide)
  have hdst : index (0 * ((3 * y + x) % 5) + 1 * x) (2 * ((3 * y + x) % 5) + 3 * x) =
      index x y := by
    interval_cases x <;> interval_cases y <;> rfl
  have h := getD_foldl_modify
    (fun p : Nat × Nat => index (0 * p.1 + 1 * p.2) (2 * p.1 + 3 * p.2))
    (fun p _ => (forXY.foldl (fun tempA p =>
      tempA.setIfInBounds (index p.1 p.2) (s.toWords.getD (index p.1 p.2) 0))
      (.replicate 25 0 : State)).getD (index p.1 p.2) 0)
    0 s.toWords hmove (mem_forXY hsrc hx) (index_lt _ _)
  rw [hdst] at h
  rw [pi, h, getD_forXY (fun p _ => s.toWords.getD (index p.1 p.2) 0) _ hsrc hx, getD_toWords,
    piOut_lane s hy hx, Nat.mod_eq_of_lt hsrc, Nat.mod_eq_of_lt hx]

/-- The body of the outer loop of `chi` computes row `y`. -/
theorem getD_chiPlane_self (A : State) {x y : Nat} (hx : x < 5) (hy : y < 5) :
    (chiPlane A y).getD (index x y) 0 =
      A.getD (index x y) 0 ^^^ (~~~A.getD (index (x + 1) y) 0 &&& A.getD (index (x + 2) y) 0) := by
  have hrow : ((List.range 5).map fun x => index x y).Nodup := by
    interval_cases y <;> decide
  exact getD_foldl_modify (k := x) (fun x => index x y) (fun x _ => A.getD (index x y) 0 ^^^
    (~~~A.getD (index (x + 1) y) 0 &&& A.getD (index (x + 2) y) 0)) 0 A hrow
    (List.mem_range.2 hx) (index_lt x y)

/-- The body of the outer loop of `chi` leaves the other rows as they are. -/
theorem getD_chiPlane_of_ne (A : State) {r : Nat} (x : Nat) {y : Nat} (hr : r < 5) (hy : y < 5)
    (h : y ≠ r) : (chiPlane A r).getD (index x y) 0 = A.getD (index x y) 0 := by
  refine getD_foldl_modify_of_notMem (fun x => index x r) (fun x _ => A.getD (index x r) 0 ^^^ _)
    0 A fun hmem => h ?_
  obtain ⟨x', -, he⟩ := List.mem_map.1 hmem
  have hx := Nat.mod_lt x (show 0 < 5 by decide)
  have hx' := Nat.mod_lt x' (show 0 < 5 by decide)
  rw [index, index, Nat.mod_eq_of_lt hr, Nat.mod_eq_of_lt hy] at he
  omega

/-- The outer loop of `chi` has not touched the rows from `n` on after `n` iterations. -/
theorem getD_foldl_chiPlane_of_ge (A : State) {n : Nat} (x : Nat) {y : Nat} (hn : n ≤ y)
    (hy : y < 5) : ((List.range n).foldl chiPlane A).getD (index x y) 0 = A.getD (index x y) 0 := by
  induction n with
  | zero => rfl
  | succ n ih =>
    rw [List.range_succ, List.foldl_append, List.foldl_cons, List.foldl_nil,
      getD_chiPlane_of_ne _ _ (by omega) hy (by omega), ih (by omega)]

/-- After `n` iterations of its outer loop `chi` has computed the rows below `n`. -/
theorem getD_foldl_chiPlane_of_lt (A : State) {n : Nat} (hn : n ≤ 5) {x y : Nat} (hx : x < 5)
    (hy : y < n) :
    ((List.range n).foldl chiPlane A).getD (index x y) 0 =
      A.getD (index x y) 0 ^^^ (~~~A.getD (index (x + 1) y) 0 &&& A.getD (index (x + 2) y) 0) := by
  induction n with
  | zero => exact absurd hy (Nat.not_lt_zero y)
  | succ n ih =>
    rw [List.range_succ, List.foldl_append, List.foldl_cons, List.foldl_nil]
    rcases Nat.lt_succ_iff_lt_or_eq.1 hy with hlt | rfl
    · rw [getD_chiPlane_of_ne _ _ (by omega) (by omega) (by omega), ih (by omega) hlt]
    · have hrow := fun x => getD_foldl_chiPlane_of_ge A x (Nat.le_refl y) (by omega)
      rw [getD_chiPlane_self _ hx (by omega), hrow, hrow, hrow]

/-- `chi` is the chi of the netlist. -/
theorem chi_toWords (s : KState) : chi s.toWords = (chiOut s).toWords := by
  refine eq_toWords fun x hx y hy => ?_
  rw [chi, getD_foldl_chiPlane_of_lt _ (Nat.le_refl 5) hx hy, getD_toWords, getD_toWords,
    getD_toWords, chiOut_lane s hy hx, Nat.mod_eq_of_lt hx, Nat.mod_eq_of_lt hy]

/-- `iota` is the iota of the netlist, with the constant of its generator. -/
theorem iota_toWords (s : KState) {i : Nat} (hi : i < 24) :
    iota keccakInitialize s.toWords i = (iotaOut s (keccakRoundConstantsGen i)).toWords := by
  have hrc : keccakInitialize.keccakRoundConstants.getD i 0 = keccakRoundConstantsGen i := by
    rw [keccakRoundConstants_eq, getD_of_lt _ _ hi, roundConstants_agree i hi]
    exact (getElem!_pos _ i hi).symm
  refine eq_toWords fun x hx y hy => ?_
  rw [iota, getD_setIfInBounds, hrc, getD_toWords, getD_toWords, iotaOut_lane _ _ hy hx,
    index_eq hx hy, Nat.mod_eq_of_lt hx, Nat.mod_eq_of_lt hy]
  by_cases h : y = 0 ∧ x = 0
  · obtain ⟨rfl, rfl⟩ := h
    rfl
  · rw [if_neg h, if_neg]
    intro h0
    have : (0 : Nat) = 5 * y + x := h0.1
    omega

/-! ## The permutation -/

/-- The reference permutation after `n` rounds. -/
theorem foldl_rounds_toWords (s : KState) {n : Nat} (hn : n ≤ 24) :
    (List.range n).foldl (fun state i =>
      iota keccakInitialize (chi (pi (rho keccakInitialize (theta state)))) i) s.toWords =
      (applyRounds n s).toWords := by
  induction n with
  | zero => rfl
  | succ n ih =>
    rw [List.range_succ, List.foldl_append, ih (by omega), List.foldl_cons, List.foldl_nil,
      theta_toWords, rho_toWords, pi_toWords, chi_toWords, iota_toWords _ (by omega),
      applyRounds_succ, keccakRound]

/-- The reference permutation is the permutation of `keccakf1600.c`. -/
theorem keccakPermutationOnWords_eq (A : State) :
    keccakPermutationOnWords keccakInitialize A = keccakF1600StatePermute A := by
  rw [← KState.toWords_ofWords A, keccakPermutationOnWords, foldl_rounds_toWords _ (Nat.le_refl 24),
    ← permute24_toWords, permute24]

end ShakeAccel.Reference
