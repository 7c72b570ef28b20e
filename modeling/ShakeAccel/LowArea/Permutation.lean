import Mathlib.Data.List.ProdSigma
import ShakeAccel.LowArea.Phases

/-!
# The permutation on the low-area coprocessor

A memory whose first 25 words hold a state holds the state after a round once the stores of the
round are done (`Holds.storeRound`), so the 24 rounds of the state machine are the permutation. The
words from 55 on are never stored to; words 25 to 54 are scratch.
-/

namespace ShakeAccel.LowArea

open Vec

/-- The first 25 words are the lanes of a state, plane by plane. -/
def Holds (M : MemTable) (s : KState) : Prop :=
  ∀ y < 5, ∀ x < 5, M.getD (x + 5 * y) 0 = s.lane y x

/-! ## The loops -/

/-- The rotation of `rho_out` is that of `keccakf1600.c`. -/
theorem rotated_eq (r : Lane) {k : Nat} (hk : k < 64) : rotated r k = rol r k := by
  apply BitVec.eq_of_getLsbD_eq
  intro i hi
  simp only [rotated, rol, BitVec.getLsbD_setWidth, BitVec.getLsbD_append,
    BitVec.getLsbD_extractLsb', BitVec.getLsbD_xor, BitVec.getLsbD_shiftLeft,
    BitVec.getLsbD_ushiftRight, hi, decide_true, Bool.true_and]
  by_cases h : i < k
  · have h' : ¬(64 - (64 - k) ≤ i) := by omega
    simp [h]
  · have : r.getLsbD (64 - k + i) = false := BitVec.getLsbD_of_ge _ _ (by omega)
    simp [h, this]
    omega

/-- The sums after their loop. -/
theorem getD_sums (M : MemTable) {x : Nat} (hx : x < 5) :
    ((List.range 5).foldl storeSum M).getD (50 + x) 0 = sheetSum M x := by
  have hval : ∀ k ∈ List.range 5, ∀ M M' : MemTable, (∀ j, j < 50 → M.getD j 0 = M'.getD j 0) →
      sheetSum M k = sheetSum M' k := by
    intro k hk M M' h
    have hk := List.mem_range.1 hk
    rw [sheetSum, sheetSum, h _ (by omega), h _ (by omega), h _ (by omega), h _ (by omega),
      h _ (by omega)]
  exact getD_foldl_store (k := x) (fun x => 50 + x) sheetSum 0 (· < 50) (fun k _ => by omega) hval
    (by decide) M (List.mem_range.2 hx) (show 50 + x < 64 by omega)

/-- The loop of the sums leaves the other words as they are. -/
theorem getD_sums_of_ne (M : MemTable) {j : Nat} (hj : j < 50 ∨ 55 ≤ j) :
    ((List.range 5).foldl storeSum M).getD j 0 = M.getD j 0 := by
  have hm : j ∉ (List.range 5).map (50 + ·) := by
    intro hm
    obtain ⟨x, hx, rfl⟩ := List.mem_map.1 hm
    have := List.mem_range.1 hx
    omega
  exact getD_foldl_store_of_notMem (50 + ·) sheetSum 0 M hm

/-- The pairs that two nested loops go through. -/
def cells : List (Nat × Nat) := (List.range 5).product (List.range 5)

theorem mem_cells {k : Nat × Nat} : k ∈ cells ↔ k.1 < 5 ∧ k.2 < 5 := by
  rw [cells, ← List.mem_range, ← List.mem_range]
  exact List.mem_product

/-- Two nested loops are one loop over the pairs. -/
theorem foldl_cells {α : Type} (f : α → Nat → Nat → α) (a : α) :
    cells.foldl (fun a k => f a k.1 k.2) a =
      (List.range 5).foldl (fun a i => (List.range 5).foldl (fun a j => f a i j) a) a := by
  rw [cells, List.product, List.foldl_flatMap]
  simp only [List.foldl_map]

/-- The sheets and the planes within each, as one loop. -/
theorem foldl_storeSheet (M : MemTable) : (List.range 5).foldl storeSheet M =
    cells.foldl (fun M k => M.setIfInBounds (pi k.1 k.2) (movedLane M k.1 k.2)) M :=
  (foldl_cells (fun (M : MemTable) x p => M.setIfInBounds (pi x p) (movedLane M x p)) M).symm

theorem pi_ge (x p : Nat) : 25 ≤ pi x p := Nat.le_add_left 25 _

/-- The lanes after theta, rho and pi. -/
theorem getD_sheets (M : MemTable) {x p : Nat} (hx : x < 5) (hp : p < 5) :
    ((List.range 5).foldl storeSheet M).getD (pi x p) 0 = movedLane M x p := by
  have hpi := Fsm.pi_lt x hx p hp
  -- the lane and the sums that a store reads are outside the words it stores to
  have hQ : ∀ k ∈ cells, ¬(pi k.1 k.2 < 25 ∨ 50 ≤ pi k.1 k.2) := by
    intro k hk
    have hk := mem_cells.1 hk
    have h1 := Fsm.pi_lt _ hk.1 _ hk.2
    have h2 := pi_ge k.1 k.2
    omega
  have hval : ∀ k ∈ cells, ∀ M M' : MemTable,
      (∀ j, j < 25 ∨ 50 ≤ j → M.getD j 0 = M'.getD j 0) →
      movedLane M k.1 k.2 = movedLane M' k.1 k.2 := by
    intro k hk M M' h
    have hk := mem_cells.1 hk
    rw [movedLane, movedLane, h _ (.inl (by omega)), h _ (.inr (Nat.le_add_right 50 _)),
      h _ (.inr (Nat.le_add_right 50 _))]
  have hnd : (cells.map fun k => pi k.1 k.2).Nodup := by decide
  have hk : (x, p) ∈ cells := mem_cells.2 ⟨hx, hp⟩
  have h := getD_foldl_store (fun k : Nat × Nat => pi k.1 k.2) (fun M k => movedLane M k.1 k.2) 0
    (fun j => j < 25 ∨ 50 ≤ j) hQ hval hnd M hk (show pi x p < 64 by omega)
  rw [foldl_storeSheet]
  exact h

/-- The loop of theta, rho and pi leaves the other words as they are. -/
theorem getD_sheets_of_ne (M : MemTable) {j : Nat} (hj : j < 25 ∨ 50 ≤ j) :
    ((List.range 5).foldl storeSheet M).getD j 0 = M.getD j 0 := by
  have hm : j ∉ cells.map fun k => pi k.1 k.2 := by
    intro hm
    obtain ⟨k, hk, rfl⟩ := List.mem_map.1 hm
    have hk := mem_cells.1 hk
    have h1 := Fsm.pi_lt _ hk.1 _ hk.2
    have h2 := pi_ge k.1 k.2
    omega
  have h := getD_foldl_store_of_notMem (fun k : Nat × Nat => pi k.1 k.2)
    (fun M k => movedLane M k.1 k.2) 0 M hm
  rw [foldl_storeSheet]
  exact h

/-- The planes and the sheets within each, as one loop. -/
theorem foldl_storePlane (n : Nat) (M : MemTable) : (List.range 5).foldl (storePlane n) M =
    cells.foldl (fun M k => M.setIfInBounds (5 * k.1 + k.2) (chiLane n M k.2 k.1)) M :=
  (foldl_cells (fun (M : MemTable) p x => M.setIfInBounds (5 * p + x) (chiLane n M x p)) M).symm

/-- The lanes after chi and iota. -/
theorem getD_planes (n : Nat) (M : MemTable) {x p : Nat} (hx : x < 5) (hp : p < 5) :
    ((List.range 5).foldl (storePlane n) M).getD (5 * p + x) 0 = chiLane n M x p := by
  have hQ : ∀ k ∈ cells, ¬25 ≤ 5 * k.1 + k.2 := by
    intro k hk
    have hk := mem_cells.1 hk
    omega
  have hval : ∀ k ∈ cells, ∀ M M' : MemTable, (∀ j, 25 ≤ j → M.getD j 0 = M'.getD j 0) →
      chiLane n M k.2 k.1 = chiLane n M' k.2 k.1 := by
    intro k hk M M' h
    rw [chiLane, chiLane, h _ (by omega), h _ (by omega), h _ (by omega)]
  have hnd : (cells.map fun k => 5 * k.1 + k.2).Nodup := by decide
  have hk : (p, x) ∈ cells := mem_cells.2 ⟨hp, hx⟩
  have h := getD_foldl_store (fun k : Nat × Nat => 5 * k.1 + k.2)
    (fun M k => chiLane n M k.2 k.1) 0 (25 ≤ ·) hQ hval hnd M hk (show 5 * p + x < 64 by omega)
  rw [foldl_storePlane]
  exact h

/-- The loop of chi leaves the other words as they are. -/
theorem getD_planes_of_ne (n : Nat) (M : MemTable) {j : Nat} (hj : 25 ≤ j) :
    ((List.range 5).foldl (storePlane n) M).getD j 0 = M.getD j 0 := by
  have hm : j ∉ cells.map fun k => 5 * k.1 + k.2 := by
    intro hm
    obtain ⟨k, hk, rfl⟩ := List.mem_map.1 hm
    have hk := mem_cells.1 hk
    omega
  have h := getD_foldl_store_of_notMem (fun k : Nat × Nat => 5 * k.1 + k.2)
    (fun M k => chiLane n M k.2 k.1) 0 M hm
  rw [foldl_storePlane]
  exact h

/-! ## The round -/

/-- The sums of a memory that holds a state. -/
theorem Holds.sheetSum {M : MemTable} {s : KState} (h : Holds M s) {x : Nat} (hx : x < 5) :
    sheetSum M x = columnSum s x := by
  rw [LowArea.sheetSum, h 4 (by decide) x hx, h 3 (by decide) x hx, h 2 (by decide) x hx,
    h 1 (by decide) x hx, h 0 (by decide) x hx, columnSum]
  ac_rfl

/-- The neighbours in theta. -/
theorem fMod5M1_eq : ∀ x < 5, fMod5M1 x = if x = 0 then 4 else x - 1 := by decide

theorem fMod5P1_eq : ∀ x < 5, fMod5P1 x = if x = 4 then 0 else x + 1 := by decide

theorem fMod5P1_eq_mod : ∀ x < 5, fMod5P1 x = (x + 1) % 5 := by decide

theorem fMod5P2_eq_mod : ∀ x < 5, fMod5P2 x = (x + 2) % 5 := by decide

/-- `pi` moves a lane to row `r`, column `c` from where the pi of the netlist takes it. -/
theorem pi_eq : ∀ r < 5, ∀ c < 5, pi ((3 * r + c) % 5) c = 25 + 5 * r + c := by decide

/-- What theta, rho and pi store for a lane. -/
theorem Holds.movedLane {M : MemTable} {s : KState} (h : Holds M s)
    (hsum : ∀ x < 5, M.getD (50 + x) 0 = columnSum s x) {x p : Nat} (hx : x < 5) (hp : p < 5) :
    movedLane M x p = rol ((thetaOut s).lane p x) (rhoOffset p x) := by
  have hrho : ∀ r1 r2 r3 : Lane, Pe.rhoOut ⟨r1, r2, r3⟩ p x = rol r1 (rhoOffset p x) := by
    intro r1 r2 r3
    rw [Pe.rhoOut, rotated_eq _ (rhoOffset_lt p x)]
    split
    · next h0 =>
      obtain ⟨rfl, rfl⟩ := h0
      exact (rol_zero r1).symm
    · rfl
  rw [LowArea.movedLane, hrho, h p hp x hx, hsum _ (Fsm.fMod5M1_lt x), hsum _ (Fsm.fMod5P1_lt x),
    rotated_eq _ (by decide), fMod5M1_eq x hx, fMod5P1_eq x hx, thetaOut_lane s hp hx,
    BitVec.xor_assoc]

/-- The stores of a round are the round of the netlist. -/
theorem Holds.storeRound {M : MemTable} {s : KState} (h : Holds M s) (n : Nat) :
    Holds (storeRound M n) (keccakRound s (keccakRoundConstantsGen n)) := by
  have hsums : ∀ x < 5, ((List.range 5).foldl storeSum M).getD (50 + x) 0 = columnSum s x :=
    fun x hx => by rw [getD_sums M hx, h.sheetSum hx]
  have h1 : Holds ((List.range 5).foldl storeSum M) s :=
    fun y hy x hx => by rw [getD_sums_of_ne M (.inl (by omega)), h y hy x hx]
  have hmoved : ∀ r < 5, ∀ c < 5, ((List.range 5).foldl storeSheet
      ((List.range 5).foldl storeSum M)).getD (25 + 5 * r + c) 0 = thetaRhoPi s r c := by
    intro r hr c hc
    have hx := Nat.mod_lt (3 * r + c) (show 0 < 5 by decide)
    rw [← pi_eq r hr c hc, getD_sheets _ hx hc, h1.movedLane hsums hx hc, thetaRhoPi]
  intro y hy x hx
  have hm : ∀ k : Nat, k % 5 < 5 := fun k => Nat.mod_lt k (by decide)
  rw [LowArea.storeRound, Nat.add_comm x, getD_planes n _ hx hy, chiLane, fMod5P1_eq_mod x hx,
    fMod5P2_eq_mod x hx, hmoved y hy x hx, hmoved y hy _ (hm _), hmoved y hy _ (hm _),
    keccakRound_lane s _ hy hx]
  simp only [and_comm]

/-- A round does not store to the words from 55 on. -/
theorem getD_storeRound (M : MemTable) (n : Nat) {j : Nat} (hj : 55 ≤ j) :
    (storeRound M n).getD j 0 = M.getD j 0 := by
  rw [storeRound, getD_planes_of_ne n _ (by omega), getD_sheets_of_ne _ (.inr (by omega)),
    getD_sums_of_ne M (.inr hj)]

/-- The stores of the rounds are the rounds of the netlist. -/
theorem Holds.rounds {M : MemTable} {s : KState} (h : Holds M s) (n : Nat) :
    Holds ((List.range n).foldl LowArea.storeRound M) (applyRounds n s) := by
  induction n with
  | zero => exact h
  | succ n ih =>
    rw [List.range_succ, List.foldl_append, List.foldl_cons, List.foldl_nil, applyRounds_succ]
    exact ih.storeRound n

theorem getD_rounds (M : MemTable) (n : Nat) {j : Nat} (hj : 55 ≤ j) :
    ((List.range n).foldl storeRound M).getD j 0 = M.getD j 0 := by
  induction n with
  | zero => rfl
  | succ n ih =>
    rw [List.range_succ, List.foldl_append, List.foldl_cons, List.foldl_nil, getD_storeRound _ _ hj,
      ih]

/-! ## The coprocessor -/

/-- The words of the state. -/
def state (M : MemTable) : State := .ofFn fun k => M.getD k 0

theorem getD_state (M : MemTable) {k : Nat} (hk : k < 25) : (state M).getD k 0 = M.getD k 0 := by
  rw [getD_of_lt _ _ hk, state, Vector.getElem_ofFn]

theorem holds_state (M : MemTable) : Holds M (.ofWords (state M)) := by
  intro y hy x hx
  rw [KState.ofWords, KState.lane_ofLanes hy hx, getD_state M (by omega), Nat.add_comm]

theorem Holds.state_eq {M : MemTable} {s : KState} (h : Holds M s) : state M = s.toWords := by
  apply ext_getD 0
  intro k hk
  have hx := Nat.mod_lt k (show 0 < 5 by decide)
  have := h (k / 5) (by omega) (k % 5) hx
  rw [Nat.mod_add_div] at this
  rw [getD_state M hk, this, getD_of_lt _ _ hk, KState.getElem_toWords s hk]

namespace System

theorem run_fsm (s : System) (ins : List Bool) :
    (Machine.run System.step s ins).copro.fsm = Machine.run Fsm.step s.copro.fsm ins := by
  induction ins generalizing s with
  | nil => rfl
  | cons start ins ih => rw [Machine.run_cons, Machine.run_cons, ih]; rfl

/-- A busy system does not look at `start`. -/
theorem run_eq_tick {s : System} (h : s.copro.fsm.Valid) {ins : List Bool}
    (hlen : ins.length ≤ s.copro.fsm.remaining) :
    Machine.run System.step s ins = tick^[ins.length] s := by
  induction ins generalizing s with
  | nil => rfl
  | cons start ins ih =>
    rw [List.length_cons] at hlen ⊢
    have hbusy : s.copro.fsm.fsmSt ≠ .INIT := fun h0 => by
      have := Fsm.remaining_eq_zero.2 h0
      omega
    have hstep : s.step start = tick s := by
      rw [tick, System.step, System.step, Copro.step, Copro.step, Fsm.step_of_busy hbusy]
    have hrem := Fsm.remaining_step h hbusy start
    have hlen' : ins.length ≤ (s.copro.fsm.step start).remaining := by omega
    rw [Machine.run_cons, ih (s := s.step start) (h.step start) hlen', hstep,
      Function.iterate_succ_apply]

/-- The cycle that accepts `start` is the beginning of the first round. -/
theorem atRound_of_start {s : System} (h : s.copro.fsm.fsmSt = .INIT) :
    AtRound 0 s.settled (s.step true) := by
  obtain ⟨⟨⟨st, a, c, eR, eW, x, p, n, d⟩, q⟩, ram, o⟩ := s
  cases h
  exact ⟨⟨rfl, rfl, rfl, rfl, rfl⟩, rfl⟩

/-- The words of the state after the stores of all rounds. -/
theorem state_rounds (M : MemTable) :
    state ((List.range 24).foldl storeRound M) = keccakF1600StatePermute (state M) := by
  have h := permute24_toWords (.ofWords (state M))
  rw [KState.toWords_ofWords] at h
  rw [((holds_state M).rounds 24).state_eq, ← h, permute24]

/-- From the cycle that accepts `start` on, `done` is 0 for 24 rounds of 215 cycles; with it the
memory holds the stores of the rounds. -/
theorem run_of_start {s : System} (h : s.copro.fsm.fsmSt = .INIT) {ins : List Bool}
    (hlen : ins.length ≤ 215 * 24) {t : System} (ht : t = Machine.run System.step s (true :: ins)) :
    (t.copro.fsm.done = true ↔ ins.length = 215 * 24) ∧
      (ins.length = 215 * 24 → t.copro.fsm.fsmSt = .INIT ∧ t.copro.fsm.enW = false ∧
        t.mem.ram = (List.range 24).foldl storeRound s.settled) := by
  subst ht
  obtain ⟨hv, hrem⟩ := Fsm.start_of_init h
  have hbusy : (s.copro.fsm.step true).fsmSt ≠ .INIT := fun h0 => by
    rw [Fsm.remaining_eq_zero.2 h0] at hrem
    cases hrem
  rw [← hrem] at hlen
  have hdone := Fsm.done_run hv hbusy hlen
  rw [show Machine.run Fsm.step (s.copro.fsm.step true) ins = _ from (run_fsm s (true :: ins)).symm,
    hrem] at hdone
  refine ⟨hdone, fun hfull => ?_⟩
  have ht : Machine.run System.step s (true :: ins) = tick^[215 * 24] (s.step true) := by
    rw [← hfull]
    exact run_eq_tick (s := s.step true) hv hlen
  obtain ⟨hend, hw⟩ := (atRound_of_start h).permutation
  rw [← ht] at hend hw
  refine ⟨hend.st, hw, ?_⟩
  rw [← hend.settled, settled, SystemMem.written, hw]
  rfl

/-- **The coprocessor computes the permutation.** From the cycle that accepts `start` in `INIT` the
system takes 24 rounds of 215 cycles, whatever `start` does meanwhile. `done` is 0 before the last
of them; with it the first 25 words of the memory are the permutation of what they were, and the
words from 55 on are what they were, in the memory with the write done that is pending in the cycle
of `start`, if one is. -/
theorem coprocessor_permutes (s : System) (h : s.copro.fsm.fsmSt = .INIT) (ins : List Bool)
    (hlen : ins.length ≤ 215 * 24) :
    let t := Machine.run System.step s (true :: ins)
    (t.copro.fsm.done = true ↔ ins.length = 215 * 24) ∧
      (ins.length = 215 * 24 →
        t.copro.fsm.fsmSt = .INIT ∧ t.copro.fsm.enW = false ∧
        state t.mem.ram = keccakF1600StatePermute (state s.settled) ∧
        ∀ j, 55 ≤ j → t.mem.ram.getD j 0 = s.settled.getD j 0) := by
  intro t
  obtain ⟨hdone, hend⟩ := run_of_start h hlen (t := t) rfl
  refine ⟨hdone, fun hfull => ?_⟩
  obtain ⟨hst, hw, hram⟩ := hend hfull
  refine ⟨hst, hw, by rw [hram, state_rounds], fun j hj => ?_⟩
  rw [hram, getD_rounds _ _ hj]

/-- A `start` that is held from the reset on. -/
theorem coprocessor_permutes_held :
    let s : System := System.reset
      ⟨⟨⟨.chi5, 0, 0, true, true, 4, 4, 7, true⟩, ⟨0, 0, 0⟩⟩, ⟨.replicate 64 1, 0⟩⟩
    let t := Machine.run System.step s (true :: List.replicate (215 * 24) true)
    (t.copro.fsm.done = true ↔ (List.replicate (215 * 24) true).length = 215 * 24) ∧
      ((List.replicate (215 * 24) true).length = 215 * 24 →
        t.copro.fsm.fsmSt = .INIT ∧ t.copro.fsm.enW = false ∧
        state t.mem.ram = keccakF1600StatePermute (state s.settled) ∧
        ∀ j, 55 ≤ j → t.mem.ram.getD j 0 = s.settled.getD j 0) :=
  coprocessor_permutes _ rfl _ (Nat.le_of_eq List.length_replicate)

end System

end ShakeAccel.LowArea
