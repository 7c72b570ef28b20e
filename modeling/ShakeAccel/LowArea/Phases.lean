import Mathlib.Tactic.IntervalCases
import ShakeAccel.LowArea.Timing

/-!
# The phases of a round of the low-area coprocessor

Between the states at which its loops begin the coprocessor computes on the memory: it stores the
sum of each sheet, each lane after theta, rho and pi, and each lane after chi. `sums`, `thetaRhoPi`
and `chiIota` are these stores as loops over the memory; the machine executes a sheet or a plane of
them in a fixed number of cycles. A busy machine is run with `tick`, since it does not look at its
input.
-/

namespace ShakeAccel.LowArea

/-! ## The stores -/

/-- What the sum of sheet `x` is computed to be, in the order of the reads. -/
def sheetSum (M : MemTable) (x : Nat) : Lane :=
  M.getD (x + 5 * 4) 0 ^^^ (M.getD (x + 5 * 3) 0 ^^^ (M.getD (x + 5 * 2) 0 ^^^
    (M.getD (x + 5 * 1) 0 ^^^ M.getD (x + 5 * 0) 0)))

/-- What is stored for the lane in sheet `x`, plane `p` by the second part of theta. -/
def movedLane (M : MemTable) (x p : Nat) : Lane :=
  Pe.rhoOut ⟨M.getD (x + 5 * p) 0 ^^^ M.getD (50 + fMod5M1 x) 0 ^^^
    rotated (M.getD (50 + fMod5P1 x) 0) 1, 0, 0⟩ p x

/-- What is stored for the lane in sheet `x`, plane `p` by chi and iota of round `n`. -/
def chiLane (n : Nat) (M : MemTable) (x p : Nat) : Lane :=
  M.getD (25 + 5 * p + x) 0 ^^^
    (~~~M.getD (25 + 5 * p + fMod5P1 x) 0 &&& M.getD (25 + 5 * p + fMod5P2 x) 0) ^^^
    if x = 0 ∧ p = 0 then keccakRoundConstantsGen n else 0

/-- The store of the sum of a sheet. -/
def storeSum (M : MemTable) (x : Nat) : MemTable := M.setIfInBounds (50 + x) (sheetSum M x)

/-- The stores of a sheet. -/
def storeSheet (M : MemTable) (x : Nat) : MemTable :=
  (List.range 5).foldl (fun M p => M.setIfInBounds (pi x p) (movedLane M x p)) M

/-- The stores of a plane. -/
def storePlane (n : Nat) (M : MemTable) (p : Nat) : MemTable :=
  (List.range 5).foldl (fun M x => M.setIfInBounds (5 * p + x) (chiLane n M x p)) M

/-- The stores of round `n`. -/
def storeRound (M : MemTable) (n : Nat) : MemTable :=
  (List.range 5).foldl (storePlane n)
    ((List.range 5).foldl storeSheet ((List.range 5).foldl storeSum M))

/-! ## The commands -/

namespace Pe

variable (p : Pe) (o : Lane)

theorem step_hold : p.step o 0b00000000 = p := rfl

theorem step_load : p.step o 0b00000001 = ⟨o, p.r2Out, p.r3Out⟩ := rfl

theorem step_add : p.step o 0b00000010 = ⟨o ^^^ p.r1Out, p.r2Out, p.r3Out⟩ := rfl

theorem step_theta : p.step o 0b00000100 =
    ⟨o ^^^ p.r3Out ^^^ rotated p.r2Out 1, p.r2Out, p.r3Out⟩ := rfl

theorem step_shift : p.step o 0b00001001 = ⟨o, p.r1Out, p.r2Out⟩ := rfl

theorem step_thetaShift : p.step o 0b00001100 =
    ⟨o ^^^ p.r3Out ^^^ rotated p.r2Out 1, p.r1Out, p.r2Out⟩ := rfl

theorem step_storeRho : p.step o 0b00100000 = p := rfl

theorem step_storeChi : p.step o 0b01000000 = p := rfl

theorem step_storeIota : p.step o 0b10000000 = p := rfl

variable (n y x : Nat)

theorem dataToMem_storeSum : p.dataToMem n 0b00010000 y x = p.r1Out := rfl

theorem dataToMem_storeRho : p.dataToMem n 0b00100000 y x = p.rhoOut y x := rfl

theorem dataToMem_storeChi : p.dataToMem n 0b01000000 y x = p.chiOut := rfl

theorem dataToMem_storeIota :
    p.dataToMem n 0b10000000 y x = p.chiOut ^^^ keccakRoundConstantsGen n := rfl

end Pe

namespace System

/-- A cycle of a busy machine. -/
def tick (s : System) : System := s.step false

theorem tick_mk (f : Fsm) (p : Pe) (M : MemTable) (o : Lane) : tick ⟨⟨f, p⟩, ⟨M, o⟩⟩ =
    ⟨⟨f.step false, p.step o f.command⟩,
      ⟨if f.enW then M.setIfInBounds f.memAddr
          (p.dataToMem f.nrRoundInternal f.command f.counterPlane f.counterSheet) else M,
        if f.enR then M.getD f.memAddr 0 else 0⟩⟩ := rfl

theorem settled_mk (f : Fsm) (p : Pe) (M : MemTable) (o : Lane) : settled ⟨⟨f, p⟩, ⟨M, o⟩⟩ =
    if f.enW then M.setIfInBounds f.memAddr
      (p.dataToMem f.nrRoundInternal f.command f.counterPlane f.counterSheet) else M := rfl

/-- The machine is in a state with given counters, and its memory will hold `M`. -/
structure At (s : System) (st : FsmSt) (n x p : Nat) (M : MemTable) : Prop where
  st : s.copro.fsm.fsmSt = st
  round : s.copro.fsm.nrRoundInternal = n
  sheet : s.copro.fsm.counterSheet = x
  plane : s.copro.fsm.counterPlane = p
  settled : s.settled = M

/-- The first cycle from a state of the loops completes the store that is under way. -/
theorem At.tick {s : System} {st : FsmSt} {n x p : Nat} {M : MemTable} (h : s.At st n x p M) :
    ∃ a c eR eW d q o, tick s = ⟨⟨Fsm.step ⟨st, a, c, eR, eW, x, p, n, d⟩ false, q⟩, ⟨M, o⟩⟩ := by
  obtain ⟨⟨⟨st, a, c, eR, eW, x, p, n, d⟩, q⟩, ram, o⟩ := s
  obtain ⟨rfl, rfl, rfl, rfl, rfl⟩ := h
  exact ⟨a, c, eR, eW, d, _, _, rfl⟩

/-! ## The sums -/

/-- The start of sheet `x` in `theta0` to `theta6`, or the end of the loop. -/
def AtSum (n x : Nat) (M : MemTable) (s : System) : Prop :=
  s.At (if x < 5 then .theta0 else .theta10) n (if x < 5 then x else 0) 0 M

/-- The sum of a sheet takes seven cycles; its store takes place in the next. -/
theorem AtSum.sheet {n x : Nat} (hx : x < 5) {M : MemTable} {s : System} (h : AtSum n x M s) :
    AtSum n (x + 1) (storeSum M x) (tick^[7] s) := by
  rw [AtSum, if_pos hx, if_pos hx] at h
  obtain ⟨a, c, eR, eW, d, q, o, h1⟩ := h.tick
  have h7 : tick^[7] s = tick^[6] (tick s) := rfl
  rw [h7, h1]
  simp only [Function.iterate_succ_apply, Function.iterate_zero, id_eq, tick_mk, Fsm.step,
    Pe.step_hold, Pe.step_load, Pe.step_add, if_true, Bool.false_eq_true, if_false, Nat.reduceAdd]
  by_cases h4 : x = 4
  · subst h4
    exact ⟨rfl, rfl, rfl, rfl, by
      simp only [settled_mk, Pe.dataToMem_storeSum, if_true, storeSum, sheetSum]⟩
  · rw [if_neg h4, AtSum, if_pos (by omega), if_pos (by omega)]
    exact ⟨rfl, rfl, rfl, rfl, by
      simp only [settled_mk, Pe.dataToMem_storeSum, if_true, storeSum, sheetSum]⟩

/-! ## Theta, rho and pi -/

/-- The start of sheet `x` in `theta10`, which counts the sheet up when it comes from another, or
the end of the loop. -/
def AtSheet (n x : Nat) (M : MemTable) (s : System) : Prop :=
  s.At (if x < 5 then .theta10 else .chi0) n (x - 1) (if x = 0 then 0 else 4) M

/-- The lane of sheet `x`, plane `p` is at the processing element, with the sums that it takes. -/
def AtLane (n x p : Nat) (M : MemTable) (s : System) : Prop :=
  ∃ d r1, s = ⟨⟨⟨.theta13bis, pi x p, 0b00000100, false, false, x, p, n, d⟩,
    ⟨r1, M.getD (50 + fMod5P1 x) 0, M.getD (50 + fMod5M1 x) 0⟩⟩, ⟨M, M.getD (x + 5 * p) 0⟩⟩

/-- The sums of the neighbours are read, then the first lane. -/
theorem AtSheet.lane {n x : Nat} (hx : x < 5) {M : MemTable} {s : System} (h : AtSheet n x M s) :
    AtLane n x 0 M (tick^[5] s) := by
  rw [AtSheet, if_pos hx] at h
  obtain ⟨a, c, eR, eW, d, q, o, h1⟩ := h.tick
  have h5 : tick^[5] s = tick^[4] (tick s) := rfl
  rw [h5, h1]
  -- both ways into `theta10` address the sum of the left neighbour
  have hf : Fsm.step ⟨.theta10, a, c, eR, eW, x - 1, if x = 0 then 0 else 4, n, d⟩ false =
      ⟨.theta11, 50 + fMod5M1 x, 0b00000001, true, false, x, if x = 0 then 0 else 4, n, d⟩ := by
    interval_cases x <;> rfl
  rw [hf]
  simp only [Function.iterate_succ_apply, Function.iterate_zero, id_eq, tick_mk, Fsm.step,
    Pe.step_load, Pe.step_shift, Pe.step_thetaShift, if_true, Bool.false_eq_true, if_false]
  exact ⟨d, _, rfl⟩

/-- A store of a lane does not touch the sums. -/
theorem getD_store_sum (M : MemTable) {x p : Nat} (hx : x < 5) (hp : p < 5) (v : Lane) (j : Nat) :
    (M.setIfInBounds (pi x p) v).getD (50 + j) 0 = M.getD (50 + j) 0 := by
  have := Fsm.pi_lt x hx p hp
  rw [Vec.getD_setIfInBounds, if_neg (by omega)]

/-- A lane takes three cycles. -/
theorem AtLane.next {n x p : Nat} (hx : x < 5) (hp : p < 4) {M : MemTable} {s : System}
    (h : AtLane n x p M s) :
    AtLane n x (p + 1) (M.setIfInBounds (pi x p) (movedLane M x p)) (tick^[3] s) := by
  obtain ⟨d, r1, rfl⟩ := h
  simp only [Function.iterate_succ_apply, Function.iterate_zero, id_eq, tick_mk, Fsm.step,
    Pe.step_theta, Pe.step_storeRho, Pe.dataToMem_storeRho, if_true, Bool.false_eq_true, if_false,
    if_neg (show ¬p = 4 by omega)]
  rw [AtLane, getD_store_sum M hx (by omega), getD_store_sum M hx (by omega)]
  exact ⟨d, _, rfl⟩

/-- The last lane of a sheet takes one cycle, and its store takes place in the next. -/
theorem AtLane.last {n x : Nat} (hx : x < 5) {M : MemTable} {s : System} (h : AtLane n x 4 M s) :
    AtSheet n (x + 1) (M.setIfInBounds (pi x 4) (movedLane M x 4)) (tick s) := by
  obtain ⟨d, r1, rfl⟩ := h
  simp only [tick_mk, Fsm.step, Pe.step_theta, if_true, Bool.false_eq_true, if_false]
  by_cases h4 : x = 4
  · subst h4
    exact ⟨rfl, rfl, rfl, rfl, by simp only [settled_mk, Pe.dataToMem_storeRho, if_true]; rfl⟩
  · rw [if_neg h4, AtSheet, if_pos (by omega), if_neg (by omega)]
    exact ⟨rfl, rfl, rfl, rfl, by simp only [settled_mk, Pe.dataToMem_storeRho, if_true]; rfl⟩

/-- A sheet takes eighteen cycles. -/
theorem AtSheet.sheet {n x : Nat} (hx : x < 5) {M : MemTable} {s : System} (h : AtSheet n x M s) :
    AtSheet n (x + 1) (storeSheet M x) (tick^[18] s) := by
  have hloop := Machine.iterate_loop (c := 3) (N := 4) (I := AtLane n x)
    (fun p hp M s => AtLane.next hx hp) (h.lane hx)
  have hlast := hloop.last hx
  rw [← Function.iterate_succ_apply' tick, ← Function.iterate_add_apply] at hlast
  rw [storeSheet, List.range_succ, List.foldl_append]
  exact hlast

/-! ## Chi and iota -/

/-- The start of round `n` in `theta0`, or the end of the last round. -/
def AtRound (n : Nat) (M : MemTable) (s : System) : Prop :=
  s.At (if n < 24 then .theta0 else .INIT) (if n < 24 then n else 23) 0 0 M ∧
    s.copro.fsm.enW = false

/-- The start of plane `p` in `chi0` or `chi0bis`, or the end of the round. -/
def AtPlane (n p : Nat) (M : MemTable) (s : System) : Prop :=
  if p = 0 then s.At .chi0 n 4 4 M else if p < 5 then s.At .chi0bis n 0 p M
  else AtRound (n + 1) M s

/-- The lane in sheet `x` of plane `p` and the next are in the registers, the one after them is at
the processing element. -/
def AtChi (n p x : Nat) (M : MemTable) (s : System) : Prop :=
  ∃ a d r3, s = ⟨⟨⟨.chi4, a, 0b00001001, false, false, x, p, n, d⟩,
    ⟨M.getD (25 + 5 * p + fMod5P1 x) 0, M.getD (25 + 5 * p + x) 0, r3⟩⟩,
    ⟨M, M.getD (25 + 5 * p + fMod5P2 x) 0⟩⟩

/-- The first three lanes of a plane are read. -/
theorem AtPlane.chi {n p : Nat} (hp : p < 5) {M : MemTable} {s : System} (h : AtPlane n p M s) :
    AtChi n p 0 M (tick^[4] s) := by
  have h4 : tick^[4] s = tick^[3] (tick s) := rfl
  obtain ⟨d, q, o, h1⟩ : ∃ d q o, tick s =
      ⟨⟨⟨.chi1, 25 + 5 * p + 0, 0b00000000, true, false, 0, p, n, d⟩, q⟩, ⟨M, o⟩⟩ := by
    by_cases h0 : p = 0
    · rw [AtPlane, if_pos h0] at h
      obtain ⟨a, c, eR, eW, d, q, o, h1⟩ := h.tick
      exact ⟨d, q, o, by rw [h1, h0]; rfl⟩
    · rw [AtPlane, if_neg h0, if_pos hp] at h
      obtain ⟨a, c, eR, eW, d, q, o, h1⟩ := h.tick
      exact ⟨d, q, o, h1⟩
  rw [h4, h1]
  simp only [Function.iterate_succ_apply, Function.iterate_zero, id_eq, tick_mk, Fsm.step,
    Pe.step_hold, Pe.step_load, Pe.step_shift, if_true, Bool.false_eq_true, if_false]
  exact ⟨_, d, _, rfl⟩

/-- The cycles in `chi4` and `chi5`: the third lane enters the registers, the result is stored. -/
theorem AtChi.store {n p x : Nat} {M : MemTable} {s : System} (h : AtChi n p x M s) :
    ∃ d c, tick^[2] s = ⟨⟨Fsm.step ⟨.chi5, 5 * p + x, c, false, true, x, p, n, d⟩ false,
      ⟨M.getD (25 + 5 * p + fMod5P2 x) 0, M.getD (25 + 5 * p + fMod5P1 x) 0,
        M.getD (25 + 5 * p + x) 0⟩⟩, ⟨M.setIfInBounds (5 * p + x) (chiLane n M x p), 0⟩⟩ := by
  obtain ⟨a, d, r3, rfl⟩ := h
  refine ⟨d, if x = 0 ∧ p = 0 then 0b10000000 else 0b01000000, ?_⟩
  by_cases h0 : x = 0 ∧ p = 0
  · simp only [Function.iterate_succ_apply, Function.iterate_zero, id_eq, tick_mk, Fsm.step,
      chiLane, if_pos h0, Pe.step_shift, Pe.step_storeIota, Pe.dataToMem_storeIota, if_true,
      Bool.false_eq_true, if_false]
    rfl
  · simp only [Function.iterate_succ_apply, Function.iterate_zero, id_eq, tick_mk, Fsm.step,
      chiLane, if_neg h0, Pe.step_shift, Pe.step_storeChi, Pe.dataToMem_storeChi, if_true,
      Bool.false_eq_true, if_false]
    rw [show ∀ v : Lane, v ^^^ 0 = v from fun _ => BitVec.xor_zero]
    rfl

/-- A store of chi does not touch the lanes it reads. -/
theorem getD_store_chi (M : MemTable) {x : Nat} (p : Nat) (hx : x < 5) (v : Lane) (j : Nat) :
    (M.setIfInBounds (5 * p + x) v).getD (25 + 5 * p + j) 0 = M.getD (25 + 5 * p + j) 0 := by
  rw [Vec.getD_setIfInBounds, if_neg (by omega)]

/-- A lane takes three cycles. -/
theorem AtChi.next {n p x : Nat} (hx : x < 4) {M : MemTable} {s : System}
    (h : AtChi n p x M s) :
    AtChi n p (x + 1) (M.setIfInBounds (5 * p + x) (chiLane n M x p)) (tick^[3] s) := by
  obtain ⟨d, c, h2⟩ := h.store
  have h3 : tick^[3] s = tick (tick^[2] s) := rfl
  have h01 : fMod5P1 x = x + 1 := by interval_cases x <;> rfl
  have h12 : fMod5P1 (x + 1) = fMod5P2 x := by interval_cases x <;> rfl
  have h23 : fMod5P2 (x + 1) = fMod5P3 x := by interval_cases x <;> rfl
  rw [h3, h2]
  simp only [Fsm.step, if_neg (show ¬x = 4 by omega), tick_mk, Pe.step_hold, if_true,
    Bool.false_eq_true, if_false]
  have hx5 : x < 5 := by omega
  rw [AtChi, h12, h23, getD_store_chi M p hx5, getD_store_chi M p hx5, getD_store_chi M p hx5,
    ← h01]
  exact ⟨_, d, _, rfl⟩

/-- The last lane of a plane takes two cycles. -/
theorem AtChi.last {n p : Nat} (hn : n < 24) (hp : p < 5) {M : MemTable} {s : System}
    (h : AtChi n p 4 M s) :
    AtPlane n (p + 1) (M.setIfInBounds (5 * p + 4) (chiLane n M 4 p)) (tick^[2] s) := by
  obtain ⟨d, c, h2⟩ := h.store
  rw [h2, AtPlane, if_neg (Nat.succ_ne_zero p)]
  by_cases h4 : p = 4
  · subst h4
    rw [if_neg (by decide), AtRound]
    by_cases h23 : n = 23
    · subst h23
      exact ⟨⟨rfl, rfl, rfl, rfl, rfl⟩, rfl⟩
    · rw [if_pos (show n + 1 < 24 by omega), if_pos (show n + 1 < 24 by omega)]
      simp only [Fsm.step, if_neg h23, if_true]
      exact ⟨⟨rfl, rfl, rfl, rfl, rfl⟩, trivial⟩
  · rw [if_pos (by omega)]
    simp only [Fsm.step, if_neg h4, if_true]
    exact ⟨rfl, rfl, rfl, rfl, rfl⟩

/-- A plane takes eighteen cycles. -/
theorem AtPlane.plane {n p : Nat} (hn : n < 24) (hp : p < 5) {M : MemTable} {s : System}
    (h : AtPlane n p M s) : AtPlane n (p + 1) (storePlane n M p) (tick^[18] s) := by
  have hloop := Machine.iterate_loop (c := 3) (N := 4) (I := AtChi n p)
    (fun x hx M s => AtChi.next hx) (h.chi hp)
  have hlast := hloop.last hn hp
  rw [← Function.iterate_add_apply, ← Function.iterate_add_apply] at hlast
  rw [storePlane, List.range_succ, List.foldl_append]
  exact hlast

/-! ## The round -/

/-- A round takes 215 cycles. -/
theorem AtRound.round {n : Nat} (hn : n < 24) {M : MemTable} {s : System} (h : AtRound n M s) :
    AtRound (n + 1) (storeRound M n) (tick^[215] s) := by
  have h0 : AtSum n 0 M s := by
    have h := h.1
    rwa [if_pos hn, if_pos hn] at h
  have h1 := Machine.iterate_loop (c := 7) (N := 5) (I := AtSum n)
    (fun x hx M s => AtSum.sheet hx) h0
  have h2 := Machine.iterate_loop (c := 18) (N := 5) (I := AtSheet n)
    (fun x hx M s => AtSheet.sheet hx) (show AtSheet n 0 _ _ from h1)
  have h3 := Machine.iterate_loop (c := 18) (N := 5) (I := AtPlane n)
    (fun p hp M s => AtPlane.plane hn hp) (show AtPlane n 0 _ _ from h2)
  rw [← Function.iterate_add_apply, ← Function.iterate_add_apply] at h3
  exact h3

/-- The rounds up to the end. -/
theorem AtRound.permutation {M : MemTable} {s : System} (h : AtRound 0 M s) :
    AtRound 24 ((List.range 24).foldl storeRound M) (tick^[215 * 24] s) :=
  Machine.iterate_loop (fun _ hn _ _ => AtRound.round hn) h

end System

end ShakeAccel.LowArea
