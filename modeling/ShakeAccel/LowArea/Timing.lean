import ShakeAccel.LowArea.Coproc

/-!
# The control of the low-area coprocessor

The state machine looks at nothing but its own registers while it is busy, so the number of cycles
until it is back in `INIT` is a function of them (`Fsm.remaining`). The counters stay in the ranges
of their VHDL types and the addresses below word 55 (`Fsm.Valid`): the increments of `theta0` to
`theta3`, `theta10` and `theta14` rely on the order of the states for that.
-/

namespace ShakeAccel.LowArea.Fsm

/-- The ranges of the counters and of the address, and what a state knows about the counters and
about `done`. -/
structure Valid (f : Fsm) : Prop where
  sheet : f.counterSheet < 5
  plane : f.counterPlane < 5
  round : f.nrRoundInternal < 24
  addr : f.memAddr < 55
  busy : f.fsmSt ≠ .INIT → f.done = false
  state : match f.fsmSt with
    | .theta0 | .theta12bis => f.counterPlane = 0
    | .theta1 => f.counterPlane = 1
    | .theta2 => f.counterPlane = 2
    | .theta3 => f.counterPlane = 3
    | .theta4 | .theta5 | .theta6 => f.counterPlane = 4
    | .theta10 => f.counterPlane = 0 ∧ f.counterSheet = 0 ∨ f.counterPlane = 4 ∧ f.counterSheet < 4
    | .theta14 => f.counterPlane < 4
    | .chi0bis | .chi1 | .chi2 => f.counterSheet = 0
    | _ => True

/-- The cycles until the end of the round: 7 a sheet for the sums, 18 a sheet for theta, rho and pi,
18 a plane for chi. -/
def remainingInRound (f : Fsm) : Nat :=
  let s := f.counterSheet
  let p := f.counterPlane
  match f.fsmSt with
  | .INIT => 0
  | .theta0 => 180 + 7 * (4 - s) + 7
  | .theta1 => 180 + 7 * (4 - s) + 6
  | .theta2 => 180 + 7 * (4 - s) + 5
  | .theta3 => 180 + 7 * (4 - s) + 4
  | .theta4 => 180 + 7 * (4 - s) + 3
  | .theta5 => 180 + 7 * (4 - s) + 2
  | .theta6 => 180 + 7 * (4 - s) + 1
  | .theta10 => 90 + 18 * (4 - if p = 4 then s + 1 else s) + 18
  | .theta11 => 90 + 18 * (4 - s) + 17
  | .theta12 => 90 + 18 * (4 - s) + 16
  | .theta12bis => 90 + 18 * (4 - s) + 15
  | .theta13 => 90 + 18 * (4 - s) + 3 * (4 - p) + 2
  | .theta13bis => 90 + 18 * (4 - s) + 3 * (4 - p) + 1
  | .theta14 => 90 + 18 * (4 - s) + 3 * (4 - p)
  | .chi0 => 90
  | .chi0bis => 18 * (4 - p) + 18
  | .chi1 => 18 * (4 - p) + 17
  | .chi2 => 18 * (4 - p) + 16
  | .chi3 => 18 * (4 - p) + 3 * (4 - s) + 3
  | .chi4 => 18 * (4 - p) + 3 * (4 - s) + 2
  | .chi5 => 18 * (4 - p) + 3 * (4 - s) + 1

/-- The cycles until the machine is back in `INIT`. -/
def remaining (f : Fsm) : Nat :=
  if f.fsmSt = .INIT then 0 else 215 * (23 - f.nrRoundInternal) + f.remainingInRound

/-! ## Tables -/

theorem pi_lt : ∀ x < 5, ∀ y < 5, pi x y < 50 := by decide

theorem fMod5M1_lt (x : Nat) : fMod5M1 x < 5 := by
  unfold fMod5M1; split <;> decide

theorem fMod5P1_lt (x : Nat) : fMod5P1 x < 5 := by
  unfold fMod5P1; split <;> decide

theorem fMod5P2_lt (x : Nat) : fMod5P2 x < 5 := by
  unfold fMod5P2; split <;> decide

theorem fMod5P3_lt (x : Nat) : fMod5P3 x < 5 := by
  unfold fMod5P3; split <;> decide

/-! ## One cycle -/

/-- A busy machine does not look at `start`. -/
theorem step_of_busy {f : Fsm} (h : f.fsmSt ≠ .INIT) (start : Bool) :
    f.step start = f.step false := by
  obtain ⟨st, addr, cmd, enR, enW, s, p, n, d⟩ := f
  cases st
  case INIT => exact absurd rfl h
  all_goals rfl

theorem Valid.step {f : Fsm} (h : f.Valid) (start : Bool) : (f.step start).Valid := by
  obtain ⟨st, addr, cmd, enR, enW, s, p, n, d⟩ := f
  obtain ⟨hs, hp, hn, ha, hd, hst⟩ := h
  have h0 := pi_lt s hs p hp
  have h1 := fMod5M1_lt s
  have h2 := fMod5P1_lt s
  have h3 := fMod5P2_lt s
  have h4 := fMod5P3_lt s
  simp only at hs hp hn ha hd
  cases st <;> simp only at hst <;> simp only [Fsm.step] <;> (repeat' split) <;>
    constructor <;> simp only [true_and, true_or] <;> first | omega | simp [hd]

/-- Every cycle of a busy machine is one of those that remain. -/
theorem remaining_step {f : Fsm} (h : f.Valid) (hbusy : f.fsmSt ≠ .INIT) (start : Bool) :
    (f.step start).remaining + 1 = f.remaining := by
  obtain ⟨st, addr, cmd, enR, enW, s, p, n, d⟩ := f
  obtain ⟨hs, hp, hn, ha, -, hst⟩ := h
  simp only at hs hp hn ha
  cases st <;> simp only at hst <;> simp only [Fsm.step] <;> (repeat' split) <;>
    simp_all [remaining, remainingInRound] <;> omega

theorem remaining_eq_zero {f : Fsm} : f.remaining = 0 ↔ f.fsmSt = .INIT := by
  obtain ⟨st, addr, cmd, enR, enW, s, p, n, d⟩ := f
  cases st <;> simp [remaining, remainingInRound]

/-- `done` rises with the return to `INIT`. -/
theorem done_step {f : Fsm} (hbusy : f.fsmSt ≠ .INIT) (hd : f.done = false) (start : Bool) :
    (f.step start).done = true ↔ (f.step start).fsmSt = .INIT := by
  obtain ⟨st, addr, cmd, enR, enW, s, p, n, d⟩ := f
  simp only at hd
  cases st <;> simp only [Fsm.step] <;> (repeat' split) <;> simp_all

/-- The cycle that accepts `start` leaves 24 rounds of 215 cycles. -/
theorem start_of_init {f : Fsm} (h : f.fsmSt = .INIT) :
    (f.step true).Valid ∧ (f.step true).remaining = 215 * 24 := by
  obtain ⟨st, addr, cmd, enR, enW, s, p, n, d⟩ := f
  cases h
  exact ⟨⟨Nat.zero_lt_succ 4, Nat.zero_lt_succ 4, Nat.zero_lt_succ 23, Nat.zero_lt_succ 54,
    fun _ => rfl, rfl⟩, rfl⟩

/-! ## Runs -/

/-- A busy machine on the way to `INIT`. -/
theorem Valid.run {f : Fsm} (h : f.Valid) (ins : List Bool) :
    (Machine.run Fsm.step f ins).Valid :=
  Machine.run_invariant (A := fun _ => True) (fun _ start _ h => h.step start) h fun _ _ => trivial

/-- The cycles of a run are those that remain less and less, and their inputs do not matter. -/
theorem run_of_le {f : Fsm} (h : f.Valid) {ins : List Bool} (hlen : ins.length ≤ f.remaining) :
    (Machine.run Fsm.step f ins).remaining + ins.length = f.remaining ∧
      Machine.run Fsm.step f ins = (fun f => f.step false)^[ins.length] f := by
  induction ins generalizing f with
  | nil => exact ⟨rfl, rfl⟩
  | cons start ins ih =>
    rw [List.length_cons] at hlen ⊢
    have hbusy : f.fsmSt ≠ .INIT := fun h0 => by
      have := remaining_eq_zero.2 h0
      omega
    have hstep := remaining_step h hbusy start
    obtain ⟨h1, h2⟩ := ih (h.step start) (by omega)
    rw [Machine.run_cons]
    refine ⟨by omega, ?_⟩
    rw [h2, step_of_busy hbusy, Function.iterate_succ_apply]

/-- `done` is raised by the last of the remaining cycles and by none before. -/
theorem done_run {f : Fsm} (h : f.Valid) (hbusy : f.fsmSt ≠ .INIT) {ins : List Bool}
    (hlen : ins.length ≤ f.remaining) :
    (Machine.run Fsm.step f ins).done = true ↔ ins.length = f.remaining := by
  induction ins generalizing f with
  | nil =>
    have h0 := mt remaining_eq_zero.1 hbusy
    rw [Machine.run_nil, h.busy hbusy, List.length_nil]
    exact ⟨fun h => absurd h (by decide), fun h => absurd h.symm h0⟩
  | cons start ins ih =>
    rw [List.length_cons] at hlen ⊢
    have hstep := remaining_step h hbusy start
    rw [Machine.run_cons]
    by_cases hinit : (f.step start).fsmSt = .INIT
    · have h0 := remaining_eq_zero.2 hinit
      obtain rfl := List.length_eq_zero_iff.1 (show ins.length = 0 by omega)
      rw [Machine.run_nil, done_step hbusy (h.busy hbusy), List.length_nil]
      exact ⟨fun _ => by omega, fun _ => hinit⟩
    · rw [ih (h.step start) hinit (by omega)]
      omega

/-- A round has at most 215 cycles. -/
theorem Valid.remainingInRound_le {f : Fsm} (h : f.Valid) : f.remainingInRound ≤ 215 := by
  obtain ⟨st, addr, cmd, enR, enW, s, p, n, d⟩ := f
  obtain ⟨hs, hp, -, -, -, hst⟩ := h
  simp only at hs hp
  cases st <;> simp only at hst <;> simp only [remainingInRound] <;> (try split) <;> omega

/-- **The state machine from every reachable state.** Whatever `start` did since a reset, the
counters and the address are in range, at most 24 rounds of 215 cycles remain, `done` rises exactly
when the machine is back in `INIT`, and what it does until then does not depend on `start`. -/
theorem control_of_reset (f : Fsm) (hs : f.counterSheet < 5) (hp : f.counterPlane < 5)
    (ins more : List Bool) :
    let g := Machine.run Fsm.step f.reset ins
    let g' := Machine.run Fsm.step g more
    g.Valid ∧ g.remaining ≤ 215 * 24 ∧
      (g.fsmSt ≠ .INIT → more.length ≤ g.remaining →
        (g'.done = true ↔ more.length = g.remaining) ∧
        (g'.fsmSt = .INIT ↔ more.length = g.remaining) ∧
        ∀ more' : List Bool, more'.length = more.length → Machine.run Fsm.step g more' = g') := by
  intro g g'
  have hreset : f.reset.Valid :=
    ⟨hs, hp, Nat.zero_lt_succ 23, Nat.zero_lt_succ 54, fun _ => rfl, trivial⟩
  have hg : g.Valid := hreset.run ins
  refine ⟨hg, ?_, fun hbusy hlen => ⟨done_run hg hbusy hlen, ?_, fun more' h' => ?_⟩⟩
  · have := hg.remainingInRound_le
    rw [remaining]
    split <;> omega
  · have hrem : g'.remaining + more.length = g.remaining := (run_of_le hg hlen).1
    rw [← remaining_eq_zero]
    omega
  · have hrun : g' = (fun f => f.step false)^[more.length] g := (run_of_le hg hlen).2
    rw [(run_of_le hg (by omega)).2, hrun, h']

/-- Ten cycles after a start the counters belong to the second sheet. -/
theorem control_of_reset_ten :
    let g := Machine.run Fsm.step (Fsm.reset ⟨.chi5, 0, 0, true, true, 4, 4, 7, true⟩)
      (true :: List.replicate 9 false)
    g.Valid ∧ g.remaining ≤ 215 * 24 ∧
      (g.fsmSt ≠ .INIT → [true].length ≤ g.remaining →
        ((Machine.run Fsm.step g [true]).done = true ↔ [true].length = g.remaining) ∧
        ((Machine.run Fsm.step g [true]).fsmSt = .INIT ↔ [true].length = g.remaining) ∧
        ∀ more' : List Bool, more'.length = [true].length →
          Machine.run Fsm.step g more' = Machine.run Fsm.step g [true]) :=
  control_of_reset ⟨.chi5, 0, 0, true, true, 4, 4, 7, true⟩ (by decide) (by decide) _ [true]

end ShakeAccel.LowArea.Fsm
