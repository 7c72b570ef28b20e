import ShakeAccel.Accel.Job

/-!
# Runs of the accelerator with its RAM

From a reset, with the start bit held once it is set, the accelerator is at rest (`Resting`) and
then under way (`Underway`), whatever the length register does and whatever the CPU requests. The
core is given the 21 pairs of RAM words in order, is idle with their digest in the first cycle of
`READ`, and each cycle of the readout stores one lane in its own pair.
-/

namespace ShakeAccel

open Vec

/-- The core is idle: ready, with nothing in its buffer and no round begun. -/
structure Keccak.Idle (s : Keccak) : Prop where
  ready : s.ready = true
  bufferFull : s.bufferFull = false
  countIn : s.bufferIn.countInWords = 0
  counter : s.counterNrRounds = 0

namespace AccelWrapper

/-- The inputs of one clock cycle of the accelerator. -/
structure Cycle where
  rstN : Bool
  ports : WrapperIn

/-- The state that a cycle shows before its edge. -/
def settle (s : AccelWrapper) (rstN : Bool) : AccelWrapper := if rstN then s else s.asyncReset

/-- One clock cycle. -/
def step (s : AccelWrapper) (c : Cycle) : AccelWrapper := (s.settle c.rstN).clock c.rstN c.ports

/-- A cycle before the start bit is set; the CPU may access the RAM in it. -/
def Cycle.Before (c : Cycle) : Prop := c.rstN = true ∧ c.ports.start = false

/-- A cycle in which the start bit is held. -/
def Cycle.Held (c : Cycle) : Prop := c.rstN = true ∧ c.ports.start = true

/-- A run from reset: one or more edges in reset, cycles before the start bit is set, and then
cycles in which it is held. -/
structure RunFromReset (rst pre job : List Cycle) : Prop where
  reset_ne : rst ≠ []
  reset : ∀ c ∈ rst, c.rstN = false
  before : ∀ c ∈ pre, c.Before
  held : ∀ c ∈ job, c.Held

/-- The word on `din` in a cycle of `WRITE` in which the core sees `din_valid`. -/
def fed (s : AccelWrapper) (c : Cycle) : List Lane :=
  if s.accelFsmInst.state = .WRITE ∧ s.accelFsmInst.dinValidReg = true then
    [(s.accelFsmInst.toKeccak (s.toFsm c.ports)).din]
  else []

/-- The state whose lane `k` is pair `k` of the RAM, and 0 from lane 21 on. -/
def ramState (mem : Vector Word 42) : KState :=
  .ofLanes fun y x => if 5 * y + x < 21 then pairLane mem (5 * y + x) else 0

/-- Cycle `t` after the start, whatever the length register holds. -/
def Underway (mem : Vector Word 42) (t : Nat) (s : AccelWrapper) : Prop :=
  if t < 24 then Writing mem t s
  else if t < 48 then Waiting mem (t - 23) s
  else Reading mem (t - 48) s ∨ 48 < t ∧ s.accelFsmInst.state = .DONE

/-- Word `k` of the block in the RAM. -/
theorem getElem?_blockWords (mem : Vector Word 42) {k : Nat} (hk : k < 21) :
    (blockWords mem)[k]? = some (pairLane mem k) := by
  rw [blockWords, List.getElem?_map, List.getElem?_range hk, Option.map_some]

/-- The block in the RAM, XORed into the zero state. -/
theorem xorBlock_blockWords (mem : Vector Word 42) :
    xorBlock .zero (blockWords mem) = ramState mem := by
  apply KState.ext_lane
  intro y hy x hx
  rw [xorBlock, ramState, KState.lane_ofLanes hy hx, KState.lane_ofLanes hy hx, KState.zero,
    KState.lane_ofLanes hy hx, List.getD_eq_getElem?_getD]
  by_cases hk : 5 * y + x < 21
  · rw [if_pos hk, getElem?_blockWords mem hk]
    exact BitVec.zero_xor
  · rw [if_neg hk, List.getElem?_eq_none (by rw [length_blockWords]; omega)]
    exact BitVec.zero_xor

section
variable {mem : Vector Word 42} {s : AccelWrapper} {i : WrapperIn} {t : Nat}

/-- One edge in reset is enough, from any state. -/
theorem resting_of_reset {c : Cycle} (hc : c.rstN = false) :
    Resting (s.step c).ramInst.mem (s.step c) := by
  refine ⟨?_, rfl⟩
  rw [step, settle, hc]
  exact AccelFsm.atRest_of_reset s.accelFsmInst (s.asyncReset.toFsm c.ports)

theorem step_of_high {c : Cycle} (hc : c.rstN = true) :
    s.step c = s.clock true c.ports := by
  rw [step, settle, hc, if_pos rfl]

/-- When the start bit is set the accelerator is at rest. -/
theorem RunFromReset.resting {rst pre job : List Cycle}
    (h : RunFromReset rst pre job) (s0 : AccelWrapper) :
    Resting (Machine.run step s0 (rst ++ pre)).ramInst.mem
      (Machine.run step s0 (rst ++ pre)) := by
  obtain ⟨ini, c, rfl⟩ := List.eq_nil_or_concat rst |>.resolve_left h.reset_ne
  have hrst : (Machine.run step s0 (ini.concat c)).accelFsmInst.AtRest := by
    rw [List.concat_eq_append, Machine.run_append]
    exact (resting_of_reset (h.reset c (by simp))).control
  rw [Machine.run_append]
  refine Machine.run_invariant (I := fun s => Resting s.ramInst.mem s)
    (fun s c hc hs => ⟨?_, rfl⟩) ⟨hrst, rfl⟩ h.before
  rw [step_of_high hc.1]
  exact (hs.access hc.2).control

namespace Underway

/-- **A cycle after the start.** -/
theorem clock (h : Underway mem t s) (hi : i.start = true) :
    Underway mem (t + 1) (s.clock true i) := by
  unfold Underway at h ⊢
  by_cases h24 : t < 24
  · rw [if_pos h24] at h
    by_cases h23 : t = 23
    · subst h23
      rw [if_neg (by omega), if_pos (by omega)]
      exact h.finish hi
    · rw [if_pos (by omega)]
      exact h.clock hi (by omega)
  · rw [if_neg h24] at h
    rw [if_neg (by omega)]
    by_cases h48 : t < 48
    · rw [if_pos h48] at h
      by_cases h47 : t = 47
      · subst h47
        rw [if_neg (by omega)]
        exact .inl (h.finish hi)
      · rw [if_pos (by omega), show t + 1 - 23 = t - 23 + 1 by omega]
        exact h.clock hi (by omega)
    · rw [if_neg h48] at h
      rw [if_neg (by omega), show t + 1 - 48 = t - 48 + 1 by omega]
      rcases h with h | ⟨-, hd⟩
      · by_cases hl : 8 * max (t - 48) 1 < i.outputLengthByte.toNat
        · exact .inl (h.clock hi hl)
        · exact .inr ⟨by omega, (h.finish hi (Nat.not_lt.1 hl)).state⟩
      · refine .inr ⟨by omega, ?_⟩
        have hfsm : (s.clock true i).accelFsmInst = _ := AccelFsm.clock_done hd (i := s.toFsm i)
        rw [hfsm]
        exact hd

theorem run (h : Underway mem t s) {job : List Cycle} (hjob : ∀ c ∈ job, c.Held) :
    Underway mem (t + job.length) (Machine.run step s job) := by
  refine Machine.run_schedule (A := Cycle.Held) (T := t + job.length)
    (fun n s c _ hc hs => ?_) h hjob (Nat.le_refl _)
  rw [step_of_high hc.1]
  exact hs.clock hc.2

/-- Only the first 24 cycles are in `WRITE`. -/
theorem writing (h : Underway mem t s) (hs : s.accelFsmInst.state = .WRITE) : Writing mem t s := by
  unfold Underway at h
  split at h
  · exact h
  · split at h
    · exact absurd (h.state.symm.trans hs) (by decide)
    · rcases h with h | ⟨-, hd⟩
      · exact absurd (h.state.symm.trans hs) (by decide)
      · exact absurd (hd.symm.trans hs) (by decide)

theorem reading (h : Underway mem t s) (hs : s.accelFsmInst.state = .READ) :
    48 ≤ t ∧ Reading mem (t - 48) s := by
  unfold Underway at h
  split at h
  · exact absurd (h.state.symm.trans hs) (by decide)
  · split at h
    · exact absurd (h.state.symm.trans hs) (by decide)
    · rcases h with h | ⟨-, hd⟩
      · exact ⟨by omega, h⟩
      · exact absurd (hd.symm.trans hs) (by decide)

theorem first_read (h : Underway mem 48 s) : Reading mem 0 s := by
  rcases h with h | ⟨hlt, -⟩
  · exact h
  · exact absurd hlt (by decide)

/-- What a cycle gives to the core: pair `t-2`, in the cycles 2 to 22. -/
theorem fed_eq (h : Underway mem t s) (c : Cycle) :
    fed s c = if 2 ≤ t ∧ t ≤ 22 then [pairLane mem (t - 2)] else [] := by
  rw [fed]
  by_cases hs : s.accelFsmInst.state = .WRITE
  · have hw := h.writing hs
    rw [hw.dinValidReg]
    by_cases ht : 2 ≤ t ∧ t ≤ 22
    · rw [if_pos ⟨hs, decide_eq_true ht⟩, if_pos ht]
      exact congrArg (fun x => [x]) (hw.rdata ht.1 ht.2)
    · rw [if_neg fun hc => ht (of_decide_eq_true hc.2), if_neg ht]
  · rw [if_neg fun hc => hs hc.1, if_neg]
    intro ht
    unfold Underway at h
    rw [if_pos (by omega)] at h
    exact hs h.state

/-- What the cycles from cycle `t` on give to the core. -/
theorem collect_fed (h : Underway mem t s) {job : List Cycle}
    (hjob : ∀ c ∈ job, c.Held) :
    Machine.collect step fed s job =
      ((blockWords mem).take (t + job.length - 2)).drop (t - 2) := by
  induction job generalizing s t with
  | nil =>
    rw [Machine.collect, List.length_nil, Nat.add_zero]
    exact (List.drop_of_length_le (by rw [List.length_take]; omega)).symm
  | cons c job ih =>
    have hc := hjob c (.head _)
    have hnext : Underway mem (t + 1) (s.step c) := by
      rw [step_of_high hc.1]
      exact h.clock hc.2
    rw [Machine.collect, h.fed_eq c, ih hnext fun d hd => hjob d (.tail _ hd), List.length_cons,
      show t + 1 + job.length = t + (job.length + 1) by omega]
    by_cases ht : 2 ≤ t ∧ t ≤ 22
    · have hlen : t - 2 < ((blockWords mem).take (t + (job.length + 1) - 2)).length := by
        rw [List.length_take, length_blockWords]
        omega
      rw [if_pos ht, List.drop_eq_getElem_cons hlen, show t - 2 + 1 = t + 1 - 2 by omega]
      simp [blockWords]
    · rw [if_neg ht, List.nil_append]
      by_cases h2 : t < 2
      · rw [show t + 1 - 2 = t - 2 by omega]
      · rw [List.drop_of_length_le, List.drop_of_length_le] <;>
          rw [List.length_take, length_blockWords] <;> omega

end Underway

/-- The first cycle with the start bit set begins the job. -/
theorem RunFromReset.underway {rst pre job : List Cycle} (h : RunFromReset rst pre job)
    (s0 : AccelWrapper) {n : Nat} (hn : n < job.length) :
    Underway (Machine.run step s0 (rst ++ pre)).ramInst.mem n
      (Machine.run step s0 (rst ++ pre ++ job.take (n + 1))) := by
  obtain ⟨c, job, rfl⟩ : ∃ c cs, job = c :: cs := List.exists_cons_of_length_pos (by omega)
  rw [List.length_cons] at hn
  have hc := h.held c (.head _)
  have hstart : Underway (Machine.run step s0 (rst ++ pre)).ramInst.mem 0
      ((Machine.run step s0 (rst ++ pre)).step c) := by
    rw [step_of_high hc.1, Underway, if_pos (by decide)]
    exact (h.resting s0).launch hc.2
  have hrun := hstart.run fun d (hd : d ∈ job.take n) =>
    h.held d (.tail _ (List.mem_of_mem_take hd))
  rwa [Nat.zero_add, List.length_take, Nat.min_eq_left (by omega), ← Machine.run_cons,
    ← Machine.run_append] at hrun

end

/-! ## The absorb phase -/

/-- The accelerator has absorbed the block `mem` and is about to read the digest out. -/
structure Absorbed (mem : Vector Word 42) (s : AccelWrapper) : Prop where
  state : s.accelFsmInst.state = .READ
  regData : s.accelFsmInst.keccakInst.regData = permute24 (ramState mem)
  idle : s.accelFsmInst.keccakInst.Idle
  ram : s.ramInst.mem = mem

/-- The first cycle of `READ`. -/
theorem Absorbed.of_reading {mem : Vector Word 42} {s : AccelWrapper} (h : Reading mem 0 s) :
    Absorbed mem s where
  state := h.state
  regData := by rw [h.core.reg, digestState, xorBlock_blockWords]
  idle := ⟨h.core.computed, h.core.full, h.core.countIn, h.core.counter⟩
  ram := h.ram

/-- **The absorb phase of the accelerator.** The machine is first in `READ` 49 cycles after the
start bit is set, for every contents of the RAM; the core is then idle and its state is 24 rounds on
the block in the RAM, which is unchanged. -/
theorem absorb_phase (s0 : AccelWrapper) {rst pre job : List Cycle} (h : RunFromReset rst pre job)
    (hlen : 49 ≤ job.length) :
    (∀ n < 49, (Machine.run step s0 (rst ++ pre ++ job.take n)).accelFsmInst.state ≠ .READ) ∧
      Absorbed (Machine.run step s0 (rst ++ pre)).ramInst.mem
        (Machine.run step s0 (rst ++ pre ++ job.take 49)) := by
  refine ⟨fun n hn hs => ?_, .of_reading (h.underway s0 (n := 48) (by omega)).first_read⟩
  cases n with
  | zero =>
    rw [List.take_zero, List.append_nil] at hs
    exact absurd ((h.resting s0).control.state.symm.trans hs) (by decide)
  | succ n =>
    have h48 := ((h.underway s0 (n := n) (by omega)).reading hs).1
    omega

/-- A cycle without a request of the CPU. -/
def Cycle.quiet (rstN start : Bool) : Cycle := ⟨rstN, ⟨start, 16, ⟨false, 0, false, 0, 0⟩, 0, 0⟩⟩

/-- A reset, and then the start bit held with no request. -/
theorem RunFromReset.quiet (n : Nat) :
    RunFromReset [.quiet false false] [] (List.replicate n (.quiet true true)) where
  reset_ne := by simp
  reset := by simp [Cycle.quiet]
  before := by simp
  held := by
    intro c hc
    rw [List.eq_of_mem_replicate hc]
    exact ⟨rfl, rfl⟩

/-- A RAM whose words are numbered from 1. -/
def numbered : Vector Word 42 := .ofFn fun i => BitVec.ofNat 32 (i + 1)

/-- A power-up state: every register is 0. -/
def powerUp (mem : Vector Word 42) : AccelWrapper where
  accelFsmInst :=
    { state := .IDLE, dinValidS := false, dinValidReg := false, byteCntrS := 0, addrS := 0
      startHash := false, lastBlockS := false, done := false, accelState := 0
      keccakInst := .reset }
  ramInst := ⟨mem, 0, 0⟩

/-- The numbered words; lane 1 is made of the words 4 and 3. -/
theorem absorb_phase_numbered :
    (∀ n < 49, (Machine.run step (powerUp numbered) ([.quiet false false] ++ [] ++
      (List.replicate 49 (.quiet true true)).take n)).accelFsmInst.state ≠ .READ) ∧
      Absorbed numbered (Machine.run step (powerUp numbered)
        ([.quiet false false] ++ [] ++ (List.replicate 49 (.quiet true true)).take 49)) ∧
      (ramState numbered).lane 0 1 = 0x0000000400000003 :=
  have h := absorb_phase (powerUp numbered) (.quiet 49) (Nat.le_of_eq List.length_replicate.symm)
  ⟨h.1, h.2, by decide⟩

/-! ## Counters and data in lockstep -/

/-- The counters of a cycle agree with the data that the cycle moves. -/
structure Lockstep (s : AccelWrapper) (c : Cycle) : Prop where
  /-- The word on `din` is the pair that the buffer's word counter names. -/
  feed : s.accelFsmInst.state = .WRITE → s.accelFsmInst.dinValidReg = true →
    s.accelFsmInst.keccakInst.bufferIn.countInWords < 21 ∧
      (s.accelFsmInst.toKeccak (s.toFsm c.ports)).din =
        pairLane s.ramInst.mem s.accelFsmInst.keccakInst.bufferIn.countInWords
  /-- The word on `dout` is the lane that the address register names, and goes to its own pair. -/
  store : s.accelFsmInst.state = .READ → s.accelFsmInst.keccakInst.doutValid = true →
    ∃ j < 8, s.accelFsmInst.addrS = 2 * j ∧
      s.accelFsmInst.byteCntrS = 4 * s.accelFsmInst.addrS + 8 ∧
      s.accelFsmInst.keccakInst.dout = s.accelFsmInst.keccakInst.regData.toWords.getD j 0 ∧
      (s.step c).ramInst.mem = storeLane s.ramInst.mem j s.accelFsmInst.keccakInst.dout
  /-- No other cycle changes the RAM. -/
  keep : ¬(s.accelFsmInst.state = .READ ∧ s.accelFsmInst.keccakInst.doutValid = true) →
    (s.step c).ramInst.mem = s.ramInst.mem

section
variable {mem : Vector Word 42} {s : AccelWrapper} {c : Cycle}

theorem Lockstep.of_writing {k : Nat} (h : Writing mem k s) (hc : c.Held) : Lockstep s c where
  feed := by
    intro _ hv
    rw [h.dinValidReg] at hv
    obtain ⟨h2, h22⟩ := of_decide_eq_true hv
    have hcount : s.accelFsmInst.keccakInst.bufferIn.countInWords = k - 2 := by
      rw [h.core.countIn, List.length_take, length_blockWords, Nat.min_eq_left (by omega),
        Nat.mod_eq_of_lt (by omega)]
    rw [hcount, h.ram]
    exact ⟨by omega, h.rdata h2 h22⟩
  store := fun hs => absurd (h.state.symm.trans hs) (by decide)
  keep := by
    intro _
    rw [step_of_high hc.1, (h.ram_clock hc.2).1, h.ram]

theorem Lockstep.of_reading {r : Nat} (h : Reading mem r s) (hc : c.Held) : Lockstep s c where
  feed := fun hs => absurd (h.state.symm.trans hs) (by decide)
  store := by
    intro _ hv
    have hle := h.le
    have hr : 0 < r := by
      rw [h.emptying.doutValid] at hv
      exact of_decide_eq_true hv
    refine ⟨r - 1, by omega, h.addrS, by rw [h.byteCntrS, h.addrS]; omega, ?_, ?_⟩
    · rw [h.dout hr, h.core.reg]
    · rw [step_of_high hc.1, h.store_clock hc.2]
  keep := by
    intro hn
    have hr : r = 0 := by
      by_contra hr
      exact hn ⟨h.state, by rw [h.emptying.doutValid]; exact decide_eq_true (by omega)⟩
    subst hr
    rw [step_of_high hc.1, h.ram_clock hc.2, h.ram]

/-- A cycle in which the machine neither reads nor writes the RAM. -/
theorem Lockstep.of_memEn (hoff : s.accelFsmInst.memEn = false) (hc : c.Held) : Lockstep s c where
  feed := by
    intro hs
    rw [AccelFsm.memEn, hs] at hoff
    exact absurd hoff (by decide)
  store := by
    intro hs
    rw [AccelFsm.memEn, hs] at hoff
    exact absurd hoff (by decide)
  keep := fun _ => by rw [step_of_high hc.1, ram_clock_off hc.2 hoff]

theorem Underway.lockstep {t : Nat} (h : Underway mem t s) (hc : c.Held) : Lockstep s c := by
  unfold Underway at h
  split at h
  · exact .of_writing h hc
  · split at h
    · exact .of_memEn (by rw [AccelFsm.memEn, h.state]) hc
    · rcases h with h | ⟨-, hd⟩
      · exact .of_reading h hc
      · exact .of_memEn (by rw [AccelFsm.memEn, hd]) hc

end

/-- The core is given the pairs of RAM words in order, from the fourth cycle on. -/
theorem collect_fed (s0 : AccelWrapper) {rst pre job : List Cycle} (h : RunFromReset rst pre job) :
    Machine.collect step fed (Machine.run step s0 (rst ++ pre)) job =
      (blockWords (Machine.run step s0 (rst ++ pre)).ramInst.mem).take (job.length - 3) := by
  cases job with
  | nil => rfl
  | cons c job =>
    have hstart := h.underway s0 (n := 0) (by simp)
    rw [List.take_succ_cons, List.take_zero, Machine.run_append step s0 (rst ++ pre) [c],
      Machine.run_cons, Machine.run_nil] at hstart
    have hfed : fed (Machine.run step s0 (rst ++ pre)) c = [] := by
      rw [fed, if_neg]
      intro hs
      exact absurd ((h.resting s0).control.state.symm.trans hs.1) (by decide)
    have hcollect := hstart.collect_fed fun d (hd : d ∈ job) => h.held d (.tail _ hd)
    rw [Nat.zero_add, Nat.zero_sub, List.drop_zero] at hcollect
    rw [Machine.collect, hfed, List.nil_append, hcollect, List.length_cons,
      show job.length + 1 - 3 = job.length - 2 by omega]

/-- **The counters and the data streams stay in lockstep.** In every cycle with the start bit held
the counters name the data that are moved, and the core is given each pair of RAM words once, in
order. -/
theorem counters_in_lockstep (s0 : AccelWrapper) {rst pre job : List Cycle}
    (h : RunFromReset rst pre job) :
    (∀ n (hn : n < job.length),
        Lockstep (Machine.run step s0 (rst ++ pre ++ job.take n)) job[n]) ∧
      (24 ≤ job.length →
        Machine.collect step fed (Machine.run step s0 (rst ++ pre)) job =
          (List.range 21).map
            (pairLane (Machine.run step s0 (rst ++ pre)).ramInst.mem)) := by
  refine ⟨fun n hn => ?_, fun hlen => ?_⟩
  · have hc : job[n].Held := h.held _ (List.getElem_mem hn)
    cases n with
    | zero =>
      rw [List.take_zero, List.append_nil]
      exact .of_memEn (by rw [AccelFsm.memEn, (h.resting s0).control.state]) hc
    | succ n => exact (h.underway s0 (by omega)).lockstep hc
  · rw [collect_fed s0 h, List.take_of_length_le (by rw [length_blockWords]; omega), blockWords]

/-- The numbered words: the pairs that the core is given, and the first cycle of `READ` that stores
a lane. -/
theorem counters_in_lockstep_numbered :
    Machine.collect step fed (Machine.run step (powerUp numbered) ([.quiet false false] ++ []))
        (List.replicate 51 (.quiet true true)) = (List.range 21).map (pairLane numbered) ∧
      let s := Machine.run step (powerUp numbered) ([.quiet false false] ++ [] ++
        (List.replicate 51 (.quiet true true)).take 50)
      s.accelFsmInst.state = .READ ∧ s.accelFsmInst.keccakInst.doutValid = true ∧
        ∃ j < 8, s.accelFsmInst.addrS = 2 * j ∧
          s.accelFsmInst.byteCntrS = 4 * s.accelFsmInst.addrS + 8 ∧
          s.accelFsmInst.keccakInst.dout = s.accelFsmInst.keccakInst.regData.toWords.getD j 0 ∧
          (s.step (.quiet true true)).ramInst.mem =
            storeLane s.ramInst.mem j s.accelFsmInst.keccakInst.dout := by
  obtain ⟨hlock, hfed⟩ := counters_in_lockstep (powerUp numbered) (.quiet 51)
  refine ⟨hfed (by simp), ?_⟩
  intro s
  have hread : Reading numbered 1 s :=
    (((RunFromReset.quiet 51).underway (powerUp numbered) (n := 48) (by simp)).first_read).clock
      (i := (Cycle.quiet true true).ports) rfl (by decide)
  have hvalid : s.accelFsmInst.keccakInst.doutValid = true := hread.emptying.doutValid
  exact ⟨hread.state, hvalid, (hlock 50 (by simp)).store hread.state hvalid⟩

end AccelWrapper

end ShakeAccel
