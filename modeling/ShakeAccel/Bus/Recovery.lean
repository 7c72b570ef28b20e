import ShakeAccel.Bus.Isolation

/-!
# Reset as a recovery path

A reset keeps the RAM, the read registers, `din_valid_reg` and `accel_state`. A job that rewrites
the whole RAM after it depends on none of them: two such jobs, from any two states, go through the
same states (`reset_recovers`).
-/

namespace ShakeAccel

open AccelTopWrapper

section
variable {P : TopParams} {s t : AccelTopWrapper P} {c d : Cycle}

/-! ## Rewriting the RAM -/

/-- Every byte of the RAM is written by one of the requests. -/
def Covers (P : TopParams) (bs : List BusIn) : Prop :=
  ∀ i < 168, ∃ b ∈ bs, (P.dataPort b).WritesByte i

/-- A byte that is written by one of the requests does not depend on the RAM before them. -/
theorem memByte_loadMem_congr {bs : List BusIn} {mem mem' : Vector Word 42} {i : Nat} (hi : i < 168)
    (h : (∃ b ∈ bs, (P.dataPort b).WritesByte i) ∨ memByte mem i = memByte mem' i) :
    memByte (loadMem P mem bs) i = memByte (loadMem P mem' bs) i := by
  induction bs generalizing mem mem' with
  | nil => exact h.resolve_left (by simp)
  | cons b bs ih =>
    rw [loadMem_cons, loadMem_cons]
    apply ih
    rw [BusIn.writeMem, BusIn.writeMem, memByte_write _ _ hi, memByte_write _ _ hi]
    by_cases hb : (P.dataPort b).WritesByte i
    · rw [if_pos hb, if_pos hb]
      exact .inr rfl
    · rw [if_neg hb, if_neg hb]
      rcases h with ⟨b', hb', hw⟩ | h
      · cases hb' with
        | head => exact absurd hw hb
        | tail _ hmem => exact .inl ⟨b', hmem, hw⟩
      · exact .inr h

theorem Covers.loadMem_eq {bs : List BusIn} (h : Covers P bs) (mem mem' : Vector Word 42) :
    loadMem P mem bs = loadMem P mem' bs :=
  mem_ext_bytes fun i hi => memByte_loadMem_congr hi (.inl (h i hi))

/-! ## What an edge of the machine depends on -/

/-- The core reads `din` only if it is valid. -/
theorem KeccakBuffer.clock_din {s : KeccakBuffer} {i : BufferIn} (hv : i.dinBufferInValid = false)
    (din : Lane) : s.clock { i with dinBufferIn := din } = s.clock i := by
  simp only [clock, hv, Bool.false_and, Bool.false_eq_true, if_false]

theorem Keccak.clock_congr {s : Keccak} {i j : KeccakIn} (hs : i.start = j.start)
    (hv : i.dinValid = j.dinValid) (hl : i.lastBlock = j.lastBlock)
    (hd : i.dinValid = true → i.din = j.din) : s.clock i = s.clock j := by
  obtain ⟨start, din, dinValid, lastBlock⟩ := i
  obtain ⟨start', din', dinValid', lastBlock'⟩ := j
  simp only at hs hv hl hd
  subst hs hv hl
  cases dinValid with
  | true => rw [hd rfl]
  | false =>
    rw [Keccak.clock, Keccak.clock,
      show s.toBuffer ⟨start, din, false, lastBlock⟩ =
        { s.toBuffer ⟨start, din', false, lastBlock⟩ with dinBufferIn := din } from rfl,
      KeccakBuffer.clock_din rfl]
    simp only [clockMain]

/-- The state machine reads the RAM's words only through a valid `din`. -/
theorem AccelFsm.clock_congr {s : AccelFsm} {i j : FsmIn} (hs : i.start = j.start)
    (hl : i.outputLengthByte = j.outputLengthByte)
    (hd : s.dinValidReg = true →
      i.memRdataB ++ i.memRdataA = j.memRdataB ++ j.memRdataA) :
    s.clock true i = s.clock true j := by
  have hcore : s.keccakInst.clock (s.toKeccak i) = s.keccakInst.clock (s.toKeccak j) :=
    Keccak.clock_congr rfl rfl rfl hd
  simp only [clock, if_true, hcore, coproControl, nState, hs, hl]

/-! ## Standing by -/

/-- The registers of the state machine in `IDLE`, after an edge out of reset. -/
def AccelFsm.idle : AccelFsm where
  state := .IDLE
  dinValidS := false
  dinValidReg := false
  byteCntrS := 0
  addrS := 0
  startHash := false
  lastBlockS := false
  done := false
  accelState := AccState.ST_IDLE.encode
  keccakInst := .reset

/-- One edge loads every register, those without a reset included. -/
theorem Standby.fsm_step {ctrl : Vector Word P.ctrlWords} {mem : Vector Word 42}
    (h : Standby ctrl mem s) (hr : c.rstN = true) :
    (s.step c).accelWrapperInst.accelFsmInst =
      { AccelFsm.idle with state := if ctrlStart ctrl then .WRITE else .IDLE } := by
  have hin : (s.toWrapper c).start = ctrlStart ctrl := h.start_eq c
  have hfsm : (s.step c).accelWrapperInst.accelFsmInst = _ :=
    (congrArg AccelWrapper.accelFsmInst (step_accelWrapperInst hr)).trans
      (AccelFsm.clock_idle (i := s.accelWrapperInst.toFsm (s.toWrapper c)) h.state)
  rw [hfsm, AccelFsm.common, h.atRest.core_clock, h.dinValidS, h.byteCntrS, h.state,
    show (s.accelWrapperInst.toFsm (s.toWrapper c)).start = ctrlStart ctrl from hin]
  rfl

/-- While the requests are made the machine stays in `IDLE` with its core in reset, and from the
first edge on every register has a fixed value. -/
theorem Standby.fsm_issues {bs : List BusIn} {cs : List Cycle} (hi : Issues bs cs)
    {ctrl : Vector Word P.ctrlWords} {mem : Vector Word 42} {s : AccelTopWrapper P}
    (h : Standby ctrl mem s) (hs : StartsLow ctrl bs) :
    ∀ k < cs.length, (s.stateAt cs (k + 1)).accelWrapperInst.accelFsmInst = .idle := by
  induction hi generalizing ctrl mem s with
  | nil => exact fun k hk => absurd hk (Nat.not_lt_zero k)
  | @idle b bs c cs hc _ ih =>
    have hstep := h.fsm_step hc.1
    rw [hs.1] at hstep
    rintro (_ | k) hk
    · exact hstep
    · exact ih (h.wait hs.1 hc) hs k (Nat.lt_of_succ_lt_succ hk)
  | @request b bs c cs hr hb _ ih =>
    subst hb
    have hstep := h.fsm_step hr
    rw [hs.1] at hstep
    rintro (_ | k) hk
    · exact hstep
    · exact ih (h.access hs.1 hr) hs.2 k (Nat.lt_of_succ_lt_succ hk)

/-! ## Two jobs in step -/

/-- Two jobs in the same cycle, with the same control words and the same RAM before them. -/
structure InStep (ctrl : Vector Word P.ctrlWords) (mem : Vector Word 42) (n : Nat)
    (s t : AccelTopWrapper P) : Prop where
  left : Running ctrl mem n s
  right : Running ctrl mem n t
  fsm : s.accelWrapperInst.accelFsmInst = t.accelWrapperInst.accelFsmInst

section
variable {ctrl : Vector Word P.ctrlWords} {mem : Vector Word 42} {n : Nat}

theorem Standby.inStep (hs : Standby ctrl mem s) (ht : Standby ctrl mem t)
    (hstart : ctrlStart ctrl = true) (hc : KeepsCtrl ctrl c) (hd : KeepsCtrl ctrl d) :
    InStep ctrl mem 0 (s.step c) (t.step d) :=
  ⟨hs.running hstart hc, ht.running hstart hd, by rw [hs.fsm_step hc.1, ht.fsm_step hd.1]⟩

theorem InStep.clock (h : InStep ctrl mem n s t) (hc : KeepsCtrl ctrl c) (hd : KeepsCtrl ctrl d)
    (hn : n < doneCycle (ctrlLength ctrl)) : InStep ctrl mem (n + 1) (s.step c) (t.step d) := by
  refine ⟨h.left.clock hc hn, h.right.clock hd hn, ?_⟩
  have hword : s.controlWord0 = t.controlWord0 := by
    rw [controlWord0, controlWord0, h.left.ctrlReg, h.right.ctrlReg]
  rw [step_accelWrapperInst hc.1, step_accelWrapperInst hd.1, AccelWrapper.clock,
    AccelWrapper.clock, ← h.fsm]
  refine AccelFsm.clock_congr (congrArg (·.getLsbD 0) hword)
    (congrArg (·.extractLsb' 8 6) hword) fun hv => ?_
  -- both read registers hold the same pair of the block
  exact (h.left.job.rdata hn hv).trans (h.right.job.rdata hn (h.fsm ▸ hv)).symm

theorem InStep.run {cs ds : List Cycle} (hlen : cs.length = ds.length) (h : InStep ctrl mem n s t)
    (hcs : ∀ c ∈ cs, KeepsCtrl ctrl c) (hds : ∀ d ∈ ds, KeepsCtrl ctrl d)
    (hn : n + cs.length ≤ doneCycle (ctrlLength ctrl)) :
    InStep ctrl mem (n + cs.length) (Machine.run step s cs) (Machine.run step t ds) :=
  Machine.run_lockstep (R := InStep ctrl mem) (A := KeepsCtrl ctrl) (B := KeepsCtrl ctrl)
    (fun _ _ _ _ _ hn hc hd h => h.clock hc hd hn) h hlen hcs hds hn

end

/-! ## Jobs after a reset -/

/-- Requests after a reset that rewrite the whole RAM and, with the last of them, set the start
bit. -/
structure FullLoad (P : TopParams) (bs : List BusIn) : Prop where
  low : StartsLow (P := P) (.replicate _ 0) bs
  start : ctrlStart (loadCtrl (P := P) (.replicate _ 0) bs) = true
  covers : Covers P bs

/-- The cycles of a job: a reset of one edge or more, the requests in any schedule, then accesses
that leave the control words alone. -/
structure ResetJob (P : TopParams) (bs : List BusIn) (rst pre cs : List Cycle) : Prop where
  reset_ne : rst ≠ []
  reset : ∀ c ∈ rst, c.rstN = false
  loads : Issues bs pre
  keeps : ∀ c ∈ cs, KeepsCtrl (loadCtrl (P := P) (.replicate _ 0) bs) c

/-- How many cycles after the last request the job is first in `DONE`. -/
def jobCycles (P : TopParams) (bs : List BusIn) : Nat :=
  doneCycle (ctrlLength (loadCtrl (P := P) (.replicate _ 0) bs)) + 1

section
variable {bs : List BusIn} {rst pre cs : List Cycle}

theorem FullLoad.ne_nil (h : FullLoad P bs) : bs ≠ [] := by
  rintro rfl
  exact Bool.false_ne_true (ctrlStart_replicate_zero.symm.trans h.start)

/-- The state machine while the requests are made. -/
theorem ResetJob.loading (h : ResetJob P bs rst pre cs) (hbs : FullLoad P bs)
    (s : AccelTopWrapper P) {k : Nat} (hk : k ≤ pre.length) :
    ((Machine.run step s rst).stateAt (pre ++ cs) k).fsmState = .IDLE ∧
      ((Machine.run step s rst).stateAt (pre ++ cs) k).accelWrapperInst.accelFsmInst.keccakInst =
        .reset ∧
      (0 < k → ((Machine.run step s rst).stateAt (pre ++ cs) k).accelWrapperInst.accelFsmInst =
        .idle) := by
  have hstandby := standby_of_resets s h.reset_ne h.reset
  have hfsm := hstandby.fsm_issues h.loads hbs.low
  rw [AccelTopWrapper.stateAt, List.take_append_of_le_length hk, ← AccelTopWrapper.stateAt]
  cases k with
  | zero => exact ⟨hstandby.state, hstandby.core, fun h0 => absurd h0 (Nat.lt_irrefl 0)⟩
  | succ k =>
    have hidle := hfsm k hk
    exact ⟨congrArg AccelFsm.state hidle, congrArg AccelFsm.keccakInst hidle, fun _ => hidle⟩

end

/-- **Reset recovers from every state.** Two jobs that make the same requests after a reset, from
any two states and in any two schedules: while the requests are made the state machines and the
cores are equal, from the last request until `DONE` all their registers and the RAMs are equal cycle
by cycle, and both are first in `DONE` in the same cycle. -/
theorem reset_recovers {bs : List BusIn} (hbs : FullLoad P bs) (s t : AccelTopWrapper P)
    {rst pre cs rst' pre' cs' : List Cycle} (h : ResetJob P bs rst pre cs)
    (h' : ResetJob P bs rst' pre' cs') (hlen : cs.length = cs'.length) :
    (∀ k ≤ pre.length, ∀ k' ≤ pre'.length,
      ((Machine.run step s rst).stateAt (pre ++ cs) k).fsmState =
          ((Machine.run step t rst').stateAt (pre' ++ cs') k').fsmState ∧
        ((Machine.run step s rst).stateAt (pre ++ cs) k).accelWrapperInst.accelFsmInst.keccakInst =
          ((Machine.run step t rst').stateAt (pre' ++ cs')
            k').accelWrapperInst.accelFsmInst.keccakInst) ∧
    (∀ n ≤ cs.length, n ≤ jobCycles P bs →
      ((Machine.run step s rst).stateAt (pre ++ cs) (pre.length + n)).accelWrapperInst.accelFsmInst =
          ((Machine.run step t rst').stateAt (pre' ++ cs')
            (pre'.length + n)).accelWrapperInst.accelFsmInst ∧
        ((Machine.run step s rst).stateAt (pre ++ cs) (pre.length + n)).ram =
          ((Machine.run step t rst').stateAt (pre' ++ cs') (pre'.length + n)).ram) ∧
    (jobCycles P bs ≤ cs.length →
      FirstDone (Machine.run step s rst) (pre ++ cs) (pre.length + jobCycles P bs) ∧
        FirstDone (Machine.run step t rst') (pre' ++ cs') (pre'.length + jobCycles P bs)) := by
  have hs := standby_of_resets s h.reset_ne h.reset
  have ht := standby_of_resets t h'.reset_ne h'.reset
  refine ⟨fun k hk k' hk' => ?_, fun n hn hjob => ?_, fun hlong => ⟨?_, ?_⟩⟩
  · have hload := h.loading hbs s hk
    have hload' := h'.loading hbs t hk'
    exact ⟨hload.1.trans hload'.1.symm, hload.2.1.trans hload'.2.1.symm⟩
  · have hready := hs.run_issues h.loads hbs.low
    have hready' := ht.run_issues h'.loads hbs.low
    rw [hbs.covers.loadMem_eq _ (Machine.run step s rst).accelWrapperInst.ramInst.mem] at hready'
    cases n with
    | zero =>
      have hne := hbs.ne_nil
      have hidle := (h.loading hbs s (Nat.le_refl _)).2.2 (h.loads.length_pos hne)
      have hidle' := (h'.loading hbs t (Nat.le_refl _)).2.2 (h'.loads.length_pos hne)
      refine ⟨hidle.trans hidle'.symm, ?_⟩
      rw [Nat.add_zero, Nat.add_zero, AccelTopWrapper.stateAt, AccelTopWrapper.stateAt,
        List.take_left, List.take_left]
      exact hready.ram.trans hready'.ram.symm
    | succ n =>
      obtain ⟨c, cs, rfl⟩ : ∃ c xs, cs = c :: xs := List.exists_cons_of_length_pos (by omega)
      obtain ⟨d, ds, rfl⟩ : ∃ d xs, cs' = d :: xs := List.exists_cons_of_length_pos (by omega)
      rw [List.length_cons, List.length_cons] at hlen
      rw [List.length_cons] at hn
      rw [jobCycles] at hjob
      have htake : (cs.take n).length = n := List.length_take_of_le (by omega)
      have htake' : (ds.take n).length = n := List.length_take_of_le (by omega)
      have hrun := (hready.inStep hready' hbs.start (h.keeps c (.head _))
        (h'.keeps d (.head _))).run (htake.trans htake'.symm)
          (fun c' hc' => h.keeps c' (.tail _ (List.mem_of_mem_take hc')))
          (fun d' hd' => h'.keeps d' (.tail _ (List.mem_of_mem_take hd'))) (by omega)
      simp only [AccelTopWrapper.stateAt, List.take_length_add_append, List.take_succ_cons,
        Machine.run_append, Machine.run_cons]
      exact ⟨hrun.fsm, hrun.left.job.ram_eq hrun.right.job⟩
  · exact hs.firstDone h.loads hbs.low hbs.start h.keeps hlong
  · exact ht.firstDone h'.loads hbs.low hbs.start h'.keeps (hlen ▸ hlong)

end

/-! ## The driver's stores -/

/-- The driver's stores rewrite the whole RAM. -/
theorem shake128HwStores_covers (L : Nat) (m : List Byte) :
    Covers pulpinoTop ((shake128HwStores L m).map Store.bus) := by
  intro i hi
  refine ⟨Store.bus ⟨accelDataBase + i, accelDataByte m i⟩, ?_,
    (dataStore_writesByte hi _ i).2 rfl⟩
  rw [shake128HwStores_bus]
  refine .tail _ (List.mem_append_left _ (List.mem_map.2 ⟨i, List.mem_range.2 ?_, rfl⟩))
  rwa [rateBytes]

theorem shake128HwStores_fullLoad {L : Nat} (h1 : 1 ≤ L) (h64 : L ≤ 64) (m : List Byte) :
    FullLoad pulpinoTop ((shake128HwStores L m).map Store.bus) := by
  obtain ⟨hlow, hstart, -, -⟩ := load_shake128HwStores h1 h64 m ctrlStart_replicate_zero
    (.replicate 42 0)
  exact ⟨hlow, hstart, shake128HwStores_covers L m⟩

/-- The cycles of the empty message's job, as they are in `emptyJob`. -/
theorem emptyJob_resetJob {cs : List Cycle}
    (h : ∀ ctrl : Vector Word pulpinoTop.ctrlWords, ∀ c ∈ cs, KeepsCtrl ctrl c) :
    ResetJob pulpinoTop ((shake128HwStores 16 []).map Store.bus) emptyJob.rst emptyJob.pre cs where
  reset_ne := emptyJob_rst_ne
  reset := emptyJob_runs.reset
  loads := emptyJob_runs.stores
  keeps := h _

theorem dataWrite_keepsCtrl (ctrl : Vector Word pulpinoTop.ctrlWords) :
    KeepsCtrl ctrl dataWrite := by
  have hcfg : pulpinoTop.addrIsConfig 0x20000 = false := by decide
  refine ⟨rfl, ?_⟩
  simp [BusIn.writeCtrl, ConfigReg.writeCtrl, TopParams.configPort, dataWrite, hcfg]

/-- A job that is interrupted in its permutation and repeated after a reset, against the same job
from power-up during which the CPU writes to the data window. -/
theorem reset_recovers_emptyJob :
    ((Machine.run step (Machine.run step emptyJobStart (.replicate 30 ⟨true, .none, .zero⟩))
          emptyJob.rst).stateAt (emptyJob.pre ++ .replicate 60 ⟨true, .none, .zero⟩)
        (emptyJob.pre.length + 52)).ram =
      ((Machine.run step (.blank : AccelTopWrapper pulpinoTop) emptyJob.rst).stateAt
        (emptyJob.pre ++ .replicate 60 dataWrite) (emptyJob.pre.length + 52)).ram := by
  obtain ⟨-, -, hlength, -⟩ := load_shake128HwStores (L := 16) (by decide) (by decide) []
    ctrlStart_replicate_zero (.replicate 42 0)
  refine ((reset_recovers (shake128HwStores_fullLoad (by decide) (by decide) []) _ _
    (emptyJob_resetJob ?_) (emptyJob_resetJob ?_) (by simp)).2.1 52 (by simp) ?_).2
  · intro ctrl c hc
    rw [List.eq_of_mem_replicate hc]
    exact Cycle.ReadOnly.keepsCtrl ⟨rfl, rfl⟩ ctrl
  · intro ctrl c hc
    rw [List.eq_of_mem_replicate hc]
    exact dataWrite_keepsCtrl ctrl
  · rw [jobCycles, hlength]
    decide

end ShakeAccel
