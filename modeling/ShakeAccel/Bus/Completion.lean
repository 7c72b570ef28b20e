import ShakeAccel.Bus.Window
import ShakeAccel.Bus.Repeat

/-!
# Completion on the bus

In every reachable state a high `done` means `DONE` (`FsmInv`), and `DONE` stays until the next
reset. While `done` is high the read register of the register file is not updated, so a read of
status word 0 returns the word of the last read made before.
-/

namespace ShakeAccel

open AccelTopWrapper

/-! ## Reachable states -/

/-- What holds of the state machine's registers whatever its inputs are. -/
structure FsmInv (s : AccelFsm) : Prop where
  done : s.done = true → s.state = .DONE
  byteCntrS : s.byteCntrS % 8 = 0
  addrS : s.addrS ≤ 40

/-- The reset values satisfy it. -/
theorem FsmInv.reset (s : AccelFsm) : FsmInv s.asyncReset :=
  ⟨fun h => absurd h Bool.false_ne_true, rfl, Nat.zero_le _⟩

/-- Every edge keeps it, in every state and with any inputs: `done` is set by `DONE` alone, the byte
counter moves by whole lanes, and the address stays that of a lane of the block. -/
theorem FsmInv.clock {s : AccelFsm} (h : FsmInv s) (rstN : Bool) (i : FsmIn) :
    FsmInv (s.clock rstN i) := by
  have h8 := h.byteCntrS
  cases rstN with
  | false => exact ⟨fun hd => absurd hd Bool.false_ne_true, rfl, Nat.zero_le _⟩
  | true =>
    cases hs : s.state with
    | IDLE =>
      rw [AccelFsm.clock_idle hs]
      exact ⟨fun hd => absurd hd Bool.false_ne_true, h8, Nat.zero_le _⟩
    | WRITE =>
      by_cases hb : s.byteCntrS < 168
      · rw [AccelFsm.clock_write_request hs hb]
        exact ⟨fun hd => absurd hd Bool.false_ne_true, by simp only; omega, by simp only; omega⟩
      · rw [AccelFsm.clock_write_drain hs (by omega)]
        exact ⟨fun hd => absurd hd Bool.false_ne_true, h8, Nat.zero_le _⟩
    | WAIT_HASH =>
      rw [AccelFsm.clock_wait hs]
      exact ⟨fun hd => absurd hd Bool.false_ne_true, Nat.mod_self 8, Nat.zero_le _⟩
    | READ =>
      by_cases hl : i.outputLengthByte.toNat ≤ s.byteCntrS
      · rw [AccelFsm.clock_read_exit hs hl]
        exact ⟨fun hd => absurd hd Bool.false_ne_true, h8, Nat.zero_le _⟩
      · have h64 := i.outputLengthByte.isLt
        rw [AccelFsm.clock_read_next hs (by omega)]
        refine ⟨fun hd => absurd hd Bool.false_ne_true, ?_, ?_⟩
        · simp only
          split <;> omega
        · simp only
          split <;> omega
    | DONE =>
      rw [AccelFsm.clock_done hs]
      exact ⟨fun _ => hs, h8, Nat.zero_le _⟩

section
variable {P : TopParams} {s : AccelTopWrapper P} {c : Cycle}

/-- A state that a run from reset reaches, under any accesses and with any later resets. -/
def Reachable (s : AccelTopWrapper P) : Prop :=
  ∃ s0 : AccelTopWrapper P, ∃ rst cs, rst ≠ [] ∧ (∀ c ∈ rst, c.rstN = false) ∧
    s = Machine.run step (Machine.run step s0 rst) cs

/-- An asynchronous reset before the edge keeps it too. -/
theorem fsmInv_settle (h : FsmInv s.accelWrapperInst.accelFsmInst) (rstN : Bool) :
    FsmInv (s.settle rstN).accelWrapperInst.accelFsmInst := by
  cases rstN with
  | true => exact h
  | false => exact FsmInv.reset _

/-- A cycle of the top level is one edge of the state machine; its inputs do not matter here. -/
theorem fsmInv_step (h : FsmInv s.accelWrapperInst.accelFsmInst) :
    FsmInv (s.step c).accelWrapperInst.accelFsmInst :=
  (fsmInv_settle h c.rstN).clock c.rstN _

theorem Standby.fsmInv {ctrl : Vector Word P.ctrlWords} {mem : Vector Word 42}
    (h : Standby ctrl mem s) : FsmInv s.accelWrapperInst.accelFsmInst := by
  refine ⟨fun hd => ?_, ?_, ?_⟩
  · exact absurd (h.done.symm.trans hd) (by decide)
  · rw [h.byteCntrS]
  · rw [h.addrS]
    exact Nat.zero_le _

/-- It holds in every reachable state. -/
theorem Reachable.fsmInv (h : Reachable s) : FsmInv s.accelWrapperInst.accelFsmInst := by
  obtain ⟨s0, rst, cs, hne, hr, rfl⟩ := h
  exact Machine.run_invariant
    (I := fun s : AccelTopWrapper P => FsmInv s.accelWrapperInst.accelFsmInst)
    (A := fun _ => True) (fun _ _ _ h => fsmInv_step h) (standby_of_resets s0 hne hr).fsmInv
    fun _ _ => trivial

/-- The machine's addresses fit the ports of the RAM in every reachable state, so the cut to
`$clog2(MEM_DEPTH)` bits, which `portA` and `portB` leave out, would not change them. -/
theorem Reachable.ports_fit (h : Reachable s) :
    s.accelWrapperInst.accelFsmInst.portA.addr < 2 ^ Nat.clog 2 P.memDepth ∧
      s.accelWrapperInst.accelFsmInst.portB.addr < 2 ^ Nat.clog 2 P.memDepth := by
  have haddr := h.fsmInv.addrS
  have hfit := P.ram_addressed
  simp only [AccelFsm.portA, AccelFsm.portB]
  omega

/-! ## Reads while `done` is high -/

/-- What the driver looks for in status word 0: `done` is set and the state is `ST_DONE`. -/
def ShowsDone (w : Word) : Prop :=
  w.getLsbD 8 = true ∧ w.extractLsb' 0 4 = AccState.ST_DONE.encode

instance (w : Word) : Decidable (ShowsDone w) := inferInstanceAs (Decidable (_ ∧ _))

/-- A cycle with a read that decodes to status word 0. -/
structure ReadsStatus (P : TopParams) (c : Cycle) : Prop where
  rstN : c.rstN = true
  req : c.bus.axiMemReq = true
  read : c.bus.axiMemWe = false
  config : P.addrIsConfig c.bus.axiMemAddrTmp = true
  addr : P.cfgAddr c.bus.axiMemAddrTmp = P.ctrlWords

/-- `done` stays high until a reset, and as long the read register is kept. -/
theorem step_of_done_high (hd : s.done = true) (hs : FsmInv s.accelWrapperInst.accelFsmInst)
    (hr : c.rstN = true) :
    (s.step c).done = true ∧ (s.step c).configRegInst.rdata = s.configRegInst.rdata := by
  refine ⟨(step_of_done hr (hs.done hd)).2, ?_⟩
  rw [step, settle, hr, if_pos rfl, AccelTopWrapper.clock, hr, toConfigReg, hd]
  rfl

/-- The same over a run without a reset. -/
theorem run_of_done_high (hd : s.done = true) (hs : FsmInv s.accelWrapperInst.accelFsmInst)
    (cs : List Cycle) (hr : ∀ c ∈ cs, c.rstN = true) :
    (Machine.run step s cs).done = true ∧
      (Machine.run step s cs).configRegInst.rdata = s.configRegInst.rdata ∧
      FsmInv (Machine.run step s cs).accelWrapperInst.accelFsmInst := by
  refine Machine.run_invariant
    (I := fun t : AccelTopWrapper P =>
      t.done = true ∧ t.configRegInst.rdata = s.configRegInst.rdata ∧
        FsmInv t.accelWrapperInst.accelFsmInst)
    (A := fun c => c.rstN = true) ?_ ⟨hd, rfl, hs⟩ hr
  rintro t c hc ⟨hd, hrdata, hinv⟩
  obtain ⟨hd', hrdata'⟩ := step_of_done_high hd hinv hc
  exact ⟨hd', hrdata'.trans hrdata, fsmInv_step hinv⟩

/-- A read of the configuration window while `done` is high returns the old read data. -/
theorem read_of_done_high (hd : s.done = true) (hs : FsmInv s.accelWrapperInst.accelFsmInst)
    (hc : ReadsStatus P c) : (s.step c).axiMemRdata = s.configRegInst.rdata := by
  rw [step_axiMemRdata_config hc.config, (step_of_done_high hd hs hc.rstN).2]

/-- The words that the reads of the configuration window return over a run. -/
def configReads (s : AccelTopWrapper P) (cs : List Cycle) : List Word :=
  Machine.collect step
    (fun s c => (ConfigReg.select true s.configRegInst (s.toConfigReg c)).toList) s cs

theorem configReads_cons (s : AccelTopWrapper P) (c : Cycle) (cs : List Cycle) :
    configReads s (c :: cs) =
      (ConfigReg.select true s.configRegInst (s.toConfigReg c)).toList ++
        configReads (s.step c) cs :=
  rfl

/-- A cycle without a read of the configuration window. -/
theorem select_of_no_read
    (hn : (c.bus.axiMemReq && P.addrIsConfig c.bus.axiMemAddrTmp && !c.bus.axiMemWe) = false) :
    ConfigReg.select true s.configRegInst (s.toConfigReg c) = none := by
  rw [ConfigReg.select, if_neg]
  rw [toConfigReg]
  split
  · exact Bool.false_ne_true
  · rw [TopParams.configPort, hn]
    exact Bool.false_ne_true

/-- A run whose requests are all writes reads nothing. -/
theorem configReads_of_no_read {cs : List Cycle}
    (hn : ∀ c ∈ cs, c.bus.axiMemReq = true → c.bus.axiMemWe = true) (s : AccelTopWrapper P) :
    configReads s cs = [] := by
  induction cs generalizing s with
  | nil => rfl
  | cons c cs ih =>
    have hnone := select_of_no_read (s := s) (c := c) (by
      rw [Bool.and_right_comm]
      cases hq : c.bus.axiMemReq with
      | false => rfl
      | true => rw [hn c (.head _) hq]; rfl)
    rw [configReads_cons, hnone, ih fun c' hc' => hn c' (.tail _ hc')]
    rfl

/-- A reset clears the read register. -/
theorem rdata_of_resets (s : AccelTopWrapper P) {rst : List Cycle} (hne : rst ≠ [])
    (hr : ∀ c ∈ rst, c.rstN = false) : (Machine.run step s rst).configRegInst.rdata = 0 := by
  obtain ⟨cs, c, rfl⟩ := List.eq_nil_or_concat rst |>.resolve_left hne
  rw [List.concat_eq_append, Machine.run_append, Machine.run_cons, Machine.run_nil, step, settle,
    AccelTopWrapper.clock, hr c (by simp)]
  rfl

/-- The read register holds the word of the last read. -/
theorem rdata_run {cs : List Cycle} (hr : ∀ c ∈ cs, c.rstN = true) (s : AccelTopWrapper P) :
    (Machine.run step s cs).configRegInst.rdata =
      (configReads s cs).getLastD s.configRegInst.rdata := by
  induction cs generalizing s with
  | nil => rfl
  | cons c cs ih =>
    rw [Machine.run_cons, ih (fun c' hc' => hr c' (.tail _ hc')), step_rdata s (hr c (.head _)),
      configReads_cons]
    cases ConfigReg.select true s.configRegInst (s.toConfigReg c) with
    | none => rfl
    | some w =>
      rw [Option.toList_some, List.singleton_append, List.getLastD_cons]
      rfl

/-- **When completion is observable.** In every run from reset, once `done` is high, every read of
status word 0 shows it if and only if the last read of the configuration window that the CPU made
before happens to have returned a word of that form; if it made none, the read returns 0. -/
theorem completion_observable_iff (s0 : AccelTopWrapper P) {rst cs mid : List Cycle}
    (hne : rst ≠ []) (hrst : ∀ c ∈ rst, c.rstN = false) (hcs : ∀ c ∈ cs, c.rstN = true)
    (hd : (Machine.run step (Machine.run step s0 rst) cs).done = true)
    (hmid : ∀ c ∈ mid, c.rstN = true) (hc : ReadsStatus P c) :
    ShowsDone (Machine.run step (Machine.run step s0 rst) (cs ++ mid ++ [c])).axiMemRdata ↔
      ShowsDone ((configReads (Machine.run step s0 rst) cs).getLastD 0) := by
  have hreach : Reachable (Machine.run step (Machine.run step s0 rst) cs) :=
    ⟨s0, rst, cs, hne, hrst, rfl⟩
  obtain ⟨hd', hrdata, hinv⟩ := run_of_done_high hd hreach.fsmInv mid hmid
  rw [Machine.run_append, Machine.run_append, Machine.run_cons, Machine.run_nil,
    read_of_done_high hd' hinv hc, hrdata, rdata_run hcs,
    rdata_of_resets s0 hne hrst]

end

/-- A read at byte offset 4, which `pulpino_top`'s instance decodes to status word 0. -/
def statusRead : Cycle := ⟨true, ⟨true, 1, false, 0xf, 0⟩, .zero⟩

theorem statusRead_reads : ReadsStatus pulpinoTop statusRead :=
  ⟨rfl, rfl, rfl, by decide, by decide⟩

/-- The job of the empty message, without a read before it is complete. -/
def emptyJob : Segment := HashJob.segment ⟨16, []⟩ [resetCycle] 60

theorem emptyJob_runs : emptyJob.Runs ⟨16, []⟩ :=
  HashJob.segment_runs ⟨16, []⟩ [resetCycle] (by simp [resetCycle]) 60

theorem emptyJob_rst_ne : emptyJob.rst ≠ [] := List.cons_ne_nil resetCycle []

/-- It completes within the sixty idle cycles. -/
theorem emptyJob_done :
    (Machine.run step (Machine.run step (.blank : AccelTopWrapper pulpinoTop) emptyJob.rst)
      (emptyJob.pre ++ emptyJob.wait)).done = true := by
  have hcomplete := (emptyJob_runs.ended ⟨by decide, by decide, by decide, rfl⟩ emptyJob_rst_ne
    .blank).2 (by simp [emptyJob, HashJob.segment])
  rw [Segment.cycles, Machine.run_append] at hcomplete
  exact hcomplete.1

/-- No cycle of it is a read. -/
theorem emptyJob_no_read :
    ∀ c ∈ emptyJob.pre ++ emptyJob.wait,
      c.rstN = true ∧ (c.bus.axiMemReq = true → c.bus.axiMemWe = true) := by
  intro c hc
  rcases List.mem_append.1 hc with h | h
  · obtain ⟨b, hb, rfl⟩ := List.mem_map.1 h
    obtain ⟨w, -, rfl⟩ := List.mem_map.1 hb
    exact ⟨rfl, fun _ => rfl⟩
  · rw [List.eq_of_mem_replicate h]
    exact ⟨rfl, fun h => absurd h Bool.false_ne_true⟩

/-- A write of a word to control word 0 that looks like status word 0 after completion; its start
bit is 0. -/
def markWrite : BusIn := ⟨true, 0, true, 0xf, 0x104⟩

/-- A read of control word 0. -/
def markRead : BusIn := ⟨true, 0, false, 0xf, 0⟩

/-- These accesses in two cycles. -/
def markCycles : List Cycle := [markWrite, markRead].map fun b => ⟨true, b, .zero⟩

/-- The run of the empty message's job after these accesses, up to and with `done`. -/
def markedJob : List Cycle := markCycles ++ (emptyJob.pre ++ emptyJob.wait)

/-- The read selects control word 0, the only offset that is decoded right. -/
theorem select_markRead (r : ConfigReg pulpinoTop.ctrlWords pulpinoTop.statWords 32)
    (statVec : Vector Word pulpinoTop.statWords) :
    ConfigReg.select true r (pulpinoTop.configPort markRead statVec) =
      some (r.ctrlReg.get ⟨0, pulpinoTop.ctrlWords_pos⟩) :=
  rfl

section
variable {mem : Vector Word 42} {s : AccelTopWrapper pulpinoTop}

/-- The marked word is what the read returns. -/
theorem configReads_markCycles (h : Standby (.replicate _ 0) mem s) :
    configReads s markCycles = [0x104] := by
  have hwrite : Standby _ _ (s.step ⟨true, markWrite, .zero⟩) :=
    h.access ctrlStart_replicate_zero rfl
  rw [markCycles, List.map_cons, List.map_cons, List.map_nil, configReads_cons, configReads_cons,
    select_of_no_read (by decide), toConfigReg_of_low hwrite.done, select_markRead,
    hwrite.ctrlReg, show (markWrite.writeCtrl (P := pulpinoTop) (.replicate _ 0)).get
      ⟨0, pulpinoTop.ctrlWords_pos⟩ = 0x104 by decide]
  rfl

/-- The accesses leave the start bit 0, so the job after them runs as it does from reset. -/
theorem markedJob_done (h : Standby (.replicate _ 0) mem s) :
    (Machine.run step s markedJob).done = true := by
  have hlow : ctrlStart (loadCtrl (P := pulpinoTop) (.replicate _ 0) [markWrite, markRead]) =
      false := by decide
  have hmark := h.run_issues (issues_map [markWrite, markRead] .zero)
    ⟨ctrlStart_replicate_zero, by decide, trivial⟩
  obtain ⟨hlows, hstart, hlen, -⟩ := load_shake128HwStores (L := 16) (by decide) (by decide) []
    hlow (loadMem pulpinoTop mem [markWrite, markRead])
  have hrun := ((hmark.run_issues emptyJob_runs.stores hlows).jobTime hstart).run
    fun c hc => (emptyJob_runs.quiet c hc).readOnly
  rw [markedJob, Machine.run_append, Machine.run_append, markCycles, hrun.done, hlen]
  decide

end

/-- The job itself makes no further read. -/
theorem markedJob_reads (s : AccelTopWrapper pulpinoTop) :
    configReads s markedJob = configReads s markCycles := by
  rw [configReads, markedJob, Machine.collect_append, ← configReads, ← configReads,
    configReads_of_no_read fun c hc => (emptyJob_no_read c hc).2, List.append_nil]

/-- The condition is met by a read of a control word with the look of status word 0, and by no job
whose driver reads nothing. -/
theorem completion_observable_iff_marked :
    ShowsDone (Machine.run step
        (Machine.run step (.blank : AccelTopWrapper pulpinoTop) emptyJob.rst)
        (markedJob ++ List.replicate 2 ⟨true, .none, .zero⟩ ++ [statusRead])).axiMemRdata ∧
      ¬ShowsDone (Machine.run step
        (Machine.run step (.blank : AccelTopWrapper pulpinoTop) emptyJob.rst)
        (emptyJob.pre ++ emptyJob.wait ++ List.replicate 2 ⟨true, .none, .zero⟩ ++
          [statusRead])).axiMemRdata := by
  have hstandby := standby_of_resets (.blank : AccelTopWrapper pulpinoTop) emptyJob_rst_ne
    emptyJob_runs.reset
  have hidle : ∀ c ∈ List.replicate 2 (⟨true, .none, .zero⟩ : Cycle), c.rstN = true := by
    intro c hc
    rw [List.eq_of_mem_replicate hc]
  have hhigh : ∀ c ∈ markedJob, c.rstN = true := by
    intro c hc
    rcases List.mem_append.1 hc with hc | hc
    · exact (issues_map [markWrite, markRead] .zero).high c hc
    · exact (emptyJob_no_read c hc).1
  refine ⟨?_, ?_⟩
  · rw [completion_observable_iff .blank emptyJob_rst_ne emptyJob_runs.reset hhigh
      (markedJob_done hstandby) hidle statusRead_reads, markedJob_reads,
      configReads_markCycles hstandby]
    decide
  · rw [completion_observable_iff .blank emptyJob_rst_ne emptyJob_runs.reset
      (fun c hc => (emptyJob_no_read c hc).1) emptyJob_done hidle statusRead_reads,
      configReads_of_no_read fun c hc => (emptyJob_no_read c hc).2]
    decide

/-- After this job `done` has been high for two cycles, and a read of status word 0 returns 0. -/
theorem completion_not_observable :
    (Machine.run step (Machine.run step (.blank : AccelTopWrapper pulpinoTop) emptyJob.rst)
        (emptyJob.pre ++ emptyJob.wait)).done = true ∧
      ReadsStatus pulpinoTop statusRead ∧
      ¬ShowsDone (Machine.run step
        (Machine.run step (.blank : AccelTopWrapper pulpinoTop) emptyJob.rst)
        (emptyJob.pre ++ emptyJob.wait ++ List.replicate 2 ⟨true, .none, .zero⟩ ++
          [statusRead])).axiMemRdata := by
  refine ⟨emptyJob_done, statusRead_reads, ?_⟩
  have hreach : Reachable (Machine.run step
      (Machine.run step (.blank : AccelTopWrapper pulpinoTop) emptyJob.rst)
      (emptyJob.pre ++ emptyJob.wait)) := ⟨_, _, _, emptyJob_rst_ne, emptyJob_runs.reset, rfl⟩
  obtain ⟨hd, hrdata, hinv⟩ := run_of_done_high emptyJob_done hreach.fsmInv
    (List.replicate 2 ⟨true, .none, .zero⟩) fun c hc => by rw [List.eq_of_mem_replicate hc]
  rw [Machine.run_append, Machine.run_append, Machine.run_cons, Machine.run_nil,
    read_of_done_high hd hinv statusRead_reads, hrdata,
    rdata_run (fun c hc => (emptyJob_no_read c hc).1),
    configReads_of_no_read (fun c hc => (emptyJob_no_read c hc).2),
    rdata_of_resets _ emptyJob_rst_ne emptyJob_runs.reset]
  decide

end ShakeAccel
