import ShakeAccel.Bus.Completion

/-!
# A running job and the bus

While the start bit is 1 the accelerator owns both ports of the RAM. Two runs that agree on the
accelerator and on control word 0 stay equal whatever the CPU does on the bus, as long as it does
not write to control word 0 (`job_isolated`).
-/

namespace ShakeAccel

open AccelTopWrapper

/-! ## What the accelerator reads -/

/-- A read within the depth of the memory does not depend on the undefined word. -/
theorem TrueDpRam.read_congr {depth : Nat} (mem : Vector Word depth) {p : RamPort}
    (old oob oob' : Word) (h : p.addr < depth) :
    TrueDpRam.read mem p old oob = TrueDpRam.read mem p old oob' := by
  rw [TrueDpRam.read, TrueDpRam.read, dif_pos h, dif_pos h]

/-- With `start` 1 a cycle of the accelerator depends on its registers and on the length alone. -/
theorem AccelWrapper.clock_owned {s : AccelWrapper} (ha : s.accelFsmInst.addrS ≤ 40)
    {i j : WrapperIn} (hi : i.start = true) (hj : j.start = true)
    (hl : i.outputLengthByte = j.outputLengthByte) : s.clock true i = s.clock true j := by
  have hA : s.accelFsmInst.portB.addr < 42 := by
    simp only [AccelFsm.portB]
    omega
  have hB : s.accelFsmInst.portA.addr < 42 := by
    simp only [AccelFsm.portA]
    omega
  simp only [AccelWrapper.clock, AccelWrapper.toFsm, AccelWrapper.portAInt, hi, hj, hl, if_true,
    TrueDpRam.clock]
  rw [TrueDpRam.read_congr _ (p := s.accelFsmInst.portB) _ i.oobA j.oobA hA,
    TrueDpRam.read_congr _ (p := s.accelFsmInst.portA) _ i.oobB j.oobB hB]

section
variable {P : TopParams} {s t : AccelTopWrapper P} {c d : Cycle}

/-! ## Control word 0 -/

/-- A write that the register file decodes to control word 0. -/
def WritesControl0 (P : TopParams) (b : BusIn) : Prop :=
  b.axiMemReq = true ∧ P.addrIsConfig b.axiMemAddrTmp = true ∧ b.axiMemWe = true ∧
    P.cfgAddr b.axiMemAddrTmp = 0

/-- A cycle of the CPU that does not reset and does not write to control word 0. -/
structure LeavesControl0 (P : TopParams) (c : Cycle) : Prop where
  rstN : c.rstN = true
  keeps : ¬WritesControl0 P c.bus

theorem writeCtrl_get_zero {b : BusIn} (h : ¬WritesControl0 P b) (ctrl : Vector Word P.ctrlWords) :
    (b.writeCtrl ctrl).get ⟨0, P.ctrlWords_pos⟩ = ctrl.get ⟨0, P.ctrlWords_pos⟩ := by
  rw [BusIn.writeCtrl, ConfigReg.writeCtrl]
  split
  next hen =>
    split
    next hlt =>
      have hne : P.cfgAddr b.axiMemAddrTmp ≠ 0 := by
        intro h0
        simp only [TopParams.configPort, Bool.and_eq_true] at hen
        exact h ⟨hen.1.1, hen.1.2, hen.2, h0⟩
      exact Vector.getElem_set_ne hlt P.ctrlWords_pos hne
    next => rfl
  next => rfl

theorem controlWord0_step_low (hc : LeavesControl0 P c) (hd : s.done = false) :
    (s.step c).controlWord0 = s.controlWord0 := by
  rw [controlWord0, step_ctrlReg hc.rstN hd, writeCtrl_get_zero hc.keeps]
  rfl

/-! ## Two runs -/

/-- The two states agree on the accelerator with its RAM and on control word 0. -/
structure Agree (s t : AccelTopWrapper P) : Prop where
  wrapper : s.accelWrapperInst = t.accelWrapperInst
  word0 : s.controlWord0 = t.controlWord0

theorem Agree.done (h : Agree s t) : s.done = t.done := congrArg AccelWrapper.done h.wrapper

theorem Agree.startInt (h : Agree s t) : s.startInt = t.startInt :=
  congrArg (·.getLsbD 0) h.word0

/-- One cycle with the start bit 1, under different accesses. -/
theorem Agree.clock (h : Agree s t) (hs : FsmInv s.accelWrapperInst.accelFsmInst)
    (hstart : s.startInt = true) (hc : LeavesControl0 P c) (hd : LeavesControl0 P d) :
    Agree (s.step c) (t.step d) := by
  refine ⟨?_, ?_⟩
  · rw [step_accelWrapperInst hc.rstN, step_accelWrapperInst hd.rstN, ← h.wrapper]
    refine AccelWrapper.clock_owned hs.addrS hstart (h.startInt.symm.trans hstart) ?_
    exact congrArg (·.extractLsb' 8 6) h.word0
  · cases hdone : s.done with
    | false =>
      rw [controlWord0_step_low hc hdone, controlWord0_step_low hd (h.done ▸ hdone), h.word0]
    | true =>
      rw [controlWord0_step_done hc.rstN hdone, controlWord0_step_done hd.rstN (h.done ▸ hdone),
        h.word0]

/-! ## Runs -/

/-- The state in cycle `n` of a run. -/
def AccelTopWrapper.stateAt (s : AccelTopWrapper P) (cs : List Cycle) (n : Nat) :
    AccelTopWrapper P :=
  Machine.run step s (cs.take n)

/-- Along the run nothing resets, and control word 0 is not written while the start bit is 1. -/
def Spares (s : AccelTopWrapper P) : List Cycle → Prop
  | [] => True
  | c :: cs => c.rstN = true ∧ (s.startInt = true → ¬WritesControl0 P c.bus) ∧ Spares (s.step c) cs

theorem spares_of_forall {cs : List Cycle} (h : ∀ c ∈ cs, LeavesControl0 P c)
    (s : AccelTopWrapper P) : Spares s cs := by
  induction cs generalizing s with
  | nil => trivial
  | cons c cs ih =>
    exact ⟨(h c (.head _)).rstN, fun _ => (h c (.head _)).keeps,
      ih (fun c' hc' => h c' (.tail _ hc')) _⟩

/-- Two runs agree up to the first cycle with the start bit 0. -/
theorem Agree.run {cs ds : List Cycle} (hlen : cs.length = ds.length) (h : Agree s t)
    (hs : FsmInv s.accelWrapperInst.accelFsmInst) (hcs : Spares s cs) (hds : Spares t ds) {n : Nat}
    (hn : n ≤ cs.length)
    (hstart : ∀ k < n, (s.stateAt cs k).startInt = true) :
    Agree (s.stateAt cs n) (t.stateAt ds n) := by
  induction n generalizing s t cs ds with
  | zero => exact h
  | succ n ih =>
    obtain ⟨c, cs, rfl⟩ : ∃ c cs', cs = c :: cs' := List.exists_cons_of_length_pos (by omega)
    obtain ⟨d, ds, rfl⟩ : ∃ d ds', ds = d :: ds' := List.exists_cons_of_length_pos (by omega)
    have h0 : s.startInt = true := hstart 0 (Nat.succ_pos n)
    have hclock := h.clock hs h0 ⟨hcs.1, hcs.2.1 h0⟩ ⟨hds.1, hds.2.1 (h.startInt ▸ h0)⟩
    rw [List.length_cons, List.length_cons] at hlen
    rw [List.length_cons] at hn
    exact ih (by omega) hclock (fsmInv_step hs) hcs.2.2 hds.2.2 (by omega)
      fun k hk => hstart (k + 1) (by omega)

/-- The start bit covers a job: it is 1, or the state machine is in `DONE`. -/
def Covered (s : AccelTopWrapper P) : Prop := s.startInt = true ∨ s.fsmState = .DONE

theorem Covered.clock (h : Covered s) (hs : FsmInv s.accelWrapperInst.accelFsmInst)
    (hr : c.rstN = true) (hk : s.startInt = true → ¬WritesControl0 P c.bus) :
    Covered (s.step c) := by
  by_cases hdone : s.fsmState = .DONE
  · exact .inr (step_of_done hr hdone).1
  · have hstart := h.resolve_right hdone
    have hlow : s.done = false := Bool.eq_false_iff.2 fun hd => hdone (hs.done hd)
    refine .inl ?_
    rw [AccelTopWrapper.startInt, controlWord0_step_low ⟨hr, hk hstart⟩ hlow]
    exact hstart

theorem Covered.run {cs : List Cycle} (h : Covered s)
    (hs : FsmInv s.accelWrapperInst.accelFsmInst) (hcs : Spares s cs) (n : Nat) :
    Covered (s.stateAt cs n) := by
  induction n generalizing s cs with
  | zero => exact h
  | succ n ih =>
    cases cs with
    | nil => exact h
    | cons c cs => exact ih (h.clock hs hcs.1 hcs.2.1) (fsmInv_step hs) hcs.2.2

/-- **Isolation of a running job.** Two runs that agree on the accelerator and on control word 0 in
a cycle with the start bit 1, under different accesses of which none writes to control word 0 while
the start bit is 1: up to the cycle in which the start bit is cleared they agree on the state
machine, the core, the RAM, `done` and the start bit, and in `WRITE` and `READ` the start bit
is 1. -/
theorem job_isolated (hs : Reachable s) (h : Agree s t) (hstart : s.startInt = true)
    {cs ds : List Cycle} (hlen : cs.length = ds.length) (hcs : Spares s cs) (hds : Spares t ds) :
    ∀ n ≤ cs.length,
      ((∀ k < n, (s.stateAt cs k).startInt = true) →
        (s.stateAt cs n).accelWrapperInst.accelFsmInst =
            (t.stateAt ds n).accelWrapperInst.accelFsmInst ∧
          (s.stateAt cs n).ram = (t.stateAt ds n).ram ∧
          (s.stateAt cs n).done = (t.stateAt ds n).done ∧
          (s.stateAt cs n).startInt = (t.stateAt ds n).startInt) ∧
      ((s.stateAt cs n).fsmState = .WRITE ∨ (s.stateAt cs n).fsmState = .READ →
        (s.stateAt cs n).startInt = true) := by
  intro n hn
  refine ⟨fun hk => ?_, fun hstate => ?_⟩
  · have hagree := h.run hlen hs.fsmInv hcs hds hn hk
    exact ⟨congrArg AccelWrapper.accelFsmInst hagree.wrapper,
      congrArg (·.ramInst.mem) hagree.wrapper, hagree.done, hagree.startInt⟩
  · refine (Covered.run (.inl hstart) hs.fsmInv hcs n).resolve_right fun hdone => ?_
    rw [hdone] at hstate
    exact hstate.elim (fun h => absurd h (by decide)) fun h => absurd h (by decide)

end

/-- The state in which the start bit of the empty message's job is first 1. -/
def emptyJobStart : AccelTopWrapper pulpinoTop :=
  Machine.run step (Machine.run step .blank emptyJob.rst) emptyJob.pre

theorem emptyJobStart_jobTime :
    ∃ ctrl mem, ctrlLength ctrl = 15 ∧ JobTime ctrl mem 0 emptyJobStart := by
  have hstandby := standby_of_resets (.blank : AccelTopWrapper pulpinoTop) emptyJob_rst_ne
    emptyJob_runs.reset
  obtain ⟨hlow, hstart, hlen, -⟩ := load_shake128HwStores (L := 16) (by decide) (by decide) []
    ctrlStart_replicate_zero (.replicate 42 0)
  exact ⟨_, _, hlen, (hstandby.run_issues emptyJob_runs.stores hlow).jobTime hstart⟩

/-- The start bit of this job is 1 for 54 cycles. -/
theorem emptyJobStart_startInt {k : Nat} (hk : k < 54) :
    (emptyJobStart.stateAt (.replicate 60 ⟨true, .none, .zero⟩) k).startInt = true := by
  obtain ⟨ctrl, mem, hlen, htime⟩ := emptyJobStart_jobTime
  have hidle : ∀ c ∈ List.replicate k (⟨true, .none, .zero⟩ : Cycle), c.ReadOnly := by
    intro c hc
    rw [List.eq_of_mem_replicate hc]
    exact ⟨rfl, rfl⟩
  have hrun := htime.run hidle
  rw [AccelTopWrapper.stateAt, List.take_replicate, Nat.min_eq_left (by omega)]
  refine hrun.startInt ?_
  have hdone : doneCycle 15 = 51 := rfl
  rw [hlen, hdone, List.length_replicate]
  omega

/-- A write of ones to word 0 of the data window. -/
def dataWrite : Cycle := ⟨true, ⟨true, 0x20000, true, 0xf, 0xffffffff⟩, .zero⟩

/-- The CPU is idle in one run and overwrites the block in the other: when the start bit is cleared
the RAMs are equal. -/
theorem job_isolated_emptyJob :
    (emptyJobStart.stateAt (.replicate 60 ⟨true, .none, .zero⟩) 54).ram =
      (emptyJobStart.stateAt (.replicate 60 dataWrite) 54).ram := by
  have hreach : Reachable emptyJobStart :=
    ⟨.blank, emptyJob.rst, emptyJob.pre, emptyJob_rst_ne, emptyJob_runs.reset, rfl⟩
  obtain ⟨ctrl, mem, -, htime⟩ := emptyJobStart_jobTime
  refine ((job_isolated hreach ⟨rfl, rfl⟩ (htime.startInt (Nat.zero_le _)) (by simp)
    (spares_of_forall ?_ _) (spares_of_forall ?_ _) 54 (by simp)).1
    fun k hk => emptyJobStart_startInt hk).2.1
  · intro c hc
    rw [List.eq_of_mem_replicate hc]
    exact ⟨rfl, fun h => Bool.false_ne_true h.1⟩
  · intro c hc
    rw [List.eq_of_mem_replicate hc]
    exact ⟨rfl, fun h => absurd h.2.1 (by decide)⟩

end ShakeAccel
