import ShakeAccel.Accel.Job
import ShakeAccel.Bus.Top

/-!
# A job over the bus

After a reset the accelerator stands by (`Standby`): requests write the control words and the RAM
and nothing else happens. Once the start bit is 1 the job runs (`Running`) until the state machine
is in `DONE`, with the RAM and the length byte that it found.
-/

namespace ShakeAccel

open AccelTopWrapper

/-! ## Requests -/

/-- A cycle in which no request is made. -/
def Cycle.Idle (c : Cycle) : Prop := c.rstN = true ∧ c.bus.axiMemReq = false

/-- A cycle without a write: nothing is requested, or a read. -/
def Cycle.ReadOnly (c : Cycle) : Prop :=
  c.rstN = true ∧ (c.bus.axiMemReq && c.bus.axiMemWe) = false

theorem Cycle.Idle.readOnly {c : Cycle} (h : c.Idle) : c.ReadOnly :=
  ⟨h.1, by rw [h.2, Bool.false_and]⟩

/-- The cycles of a list of requests, in order, with any number of idle cycles before each. -/
inductive Issues : List BusIn → List Cycle → Prop
  | nil : Issues [] []
  | idle {b bs c cs} : c.Idle → Issues (b :: bs) cs → Issues (b :: bs) (c :: cs)
  | request {b bs c cs} : c.rstN = true → c.bus = b → Issues bs cs → Issues (b :: bs) (c :: cs)

/-- No cycle of a schedule is in reset. -/
theorem Issues.high {bs : List BusIn} {cs : List Cycle} (h : Issues bs cs) :
    ∀ c ∈ cs, c.rstN = true := by
  induction h with
  | nil => exact fun c hc => absurd hc List.not_mem_nil
  | idle hc _ ih => exact List.forall_mem_cons.2 ⟨hc.1, ih⟩
  | request hr _ _ ih => exact List.forall_mem_cons.2 ⟨hr, ih⟩

theorem Issues.length_pos {bs : List BusIn} {cs : List Cycle} (h : Issues bs cs)
    (hne : bs ≠ []) : 0 < cs.length := by
  cases h with
  | nil => exact absurd rfl hne
  | idle => exact Nat.succ_pos _
  | request => exact Nat.succ_pos _

section
variable {P : TopParams}

/-- The start bit of the control words. -/
def ctrlStart (ctrl : Vector Word P.ctrlWords) : Bool :=
  (ctrl.get ⟨0, P.ctrlWords_pos⟩).getLsbD 0

/-- The length register of the control words. -/
def ctrlLength (ctrl : Vector Word P.ctrlWords) : Nat :=
  ((ctrl.get ⟨0, P.ctrlWords_pos⟩).extractLsb' 8 6).toNat

/-- The control words after a request made while `done` is low. -/
def BusIn.writeCtrl (b : BusIn) (ctrl : Vector Word P.ctrlWords) : Vector Word P.ctrlWords :=
  ConfigReg.writeCtrl ctrl (P.configPort b (.replicate _ 0))

/-- The RAM after a request made while the start bit is 0. -/
def BusIn.writeMem (P : TopParams) (b : BusIn) (mem : Vector Word 42) : Vector Word 42 :=
  TrueDpRam.write mem (P.dataPort b)

/-- The control words after a list of requests. -/
def loadCtrl (ctrl : Vector Word P.ctrlWords) (bs : List BusIn) : Vector Word P.ctrlWords :=
  bs.foldl (fun ctrl b => b.writeCtrl ctrl) ctrl

/-- The RAM after a list of requests. -/
def loadMem (P : TopParams) (mem : Vector Word 42) (bs : List BusIn) : Vector Word 42 :=
  bs.foldl (fun mem b => b.writeMem P mem) mem

/-- The start bit is 0 before each request of the list. -/
def StartsLow (ctrl : Vector Word P.ctrlWords) : List BusIn → Prop
  | [] => True
  | b :: bs => ctrlStart ctrl = false ∧ StartsLow (b.writeCtrl ctrl) bs

/-- A request that is no write changes no control word. -/
theorem BusIn.writeCtrl_off {b : BusIn} (h : (b.axiMemReq && b.axiMemWe) = false)
    (ctrl : Vector Word P.ctrlWords) : b.writeCtrl ctrl = ctrl := by
  rw [BusIn.writeCtrl, ConfigReg.writeCtrl, if_neg]
  rw [TopParams.configPort, Bool.and_right_comm, h, Bool.false_and]
  exact Bool.false_ne_true

/-- Nor the RAM. -/
theorem BusIn.writeMem_off {b : BusIn} (h : (b.axiMemReq && b.axiMemWe) = false)
    (mem : Vector Word 42) : b.writeMem P mem = mem :=
  TrueDpRam.write_off _ (by
    rw [TopParams.dataPort, Bool.and_right_comm, h, Bool.false_and])

@[simp] theorem loadCtrl_nil (ctrl : Vector Word P.ctrlWords) : loadCtrl ctrl [] = ctrl := rfl

@[simp] theorem loadMem_nil (mem : Vector Word 42) : loadMem P mem [] = mem := rfl

theorem loadCtrl_cons (ctrl : Vector Word P.ctrlWords) (b : BusIn) (bs : List BusIn) :
    loadCtrl ctrl (b :: bs) = loadCtrl (b.writeCtrl ctrl) bs :=
  rfl

theorem loadMem_cons (mem : Vector Word 42) (b : BusIn) (bs : List BusIn) :
    loadMem P mem (b :: bs) = loadMem P (b.writeMem P mem) bs :=
  rfl

theorem loadCtrl_append (ctrl : Vector Word P.ctrlWords) (bs bs' : List BusIn) :
    loadCtrl ctrl (bs ++ bs') = loadCtrl (loadCtrl ctrl bs) bs' :=
  List.foldl_append

theorem loadMem_append (mem : Vector Word 42) (bs bs' : List BusIn) :
    loadMem P mem (bs ++ bs') = loadMem P (loadMem P mem bs) bs' :=
  List.foldl_append

/-- The second list begins where the first has left the control words. -/
theorem startsLow_append {ctrl : Vector Word P.ctrlWords} {bs bs' : List BusIn} :
    StartsLow ctrl (bs ++ bs') ↔ StartsLow ctrl bs ∧ StartsLow (loadCtrl ctrl bs) bs' := by
  induction bs generalizing ctrl with
  | nil => exact ⟨fun h => ⟨trivial, h⟩, fun h => h.2⟩
  | cons b bs ih =>
    rw [List.cons_append, StartsLow, StartsLow, ih, and_assoc]
    rfl

/-- Requests that leave the control words alone. -/
theorem loadCtrl_of_keeps {ctrl : Vector Word P.ctrlWords} {bs : List BusIn}
    (h : ∀ b ∈ bs, b.writeCtrl ctrl = ctrl) : loadCtrl ctrl bs = ctrl := by
  induction bs with
  | nil => rfl
  | cons b bs ih =>
    rw [loadCtrl, List.foldl_cons, h b (.head _), ← loadCtrl]
    exact ih fun b' hb' => h b' (.tail _ hb')

/-- Then the start bit stays low, too. -/
theorem startsLow_of_keeps {ctrl : Vector Word P.ctrlWords} {bs : List BusIn}
    (h : ∀ b ∈ bs, b.writeCtrl ctrl = ctrl) (hs : ctrlStart ctrl = false) : StartsLow ctrl bs := by
  induction bs with
  | nil => trivial
  | cons b bs ih =>
    refine ⟨hs, ?_⟩
    rw [h b (.head _)]
    exact ih fun b' hb' => h b' (.tail _ hb')

/-- The start bit and the length register are bits of the bytes 0 and 1 of control word 0. -/
theorem ctrlStart_eq (ctrl : Vector Word P.ctrlWords) :
    ctrlStart ctrl = (Bits.byteAt (ctrl.get ⟨0, P.ctrlWords_pos⟩) 0).getLsbD 0 := by
  rw [Bits.getLsbD_byteAt]
  rfl

theorem ctrlLength_eq (ctrl : Vector Word P.ctrlWords) :
    ctrlLength ctrl = (Bits.byteAt (ctrl.get ⟨0, P.ctrlWords_pos⟩) 1).toNat % 64 := by
  have h : (ctrl.get ⟨0, P.ctrlWords_pos⟩).extractLsb' 8 6 =
      (Bits.byteAt (ctrl.get ⟨0, P.ctrlWords_pos⟩) 1).setWidth 6 := by
    apply BitVec.eq_of_getLsbD_eq
    intro i hi
    rw [BitVec.getLsbD_extractLsb', BitVec.getLsbD_setWidth, Bits.getLsbD_byteAt,
      decide_eq_true (show i < 8 by omega)]
    rfl
  rw [ctrlLength, h, BitVec.toNat_setWidth]

/-! ## One cycle out of reset -/

variable {s : AccelTopWrapper P} {c : Cycle}

/-- The wrapper under the top level takes one edge. -/
theorem step_accelWrapperInst (hr : c.rstN = true) :
    (s.step c).accelWrapperInst = s.accelWrapperInst.clock true (s.toWrapper c) := by
  rw [step, settle, hr, if_pos rfl, AccelTopWrapper.clock, hr]

/-- While `done` is low the control words follow the bus. -/
theorem step_ctrlReg (hr : c.rstN = true) (hd : s.done = false) :
    (s.step c).configRegInst.ctrlReg = c.bus.writeCtrl s.configRegInst.ctrlReg := by
  rw [step, settle, hr, if_pos rfl, AccelTopWrapper.clock, hr, toConfigReg, hd]
  rfl

/-- The read register takes the word that an enabled read selects. -/
theorem step_rdata (s : AccelTopWrapper P) (hr : c.rstN = true) :
    (s.step c).configRegInst.rdata =
      (ConfigReg.select true s.configRegInst (s.toConfigReg c)).getD s.configRegInst.rdata := by
  rw [step, settle, hr, if_pos rfl, AccelTopWrapper.clock, hr]
  rfl

/-- An access to the configuration window returns the read register of the register file. -/
theorem step_axiMemRdata_config (hc : P.addrIsConfig c.bus.axiMemAddrTmp = true) :
    (s.step c).axiMemRdata = (s.step c).configRegInst.rdata := by
  rw [axiMemRdata, if_pos]
  rw [step, AccelTopWrapper.clock]
  exact hc

/-- What the accelerator sees of the control words. -/
theorem startInt_eq {ctrl : Vector Word P.ctrlWords} (h : s.configRegInst.ctrlReg = ctrl) :
    s.startInt = ctrlStart ctrl := by
  rw [← h]
  rfl

theorem outputLengthByte_eq {ctrl : Vector Word P.ctrlWords} (h : s.configRegInst.ctrlReg = ctrl) :
    s.outputLengthByte.toNat = ctrlLength ctrl := by
  rw [← h]
  rfl

/-! ## Standing by -/

/-- The accelerator after a reset, with the control words and the RAM that the CPU has written. -/
structure Standby (ctrl : Vector Word P.ctrlWords) (mem : Vector Word 42)
    (s : AccelTopWrapper P) : Prop where
  state : s.accelWrapperInst.accelFsmInst.state = .IDLE
  dinValidS : s.accelWrapperInst.accelFsmInst.dinValidS = false
  dinValidReg : s.accelWrapperInst.accelFsmInst.dinValidReg = false
  lastBlockS : s.accelWrapperInst.accelFsmInst.lastBlockS = false
  byteCntrS : s.accelWrapperInst.accelFsmInst.byteCntrS = 0
  addrS : s.accelWrapperInst.accelFsmInst.addrS = 0
  done : s.done = false
  core : s.accelWrapperInst.accelFsmInst.keccakInst = .reset
  ctrlReg : s.configRegInst.ctrlReg = ctrl
  ram : s.accelWrapperInst.ramInst.mem = mem

/-- One edge in reset is enough to stand by, from any state; only the RAM is kept. -/
theorem standby_of_reset (hr : c.rstN = false) :
    Standby (.replicate _ 0) (s.step c).accelWrapperInst.ramInst.mem (s.step c) := by
  rw [step, settle, hr, AccelTopWrapper.clock, hr]
  exact ⟨rfl, rfl, rfl, rfl, rfl, rfl, rfl, rfl, rfl, rfl⟩

/-- After any number of edges in reset; the last of them is what counts. -/
theorem standby_of_resets (s : AccelTopWrapper P) {rst : List Cycle} (hne : rst ≠ [])
    (hr : ∀ c ∈ rst, c.rstN = false) :
    Standby (.replicate _ 0) (Machine.run step s rst).accelWrapperInst.ramInst.mem
      (Machine.run step s rst) := by
  obtain ⟨cs, c, rfl⟩ := List.eq_nil_or_concat rst |>.resolve_left hne
  rw [List.concat_eq_append, Machine.run_append]
  exact standby_of_reset (hr c (by simp))

theorem ctrlStart_replicate_zero : ctrlStart (P := P) (.replicate _ 0) = false := by
  simp [ctrlStart, Vector.get]

namespace Standby

variable {ctrl : Vector Word P.ctrlWords} {mem : Vector Word 42}

/-- The state machine stands by, as its own invariant says it. -/
theorem atRest (h : Standby ctrl mem s) : s.accelWrapperInst.accelFsmInst.AtRest where
  state := h.state
  dinValidS := h.dinValidS
  dinValidReg := h.dinValidReg
  lastBlockS := h.lastBlockS
  byteCntrS := h.byteCntrS
  addrS := h.addrS
  done := h.done
  core := h.core

theorem resting (h : Standby ctrl mem s) : Resting mem s.accelWrapperInst := ⟨h.atRest, h.ram⟩

/-- The wrapper's part and the register file's part together. -/
theorem of_resting (h : Resting mem s.accelWrapperInst) (hc : s.configRegInst.ctrlReg = ctrl) :
    Standby ctrl mem s where
  state := h.control.state
  dinValidS := h.control.dinValidS
  dinValidReg := h.control.dinValidReg
  lastBlockS := h.control.lastBlockS
  byteCntrS := h.control.byteCntrS
  addrS := h.control.addrS
  done := h.control.done
  core := h.control.core
  ctrlReg := hc
  ram := h.ram

/-- The start bit that the accelerator sees. -/
theorem start_eq (h : Standby ctrl mem s) (c : Cycle) :
    (s.toWrapper c).start = ctrlStart ctrl :=
  startInt_eq h.ctrlReg

/-- With the start bit 0 a request writes the control words or the RAM. -/
theorem access (h : Standby ctrl mem s) (hs : ctrlStart ctrl = false) (hr : c.rstN = true) :
    Standby (c.bus.writeCtrl ctrl) (c.bus.writeMem P mem) (s.step c) := by
  refine of_resting ?_ (by rw [step_ctrlReg hr h.done, h.ctrlReg])
  rw [step_accelWrapperInst hr]
  exact h.resting.access ((h.start_eq c).trans hs)

/-- Without a request nothing changes. -/
theorem wait (h : Standby ctrl mem s) (hs : ctrlStart ctrl = false) (hc : c.Idle) :
    Standby ctrl mem (s.step c) := by
  have h' := h.access hs hc.1
  rwa [BusIn.writeCtrl_off hc.readOnly.2, BusIn.writeMem_off hc.readOnly.2] at h'

/-- A list of requests, in any schedule. -/
theorem run_issues {bs : List BusIn} {cs : List Cycle} (hi : Issues bs cs)
    {ctrl : Vector Word P.ctrlWords} {mem : Vector Word 42} {s : AccelTopWrapper P}
    (h : Standby ctrl mem s) (hs : StartsLow ctrl bs) :
    Standby (loadCtrl ctrl bs) (loadMem P mem bs) (Machine.run step s cs) := by
  induction hi generalizing ctrl mem s with
  | nil => exact h
  | idle hc _ ih =>
    exact ih (h.wait hs.1 hc) hs
  | request hr hb _ ih =>
    subst hb
    exact ih (h.access hs.1 hr) hs.2

/-- With the start bit 1 the job begins, whatever is requested. -/
theorem launch (h : Standby ctrl mem s) (hs : ctrlStart ctrl = true) (hr : c.rstN = true) :
    Job mem (ctrlLength ctrl) 0 (s.step c).accelWrapperInst := by
  rw [step_accelWrapperInst hr, Job, if_pos (by decide)]
  exact h.resting.launch ((h.start_eq c).trans hs)

end Standby

/-! ## Running -/

/-- Cycle `t` of a job that was started with the control words `ctrl` and the RAM `mem`. -/
structure Running (ctrl : Vector Word P.ctrlWords) (mem : Vector Word 42) (t : Nat)
    (s : AccelTopWrapper P) : Prop where
  start : ctrlStart ctrl = true
  ctrlReg : s.configRegInst.ctrlReg = ctrl
  job : Job mem (ctrlLength ctrl) t s.accelWrapperInst

/-- A cycle in which the bus leaves the control words as they are: nothing is requested, or a
read, or an access to the data window. -/
def KeepsCtrl (ctrl : Vector Word P.ctrlWords) (c : Cycle) : Prop :=
  c.rstN = true ∧ c.bus.writeCtrl ctrl = ctrl

theorem Cycle.ReadOnly.keepsCtrl (h : c.ReadOnly) (ctrl : Vector Word P.ctrlWords) :
    KeepsCtrl ctrl c :=
  ⟨h.1, BusIn.writeCtrl_off h.2 ctrl⟩

/-- A cycle in which the bus changes neither the control words nor, whatever the start bit is, the
RAM. -/
structure Bystander (ctrl : Vector Word P.ctrlWords) (c : Cycle) : Prop where
  keepsCtrl : KeepsCtrl ctrl c
  keepsMem : ((P.dataPort c.bus).en && (P.dataPort c.bus).we) = false

/-- A read stands by, whatever the control words are. -/
theorem Cycle.ReadOnly.bystander (h : c.ReadOnly) (ctrl : Vector Word P.ctrlWords) :
    Bystander ctrl c := by
  refine ⟨h.keepsCtrl ctrl, ?_⟩
  rw [TopParams.dataPort, Bool.and_right_comm, h.2, Bool.false_and]

section
variable {ctrl : Vector Word P.ctrlWords} {mem : Vector Word 42} {t : Nat}

/-- The first cycle of a job is the one in which the start bit is first seen. -/
theorem Standby.running (h : Standby ctrl mem s) (hs : ctrlStart ctrl = true)
    (hc : KeepsCtrl ctrl c) : Running ctrl mem 0 (s.step c) :=
  ⟨hs, by rw [step_ctrlReg hc.1 h.done, h.ctrlReg, hc.2], h.launch hs hc.1⟩

/-- **A cycle of a job.** The accelerator owns the RAM: accesses of the CPU have no effect. -/
theorem Running.clock (h : Running ctrl mem t s) (hc : KeepsCtrl ctrl c)
    (ht : t < doneCycle (ctrlLength ctrl)) : Running ctrl mem (t + 1) (s.step c) := by
  have hstart : (s.toWrapper c).start = true := (startInt_eq h.ctrlReg).trans h.start
  have hlen : (s.toWrapper c).outputLengthByte.toNat = ctrlLength ctrl :=
    outputLengthByte_eq h.ctrlReg
  refine ⟨h.start, by rw [step_ctrlReg hc.1 h.job.done, h.ctrlReg, hc.2], ?_⟩
  rw [step_accelWrapperInst hc.1]
  exact h.job.clock hstart hlen ht

/-- A whole job: `t` cycles after the first cycle of `WRITE`. -/
theorem Running.run (h : Running ctrl mem 0 s) (cs : List Cycle)
    (hcs : ∀ c ∈ cs, KeepsCtrl ctrl c) (hlen : cs.length ≤ doneCycle (ctrlLength ctrl)) :
    Running ctrl mem cs.length (Machine.run step s cs) := by
  have hrun := Machine.run_schedule (R := Running ctrl mem) (A := KeepsCtrl ctrl)
    (T := doneCycle (ctrlLength ctrl)) (fun _ _ _ ht hc h => h.clock hc ht) h hcs
    (by rwa [Nat.zero_add])
  rwa [Nat.zero_add] at hrun

end

/-- The state register of the state machine. -/
def AccelTopWrapper.fsmState (s : AccelTopWrapper P) : FsmState :=
  s.accelWrapperInst.accelFsmInst.state

/-- The RAM. -/
def AccelTopWrapper.ram (s : AccelTopWrapper P) : Vector Word 42 := s.accelWrapperInst.ramInst.mem

/-! ## After the job -/

/-- `done` is high: the state machine is in `DONE`, and the start bit is `start`. -/
structure Ended (start : Bool) (mem : Vector Word 42) (s : AccelTopWrapper P) : Prop where
  state : s.accelWrapperInst.accelFsmInst.state = .DONE
  done : s.done = true
  start : s.startInt = start
  ram : s.accelWrapperInst.ramInst.mem = mem

section
variable {ctrl : Vector Word P.ctrlWords} {mem : Vector Word 42} {b : Bool}

/-- `done` is a register behind the state: it shows the state of the cycle before. -/
theorem done_step (hr : c.rstN = true) : (s.step c).done = decide (s.fsmState = .DONE) := by
  rw [AccelTopWrapper.done, AccelWrapper.done, step_accelWrapperInst hr]
  rfl

theorem fsmState_step (hr : c.rstN = true) :
    (s.step c).fsmState =
      s.accelWrapperInst.accelFsmInst.nState (s.accelWrapperInst.toFsm (s.toWrapper c)) := by
  rw [fsmState, step_accelWrapperInst hr]
  rfl

/-- With the start bit 0 the CPU has port A of the RAM. -/
theorem portAInt_of_low (h : s.startInt = false) (c : Cycle) :
    s.accelWrapperInst.portAInt (s.toWrapper c) = P.dataPort c.bus :=
  if_neg (ne_true_of_eq_false h)

/-- `DONE` is kept until the next reset, and `done` with it. -/
theorem step_of_done (hr : c.rstN = true) (hs : s.accelWrapperInst.accelFsmInst.state = .DONE) :
    (s.step c).accelWrapperInst.accelFsmInst.state = .DONE ∧ (s.step c).done = true := by
  have hstate := fsmState_step (s := s) hr
  rw [AccelFsm.nState, hs] at hstate
  exact ⟨hstate, (done_step hr).trans (decide_eq_true hs)⟩

/-- The control words with byte 0 of word 0 cleared. -/
def clearStart (ctrl : Vector Word P.ctrlWords) : Vector Word P.ctrlWords :=
  ctrl.set 0 (Bits.mergeBytes (1 : BitVec 4).getLsbD (ctrl.get ⟨0, P.ctrlWords_pos⟩) 0)
    P.ctrlWords_pos

/-- Clearing twice is clearing once. -/
theorem clearStart_idem (ctrl : Vector Word P.ctrlWords) :
    clearStart (clearStart ctrl) = clearStart ctrl := by
  simp only [clearStart, Vec.get_set_self, Bits.mergeBytes_idem, Vector.set_set]

/-- While `done` is high byte 0 of control word 0 is cleared, whatever is requested. -/
theorem step_ctrlReg_done (hr : c.rstN = true) (hd : s.done = true) :
    (s.step c).configRegInst.ctrlReg = clearStart s.configRegInst.ctrlReg := by
  rw [step, settle, hr, if_pos rfl, AccelTopWrapper.clock, hr, toConfigReg, hd]
  simp [ConfigReg.clock, ConfigReg.writeCtrl, P.ctrlWords_pos]
  rfl

/-- Over a run with `done` high nothing else happens to the control words. -/
theorem run_ctrlReg_done (hs : s.accelWrapperInst.accelFsmInst.state = .DONE) (hd : s.done = true)
    {cs : List Cycle} (hcs : ∀ c ∈ cs, c.rstN = true) (hne : cs ≠ []) :
    (Machine.run step s cs).configRegInst.ctrlReg = clearStart s.configRegInst.ctrlReg := by
  induction cs generalizing s with
  | nil => exact absurd rfl hne
  | cons c cs ih =>
    have hr := hcs c (.head _)
    obtain ⟨hstate, hdone⟩ := step_of_done hr hs
    rw [Machine.run_cons]
    cases cs with
    | nil => exact step_ctrlReg_done hr hd
    | cons d cs =>
      rw [ih hstate hdone (fun c hc => hcs c (.tail _ hc)) (List.cons_ne_nil d cs),
        step_ctrlReg_done hr hd, clearStart_idem]

theorem controlWord0_step_done (hr : c.rstN = true) (hd : s.done = true) :
    (s.step c).controlWord0 = Bits.mergeBytes (1 : BitVec 4).getLsbD s.controlWord0 0 := by
  rw [controlWord0, step_ctrlReg_done hr hd, clearStart, Vec.get_set_self]
  rfl

/-- So the start bit falls in the first cycle with `done` high. -/
theorem startInt_step_of_done (hr : c.rstN = true) (hd : s.done = true) :
    (s.step c).startInt = false := by
  have hbyte : (s.step c).startInt = (Bits.byteAt (s.step c).controlWord0 0).getLsbD 0 := by
    rw [Bits.getLsbD_byteAt]
    rfl
  rw [hbyte, controlWord0_step_done hr hd, Bits.byteAt_mergeBytes (n := 4) rfl _ _ _ (by decide),
    if_pos (by decide)]
  rfl

/-- The first cycle of `DONE` raises `done`. -/
theorem Running.ended (h : Running ctrl mem (doneCycle (ctrlLength ctrl)) s)
    (hc : KeepsCtrl ctrl c) :
    Ended true (jobRam mem (ctrlLength ctrl)) (s.step c) := by
  have hstart : (s.toWrapper c).start = true := (startInt_eq h.ctrlReg).trans h.start
  have hfin := h.job.finished
  obtain ⟨hstate, hdone⟩ := step_of_done hc.1 hfin.state
  refine ⟨hstate, hdone, ?_, ?_⟩
  · refine (startInt_eq ?_).trans h.start
    rw [step_ctrlReg hc.1 h.job.done, h.ctrlReg, hc.2]
  · rw [step_accelWrapperInst hc.1, ram_clock_off hstart (by rw [AccelFsm.memEn, hfin.state]),
      hfin.ram]

/-- The next cycle clears the start bit; the accelerator still owns the RAM. -/
theorem Ended.clear (h : Ended true mem s) (hr : c.rstN = true) : Ended false mem (s.step c) := by
  obtain ⟨hstate, hdone⟩ := step_of_done hr h.state
  refine ⟨hstate, hdone, startInt_step_of_done hr h.done, ?_⟩
  have hstart : (s.toWrapper c).start = true := h.start
  rw [step_accelWrapperInst hr, ram_clock_off hstart (by rw [AccelFsm.memEn, h.state]), h.ram]

/-- From then on only the data window of the bus has an effect. -/
theorem Ended.access (h : Ended false mem s) (hr : c.rstN = true) :
    Ended false (c.bus.writeMem P mem) (s.step c) := by
  obtain ⟨hstate, hdone⟩ := step_of_done hr h.state
  refine ⟨hstate, hdone, startInt_step_of_done hr h.done, ?_⟩
  have hoff : (s.accelWrapperInst.accelFsmInst.portA.en &&
      s.accelWrapperInst.accelFsmInst.portA.we) = false := by
    simp [AccelFsm.portA, AccelFsm.memEn, h.state]
  rw [step_accelWrapperInst hr]
  simp only [AccelWrapper.clock, TrueDpRam.clock]
  rw [portAInt_of_low h.start, TrueDpRam.write_off _ hoff, h.ram]
  rfl

/-- A read changes nothing. -/
theorem Ended.read (h : Ended false mem s) (hc : c.ReadOnly) : Ended false mem (s.step c) := by
  have h' := h.access hc.1
  rwa [BusIn.writeMem_off hc.2] at h'

/-- Nor does an access that writes only outside of the data window. -/
theorem Ended.stand (h : Ended false mem s) (hc : Bystander ctrl c) :
    Ended false mem (s.step c) := by
  have h' := h.access hc.keepsCtrl.1
  rwa [BusIn.writeMem, TrueDpRam.write_off _ hc.keepsMem] at h'

/-- The end is stable while the CPU waits. -/
theorem Ended.run_idle (h : Ended false mem s) {cs : List Cycle} (hcs : ∀ c ∈ cs, c.Idle) :
    Ended false mem (Machine.run step s cs) :=
  Machine.run_invariant (I := Ended false mem) (A := Cycle.Idle)
    (fun _ _ hc h => h.read (Cycle.Idle.readOnly hc)) h hcs

/-- Requests behind the end, in any schedule: the RAM takes the writes to the data window. -/
theorem Ended.run_issues {bs : List BusIn} {cs : List Cycle} (hi : Issues bs cs)
    {mem : Vector Word 42} {s : AccelTopWrapper P} (h : Ended false mem s) :
    Ended false (loadMem P mem bs) (Machine.run step s cs) := by
  induction hi generalizing mem s with
  | nil => exact h
  | idle hc _ ih => exact ih (h.read (Cycle.Idle.readOnly hc))
  | request hr hb _ ih =>
    subst hb
    exact ih (h.access hr)

end

/-! ## The whole course of a job -/

section
variable {ctrl : Vector Word P.ctrlWords} {mem : Vector Word 42} {k : Nat}

/-- Cycle `k` of a job, counted from the cycle in which the start bit is first 1: the job runs,
`done` rises, and the start bit falls. The register `rdataA` that the CPU reads keeps the last word
that the job read until the start bit has fallen. -/
structure JobTime (ctrl : Vector Word P.ctrlWords) (mem : Vector Word 42) (k : Nat)
    (s : AccelTopWrapper P) : Prop where
  start : ctrlStart ctrl = true
  phase : if k = 0 then Standby ctrl mem s
    else if k ≤ doneCycle (ctrlLength ctrl) + 1 then Running ctrl mem (k - 1) s
    else Ended (decide (k = doneCycle (ctrlLength ctrl) + 2)) (jobRam mem (ctrlLength ctrl)) s
  rdataA : doneCycle (ctrlLength ctrl) + 1 ≤ k → k ≤ doneCycle (ctrlLength ctrl) + 3 →
    s.accelWrapperInst.ramInst.rdataA = jobWord mem (ctrlLength ctrl)

/-- Cycle 0: the start bit is 1 and the state machine is still in `IDLE`. -/
theorem Standby.jobTime (h : Standby ctrl mem s) (hs : ctrlStart ctrl = true) :
    JobTime ctrl mem 0 s :=
  ⟨hs, h, fun h0 => absurd h0 (by omega)⟩

namespace JobTime

theorem ended (h : JobTime ctrl mem k s) (hk : doneCycle (ctrlLength ctrl) + 2 ≤ k) :
    Ended (decide (k = doneCycle (ctrlLength ctrl) + 2)) (jobRam mem (ctrlLength ctrl)) s := by
  have h := h.phase
  rwa [if_neg (by omega), if_neg (by omega)] at h

theorem running (h : JobTime ctrl mem k s) (h1 : 1 ≤ k)
    (hk : k ≤ doneCycle (ctrlLength ctrl) + 1) : Running ctrl mem (k - 1) s := by
  have h := h.phase
  rwa [if_neg (by omega), if_pos hk] at h

/-- `done` is high from the cycle after the first one in `DONE`. -/
theorem done (h : JobTime ctrl mem k s) :
    s.done = decide (doneCycle (ctrlLength ctrl) + 2 ≤ k) := by
  by_cases hk : doneCycle (ctrlLength ctrl) + 2 ≤ k
  · rw [decide_eq_true hk]
    exact (h.ended hk).done
  · rw [decide_eq_false hk]
    by_cases h0 : k = 0
    · have h := h.phase
      rw [if_pos h0] at h
      exact h.done
    · exact (h.running (by omega) (by omega)).job.done

/-- Before `done` rises the control words are those that the job was started with. -/
theorem ctrlReg (h : JobTime ctrl mem k s) (hk : k ≤ doneCycle (ctrlLength ctrl) + 1) :
    s.configRegInst.ctrlReg = ctrl := by
  by_cases h0 : k = 0
  · have h := h.phase
    rw [if_pos h0] at h
    exact h.ctrlReg
  · exact (h.running (by omega) hk).ctrlReg

/-- From the first cycle of `DONE` on the RAM is final. -/
theorem final (h : JobTime ctrl mem k s) (hk : doneCycle (ctrlLength ctrl) + 1 ≤ k) :
    s.fsmState = .DONE ∧ s.ram = jobRam mem (ctrlLength ctrl) := by
  by_cases hrun : k = doneCycle (ctrlLength ctrl) + 1
  · subst hrun
    have hfin := (h.running (by omega) (Nat.le_refl _)).job.finished
    exact ⟨hfin.state, hfin.ram⟩
  · have hend := h.ended (by omega)
    exact ⟨hend.state, hend.ram⟩

/-- Before that cycle the state is another. -/
theorem state_ne_done (h : JobTime ctrl mem k s) (hk : k ≤ doneCycle (ctrlLength ctrl)) :
    s.fsmState ≠ .DONE := by
  by_cases h0 : k = 0
  · have h := h.phase
    rw [if_pos h0] at h
    rw [fsmState, h.state]
    decide
  · exact (h.running (by omega) (by omega)).job.state_ne_done (by omega)

/-- The start bit is still 1 in the first cycle with `done` high. -/
theorem startInt (h : JobTime ctrl mem k s) (hk : k ≤ doneCycle (ctrlLength ctrl) + 2) :
    s.startInt = true := by
  by_cases hlast : k = doneCycle (ctrlLength ctrl) + 2
  · have hend := h.ended (by omega)
    rw [decide_eq_true hlast] at hend
    exact hend.start
  · exact (startInt_eq (h.ctrlReg (by omega))).trans h.start

/-- What a cycle does to the phase: the job starts, goes on, raises `done`, clears the start bit, or
has ended. -/
theorem step_phase (h : JobTime ctrl mem k s) (hc : Bystander ctrl c) :
    if k + 1 ≤ doneCycle (ctrlLength ctrl) + 1 then Running ctrl mem k (s.step c)
    else Ended (decide (k + 1 = doneCycle (ctrlLength ctrl) + 2)) (jobRam mem (ctrlLength ctrl))
      (s.step c) := by
  by_cases hrun : k ≤ doneCycle (ctrlLength ctrl)
  · rw [if_pos (by omega)]
    by_cases h0 : k = 0
    · have hphase := h.phase
      rw [if_pos h0] at hphase
      rw [h0]
      exact hphase.running h.start hc.keepsCtrl
    · have hclock := (h.running (by omega) (by omega)).clock hc.keepsCtrl (by omega)
      rwa [Nat.sub_add_cancel (by omega)] at hclock
  · rw [if_neg (by omega)]
    by_cases hlast : k = doneCycle (ctrlLength ctrl) + 1
    · subst hlast
      rw [decide_eq_true rfl]
      exact (h.running (by omega) (Nat.le_refl _)).ended hc.keepsCtrl
    · rw [decide_eq_false (by omega)]
      have hend := h.ended (by omega)
      by_cases hfall : k = doneCycle (ctrlLength ctrl) + 2
      · rw [decide_eq_true hfall] at hend
        exact hend.clear hc.keepsCtrl.1
      · rw [decide_eq_false hfall] at hend
        exact hend.stand hc

/-- The read register of port A is loaded by the last cycle of the job, and behind it the port is
off until the start bit falls. -/
theorem step_rdataA (h : JobTime ctrl mem k s) (hc : Bystander ctrl c)
    (hk : doneCycle (ctrlLength ctrl) ≤ k) (hk' : k ≤ doneCycle (ctrlLength ctrl) + 2) :
    (s.step c).accelWrapperInst.ramInst.rdataA = jobWord mem (ctrlLength ctrl) := by
  by_cases hlast : k = doneCycle (ctrlLength ctrl)
  · have hphase := h.step_phase hc
    rw [if_pos (by omega), hlast] at hphase
    exact hphase.job.finished.rdataA
  · have hstart : (s.toWrapper c).start = true := h.startInt hk'
    have hoff : s.accelWrapperInst.accelFsmInst.memEn = false := by
      rw [AccelFsm.memEn, show s.accelWrapperInst.accelFsmInst.state = .DONE from
        (h.final (by omega)).1]
    rw [step_accelWrapperInst hc.keepsCtrl.1, rdataA_clock_off hstart hoff,
      h.rdataA (by omega) (by omega)]

/-- **A cycle in which the bus stands by.** -/
theorem stand (h : JobTime ctrl mem k s) (hc : Bystander ctrl c) :
    JobTime ctrl mem (k + 1) (s.step c) := by
  refine ⟨h.start, ?_, fun hk hk' => h.step_rdataA hc (by omega) (by omega)⟩
  rw [if_neg (Nat.succ_ne_zero k), Nat.add_sub_cancel]
  exact h.step_phase hc

/-- A cycle without a write. -/
theorem step (h : JobTime ctrl mem k s) (hc : c.ReadOnly) :
    JobTime ctrl mem (k + 1) (s.step c) :=
  h.stand (hc.bystander ctrl)

/-- **A whole job with the CPU waiting.** -/
theorem run (h : JobTime ctrl mem k s) {cs : List Cycle} (hcs : ∀ c ∈ cs, c.ReadOnly) :
    JobTime ctrl mem (k + cs.length) (Machine.run AccelTopWrapper.step s cs) :=
  Machine.run_schedule (R := JobTime ctrl mem) (A := Cycle.ReadOnly) (T := k + cs.length)
    (fun _ _ _ _ hc h => h.step hc) h hcs (Nat.le_refl _)

end JobTime

end

/-! ## The first cycle of `DONE` -/

/-- Of the cycles of a run, the one after `n` steps is the first in `DONE`. -/
def FirstDone (s : AccelTopWrapper P) (cs : List Cycle) (n : Nat) : Prop :=
  n ≤ cs.length ∧ (Machine.run step s (cs.take n)).fsmState = .DONE ∧
    ∀ k < n, (Machine.run step s (cs.take k)).fsmState ≠ .DONE

/-- Until the last request the state is `IDLE`, which `FirstDone` needs of the cycles before. -/
theorem Standby.state_issues {bs : List BusIn} {cs : List Cycle} (hi : Issues bs cs)
    {ctrl : Vector Word P.ctrlWords} {mem : Vector Word 42} {s : AccelTopWrapper P}
    (h : Standby ctrl mem s) (hs : StartsLow ctrl bs) :
    ∀ k ≤ cs.length, (Machine.run step s (cs.take k)).fsmState = .IDLE := by
  induction hi generalizing ctrl mem s with
  | nil =>
    intro k _
    rw [List.take_nil]
    exact h.state
  | idle hc _ ih =>
    rintro (_ | k) hk
    · exact h.state
    · exact ih (h.wait hs.1 hc) hs k (Nat.le_of_succ_le_succ hk)
  | request hr hb _ ih =>
    subst hb
    rintro (_ | k) hk
    · exact h.state
    · exact ih (h.access hs.1 hr) hs.2 k (Nat.le_of_succ_le_succ hk)

/-- The cycles of a job, counted from the cycle after the last request. -/
theorem Standby.running_at {ctrl : Vector Word P.ctrlWords} {mem : Vector Word 42}
    (h : Standby ctrl mem s) {bs : List BusIn} {pre cs : List Cycle} (hi : Issues bs pre)
    (hlow : StartsLow ctrl bs) (hstart : ctrlStart (loadCtrl ctrl bs) = true)
    (hcs : ∀ c ∈ cs, KeepsCtrl (loadCtrl ctrl bs) c) {t : Nat}
    (ht : t ≤ doneCycle (ctrlLength (loadCtrl ctrl bs))) (hlen : t + 1 ≤ cs.length) :
    Running (loadCtrl ctrl bs) (loadMem P mem bs) t
      (Machine.run step s ((pre ++ cs).take (pre.length + (t + 1)))) := by
  have hready := run_issues hi h hlow
  obtain ⟨c, cs, rfl⟩ : ∃ c cs', cs = c :: cs' := List.exists_cons_of_length_pos (by omega)
  rw [List.length_cons] at hlen
  -- the cycle after the last request starts the job
  have hrun0 := hready.running hstart (hcs c (.head _))
  have hlt : (cs.take t).length = t := by rw [List.length_take]; omega
  have hr := hrun0.run (cs.take t)
    (fun c' hc' => hcs c' (.tail _ (List.mem_of_mem_take hc'))) (by omega)
  rw [hlt] at hr
  rwa [List.take_length_add_append, List.take_succ_cons, Machine.run_append, Machine.run_cons]

/-- **A job from reset to `DONE`.** The requests are issued in any schedule, the last of them sets
the start bit, and the control words are left alone from then on. -/
theorem Standby.firstDone {ctrl : Vector Word P.ctrlWords} {mem : Vector Word 42}
    (h : Standby ctrl mem s) {bs : List BusIn} {pre cs : List Cycle} (hi : Issues bs pre)
    (hlow : StartsLow ctrl bs) (hstart : ctrlStart (loadCtrl ctrl bs) = true)
    (hcs : ∀ c ∈ cs, KeepsCtrl (loadCtrl ctrl bs) c)
    (hlen : doneCycle (ctrlLength (loadCtrl ctrl bs)) + 1 ≤ cs.length) :
    FirstDone s (pre ++ cs) (pre.length + (doneCycle (ctrlLength (loadCtrl ctrl bs)) + 1)) := by
  refine ⟨?_, ?_, fun k hk => ?_⟩
  · rw [List.length_append]
    omega
  · exact (h.running_at hi hlow hstart hcs (Nat.le_refl _) hlen).job.finished.state
  · rcases Nat.lt_or_ge pre.length k with hlt | hge
    · obtain ⟨t, rfl⟩ : ∃ t, k = pre.length + (t + 1) := ⟨k - pre.length - 1, by omega⟩
      have hrun := h.running_at hi hlow hstart hcs (t := t) (by omega) (by omega)
      exact hrun.job.state_ne_done (by omega)
    · rw [List.take_append_of_le_length hge, state_issues hi h hlow k hge]
      decide

/-- There is at most one such cycle. -/
theorem FirstDone.unique {cs : List Cycle} {n n' : Nat} (h : FirstDone s cs n)
    (h' : FirstDone s cs n') : n = n' := by
  rcases Nat.lt_trichotomy n n' with hlt | rfl | hlt
  · exact absurd h.2.1 (h'.2.2 n hlt)
  · rfl
  · exact absurd h'.2.1 (h.2.2 n' hlt)

end

end ShakeAccel
