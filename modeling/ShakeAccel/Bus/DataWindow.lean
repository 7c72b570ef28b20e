import ShakeAccel.Accel.Digest
import ShakeAccel.Bus.Completion
import ShakeAccel.Lib.Log

/-!
# The data window

The data window as the CPU sees it, on runs in which the CPU makes requests only while the start bit
is 0 and no job is in progress. Every byte of the window holds what the CPU or the accelerator wrote
to it last (`memByte_run`), and a read returns it one cycle later, whatever is requested before and
after it (`dataWindow`).
-/

namespace ShakeAccel

open AccelTopWrapper

/-! ## The words of the window -/

namespace TopParams

/-- The word of the data window at an address: the window begins at the byte address with only the
top bit set. -/
def dataWord (P : TopParams) (axiMemAddrTmp : Nat) : Nat :=
  (P.axiMemAddr axiMemAddrTmp - 2 ^ (P.intAddrWidth - 1)) / 2 ^ alignBits

/-- The access to the data window that a request is. -/
def dataAccess (P : TopParams) (b : BusIn) : RamPort :=
  { P.dataPort b with addr := P.dataWord b.axiMemAddrTmp }

/-- The addresses of the RAM are all in the data window. -/
structure DataWindowFits (P : TopParams) : Prop where
  window : Nat.clog 2 P.memDepth + 3 ≤ P.intAddrWidth

variable {P : TopParams}

/-- The bits that index the RAM are those of the word of the window. -/
theorem accAddr_eq_dataWord (hP : P.DataWindowFits) {tmp : Nat} (hd : P.addrIsConfig tmp = false)
    (hw : P.dataWord tmp < 42) : P.accAddr tmp = P.dataWord tmp := by
  have hdepth := P.ram_addressed
  obtain ⟨d, hd3⟩ := Nat.exists_eq_add_of_le hP.window
  have hbase : 2 ^ (P.intAddrWidth - 1) = 2 ^ Nat.clog 2 P.memDepth * 2 ^ d * 4 := by
    rw [hd3, ← pow_add, show (4 : Nat) = 2 ^ 2 from rfl, ← pow_add]
    exact congrArg _ (by omega)
  have hle : 2 ^ (P.intAddrWidth - 1) ≤ P.axiMemAddr tmp := by
    rw [addrIsConfig, Bool.not_eq_false'] at hd
    exact Nat.ge_two_pow_of_testBit hd
  rw [dataWord, hbase] at hw ⊢
  rw [hbase] at hle
  rw [accAddr]
  rw [axiMemAddr, alignBits, show (2 : Nat) ^ 2 = 4 from rfl] at hw hle ⊢
  generalize tmp % 2 ^ (P.intAddrWidth - 2) = x at hw hle ⊢
  obtain ⟨w, rfl⟩ := Nat.exists_eq_add_of_le (Nat.le_of_mul_le_mul_right hle (by decide))
  rw [← Nat.sub_mul, Nat.add_sub_cancel_left, Nat.mul_div_cancel _ (by decide)] at hw ⊢
  rw [Nat.mul_div_cancel _ (by decide), Nat.mul_add_mod, Nat.mod_eq_of_lt (by omega)]

/-- The port of the RAM gets the access. -/
theorem dataPort_eq_dataAccess (hP : P.DataWindowFits) {b : BusIn}
    (hd : P.addrIsConfig b.axiMemAddrTmp = false) (hw : P.dataWord b.axiMemAddrTmp < 42) :
    P.dataPort b = P.dataAccess b := by
  rw [dataAccess, ← accAddr_eq_dataWord hP hd hw]
  rfl

end TopParams

/-- The byte that an access to the RAM writes to byte `i`, if there is one. -/
def RamPort.written (i : Nat) (p : RamPort) : Option Byte :=
  if p.WritesByte i then some (Bits.byteAt p.wdata (i % 4)) else none

theorem RamPort.written_off {p : RamPort} (h : (p.en && p.we) = false) (i : Nat) :
    p.written i = none :=
  if_neg fun hp => Bool.false_ne_true (h.symm.trans (by rw [hp.1, hp.2.1]; rfl))

theorem memByte_write_eq_getD (mem : Vector Word 42) (p : RamPort) {i : Nat} (hi : i < 168) :
    memByte (TrueDpRam.write mem p) i = (p.written i).getD (memByte mem i) := by
  rw [memByte_write mem p hi, RamPort.written]
  split <;> rfl

/-! ## Requests between jobs -/

section
variable {P : TopParams} {s : AccelTopWrapper P} {c : Cycle}

/-- The start bit is 0 and no job is in progress. -/
structure Quiet (s : AccelTopWrapper P) : Prop where
  start : s.startInt = false
  state : s.fsmState = .IDLE ∨ s.fsmState = .DONE

/-- A cycle whose request, if it makes one, comes while all is quiet, and addresses the
configuration window or one of the 42 words of the data window. -/
structure BetweenJobs (s : AccelTopWrapper P) (c : Cycle) : Prop where
  quiet : c.bus.axiMemReq = true → Quiet (s.settle c.rstN)
  word : c.bus.axiMemReq = true → P.addrIsConfig c.bus.axiMemAddrTmp = false →
    P.dataWord c.bus.axiMemAddrTmp < 42

/-- What accesses the RAM in a cycle: the CPU, and the accelerator through its two ports. -/
def ramAccesses (s : AccelTopWrapper P) (c : Cycle) : List RamPort :=
  [P.dataAccess c.bus, (s.settle c.rstN).accelWrapperInst.accelFsmInst.portB,
    (s.settle c.rstN).accelWrapperInst.accelFsmInst.portA]

/-- What holds besides `FsmInv` as long as the CPU makes its requests between jobs: from `WRITE`
until `done` rises the start bit is 1, and once `done` is high and the start bit 0, byte 0 of
control word 0 is 0. -/
structure JobGuard (s : AccelTopWrapper P) : Prop where
  fsm : FsmInv s.accelWrapperInst.accelFsmInst
  start : s.fsmState ≠ .IDLE → s.done = false → s.startInt = true
  cleared : s.done = true → s.startInt = false →
    clearStart s.configRegInst.ctrlReg = s.configRegInst.ctrlReg

theorem Standby.jobGuard {ctrl : Vector Word P.ctrlWords} {mem : Vector Word 42}
    (h : Standby ctrl mem s) : JobGuard s where
  fsm := h.fsmInv
  start hs := absurd h.state hs
  cleared hd := absurd (h.done.symm.trans hd) Bool.false_ne_true

/-- While the start bit is 1 there is no request, so the bit stays until `done` is high. -/
theorem BetweenJobs.startInt (hc : BetweenJobs s c) (hr : c.rstN = true) (hs : s.startInt = true)
    (hd : s.done = false) : (s.step c).startInt = true := by
  have hreq : c.bus.axiMemReq = false := by
    cases hb : c.bus.axiMemReq with
    | false => rfl
    | true =>
      have hq := (hc.quiet hb).start
      rw [settle, if_pos hr, hs] at hq
      exact absurd hq.symm Bool.false_ne_true
  rw [AccelTopWrapper.startInt, controlWord0, step_ctrlReg hr hd,
    BusIn.writeCtrl_off (by rw [hreq, Bool.false_and])]
  exact hs

namespace JobGuard

theorem settle (h : JobGuard s) (rstN : Bool) : JobGuard (s.settle rstN) := by
  cases rstN with
  | true => exact h
  | false =>
    exact ⟨fsmInv_settle h.fsm false, fun hs => absurd rfl hs,
      fun hd => absurd hd Bool.false_ne_true⟩

theorem step (h : JobGuard s) (hc : BetweenJobs s c) : JobGuard (s.step c) := by
  cases hr : c.rstN with
  | false => exact (standby_of_reset hr).jobGuard
  | true =>
    refine ⟨fsmInv_step h.fsm, fun hs hd => ?_, fun hd hs => ?_⟩
    · -- the start bit takes the machine out of `IDLE` and was 1 in the states behind it
      rw [done_step hr, decide_eq_false_iff_not] at hd
      have hlow : s.done = false := Bool.eq_false_iff.2 fun hd' => hd (h.fsm.done hd')
      refine hc.startInt hr ?_ hlow
      by_cases hidle : s.fsmState = .IDLE
      · rw [fsmState_step hr, AccelFsm.nState,
          show s.accelWrapperInst.accelFsmInst.state = .IDLE from hidle] at hs
        cases hst : s.startInt with
        | true => rfl
        | false => exact absurd (if_neg (ne_true_of_eq_false hst)) hs
      · exact h.start hidle hlow
    · -- the start bit falls in a cycle with `done` high, which clears the whole byte
      rw [done_step hr, decide_eq_true_iff] at hd
      cases hd' : s.done with
      | true => rw [step_ctrlReg_done hr hd', clearStart_idem]
      | false =>
        have hst := hc.startInt hr (h.start (by rw [hd]; decide) hd') hd'
        exact absurd (hs.symm.trans hst) Bool.false_ne_true

/-- The accelerator writes only while it has the port of the RAM. -/
theorem memWe (h : JobGuard s) (hs : s.startInt = false) :
    s.accelWrapperInst.accelFsmInst.memWe = false := by
  rw [AccelFsm.memWe]
  cases hst : s.accelWrapperInst.accelFsmInst.state with
  | IDLE | WRITE | WAIT_HASH | DONE => rfl
  | READ =>
    have hstate : s.fsmState = .READ := hst
    have hlow : s.done = false := Bool.eq_false_iff.2 fun hd =>
      absurd (hstate.symm.trans (h.fsm.done hd)) (by decide)
    have hhigh := h.start (by rw [hstate]; decide) hlow
    exact absurd (hs.symm.trans hhigh) Bool.false_ne_true

end JobGuard

/-! ## The window as a store of bytes -/

/-- The port of the RAM sees the write of the CPU. -/
theorem written_dataPort (hP : P.DataWindowFits) {b : BusIn}
    (hw : b.axiMemReq = true → P.addrIsConfig b.axiMemAddrTmp = false →
      P.dataWord b.axiMemAddrTmp < 42) (i : Nat) :
    (P.dataPort b).written i = (P.dataAccess b).written i := by
  by_cases hen : (P.dataPort b).en = true
  · have h := hen
    rw [TopParams.dataPort, Bool.and_eq_true, Bool.not_eq_true'] at h
    rw [TopParams.dataPort_eq_dataAccess hP h.2 (hw h.1 h.2)]
  · have hoff : ((P.dataPort b).en && (P.dataPort b).we) = false := by
      rw [Bool.eq_false_iff.2 hen, Bool.false_and]
    rw [RamPort.written_off hoff, RamPort.written_off (p := P.dataAccess b) hoff]

theorem ram_settle (s : AccelTopWrapper P) (rstN : Bool) : (s.settle rstN).ram = s.ram := by
  cases rstN <;> rfl

/-- The RAM after a cycle: port B of the RAM belongs to the state machine's port `a`. -/
theorem ram_step (s : AccelTopWrapper P) (c : Cycle) :
    (s.step c).ram = TrueDpRam.write
      (TrueDpRam.write s.ram ((s.settle c.rstN).accelWrapperInst.portAInt
        ((s.settle c.rstN).toWrapper c)))
      (s.settle c.rstN).accelWrapperInst.accelFsmInst.portA := by
  rw [← ram_settle s c.rstN]
  rfl

/-- **One cycle of the window.** A byte takes the last value that the cycle writes to it. -/
theorem memByte_step (hP : P.DataWindowFits) (h : JobGuard s) (hc : BetweenJobs s c) {i : Nat}
    (hi : i < 168) :
    memByte (s.step c).ram i =
      (Log.last (RamPort.written i) (ramAccesses s c)).getD (memByte s.ram i) := by
  have hg := h.settle c.rstN
  have hq := hc.quiet
  rw [ram_step, ramAccesses]
  generalize s.settle c.rstN = t at hg hq ⊢
  simp only [memByte_write_eq_getD _ _ hi, Log.getD_last_cons, Log.last_nil, Option.getD_none]
  congr 1
  cases hs : t.startInt with
  | true =>
    have hport : t.accelWrapperInst.portAInt (t.toWrapper c) =
        t.accelWrapperInst.accelFsmInst.portB := if_pos hs
    have hreq : c.bus.axiMemReq = false := Bool.eq_false_iff.2 fun hb =>
      absurd ((hq hb).start.symm.trans hs) Bool.false_ne_true
    have hoff : ((P.dataAccess c.bus).en && (P.dataAccess c.bus).we) = false := by
      rw [TopParams.dataAccess, TopParams.dataPort, hreq]
      rfl
    rw [hport, RamPort.written_off hoff, Option.getD_none]
  | false =>
    have hoff : (t.accelWrapperInst.accelFsmInst.portB.en &&
        t.accelWrapperInst.accelFsmInst.portB.we) = false := by
      rw [AccelFsm.portB, hg.memWe hs, Bool.and_false]
    rw [portAInt_of_low hs, written_dataPort hP hc.word, RamPort.written_off hoff, Option.getD_none]

/-- A run, from any state of the guard. -/
theorem memByte_run (hP : P.DataWindowFits) (h : JobGuard s) {cs : List Cycle}
    (hcs : Machine.Along step BetweenJobs s cs) {i : Nat} (hi : i < 168) :
    memByte (Machine.run step s cs).ram i =
      (Log.last (RamPort.written i) (Machine.collect step ramAccesses s cs)).getD
        (memByte s.ram i) :=
  Machine.run_last (I := JobGuard) (A := BetweenJobs) (fun s => memByte s.ram i) (RamPort.written i)
    ramAccesses (fun _ _ hc h => h.step hc) (fun _ _ hc h => memByte_step hP h hc hi) h hcs

/-! ## Accesses to the two windows -/

/-- The cycle reads word `w` of the data window. -/
structure ReadsWord (P : TopParams) (w : Nat) (c : Cycle) : Prop where
  req : c.bus.axiMemReq = true
  read : c.bus.axiMemWe = false
  data : P.addrIsConfig c.bus.axiMemAddrTmp = false
  word : P.dataWord c.bus.axiMemAddrTmp = w

/-- The word is on the bus in the next cycle, be it a reset or not. -/
theorem axiMemRdata_of_readsWord (hP : P.DataWindowFits) (hc : BetweenJobs s c) {w : Nat}
    (hw : ReadsWord P w c) (next : Cycle) :
    ((s.step c).settle next.rstN).axiMemRdata = s.ram.getD w 0 := by
  have hq := hc.quiet hw.req
  have h42 : w < 42 := by
    rw [← hw.word]
    exact hc.word hw.req hw.data
  have haddr : (P.dataPort c.bus).addr = w :=
    (TopParams.accAddr_eq_dataWord hP hw.data (by rw [hw.word]; exact h42)).trans hw.word
  have hen : (P.dataPort c.bus).en = true := by
    rw [TopParams.dataPort, hw.req, hw.data]
    rfl
  have hsel : ((s.step c).settle next.rstN).axiMemRdata =
      (s.step c).accelWrapperInst.ramInst.rdataA := by
    cases next.rstN <;> exact if_neg (ne_true_of_eq_false hw.data)
  have hrdata : (s.step c).accelWrapperInst.ramInst.rdataA =
      TrueDpRam.read (s.settle c.rstN).ram
        ((s.settle c.rstN).accelWrapperInst.portAInt ((s.settle c.rstN).toWrapper c))
        (s.settle c.rstN).accelWrapperInst.ramInst.rdataA c.undriven.oobA :=
    rfl
  rw [hsel, hrdata, portAInt_of_low hq.start, TrueDpRam.read_on _ hen (by rw [haddr]; exact h42),
    haddr, ram_settle]

/-- An access to the configuration window leaves the RAM alone. -/
theorem ram_of_config (h : JobGuard s) (hc : BetweenJobs s c) (hreq : c.bus.axiMemReq = true)
    (hcfg : P.addrIsConfig c.bus.axiMemAddrTmp = true) : (s.step c).ram = s.ram := by
  have hg := h.settle c.rstN
  have hq := hc.quiet hreq
  rw [ram_step]
  generalize s.settle c.rstN = t at hg hq ⊢
  have hcpu : ((P.dataPort c.bus).en && (P.dataPort c.bus).we) = false := by
    rw [TopParams.dataPort, hcfg, Bool.not_true, Bool.and_false, Bool.false_and]
  have hfsm : (t.accelWrapperInst.accelFsmInst.portA.en &&
      t.accelWrapperInst.accelFsmInst.portA.we) = false := by
    rw [AccelFsm.portA, hg.memWe hq.start, Bool.and_false]
  rw [portAInt_of_low hq.start, TrueDpRam.write_off _ hfsm, TrueDpRam.write_off _ hcpu]

/-- An access to the data window leaves the control words alone, also while `done` is high. -/
theorem ctrlReg_of_data (h : JobGuard s) (hc : BetweenJobs s c) (hreq : c.bus.axiMemReq = true)
    (hdata : P.addrIsConfig c.bus.axiMemAddrTmp = false) :
    (s.step c).configRegInst.ctrlReg = (s.settle c.rstN).configRegInst.ctrlReg := by
  have hq := hc.quiet hreq
  cases hr : c.rstN with
  | false => exact (standby_of_reset hr).ctrlReg
  | true =>
    rw [hr] at hq
    cases hd : s.done with
    | true => exact (step_ctrlReg_done hr hd).trans (h.cleared hd hq.start)
    | false =>
      rw [step_ctrlReg hr hd, BusIn.writeCtrl, ConfigReg.writeCtrl, if_neg]
      · rfl
      · rw [TopParams.configPort, hdata, Bool.and_false, Bool.false_and]
        exact Bool.false_ne_true

/-- A cycle in state `s`, behind the accesses `log` to a RAM that held `mem`: a read of a word of
the data window returns the bytes last written, whatever the next cycle is, and the two windows do
not disturb each other. -/
structure WindowCycle (mem : Vector Word 42) (log : List RamPort) (s : AccelTopWrapper P)
    (c : Cycle) : Prop where
  read : ∀ w, ReadsWord P w c → ∀ b < 4, ∀ next : Cycle,
    Bits.byteAt ((s.step c).settle next.rstN).axiMemRdata b =
      (Log.last (RamPort.written (4 * w + b)) log).getD (memByte mem (4 * w + b))
  config : c.bus.axiMemReq = true → P.addrIsConfig c.bus.axiMemAddrTmp = true →
    (s.step c).ram = s.ram
  data : c.bus.axiMemReq = true → P.addrIsConfig c.bus.axiMemAddrTmp = false →
    (s.step c).configRegInst.ctrlReg = (s.settle c.rstN).configRegInst.ctrlReg

/-- **The data window.** On every run from a reset in which the CPU makes its requests between jobs,
back to back and to both windows in any order. -/
theorem dataWindow (hP : P.DataWindowFits) (s0 : AccelTopWrapper P) {rst cs : List Cycle}
    (hne : rst ≠ []) (hr : ∀ c ∈ rst, c.rstN = false)
    (hcs : Machine.Along step BetweenJobs (Machine.run step s0 rst) (cs ++ [c])) :
    WindowCycle (Machine.run step s0 rst).ram
      (Machine.collect step ramAccesses (Machine.run step s0 rst) cs)
      (Machine.run step (Machine.run step s0 rst) cs) c := by
  have hg := (standby_of_resets s0 hne hr).jobGuard
  generalize Machine.run step s0 rst = s at hcs hg ⊢
  rw [Machine.along_append] at hcs
  obtain ⟨hcs, hc, -⟩ := hcs
  have hrun : JobGuard (Machine.run step s cs) := hcs.invariant (fun _ _ hc h => h.step hc) hg
  refine ⟨fun w hw b hb next => ?_, ram_of_config hrun hc, ctrlReg_of_data hrun hc⟩
  have h42 : w < 42 := by
    rw [← hw.word]
    exact hc.word hw.req hw.data
  rw [axiMemRdata_of_readsWord hP hc hw next, ← memByte_run hP hg hcs (by omega), memByte,
    show (4 * w + b) / 4 = w by omega, show (4 * w + b) % 4 = b by omega]

end

theorem pulpinoTop_dataWindowFits : pulpinoTop.DataWindowFits := ⟨by decide⟩

/-- A write to the bytes 0 and 2 of word 3, a write of the length register and a read of word 3. -/
def mixedAccesses : List Cycle :=
  [⟨true, ⟨true, 0x20003, true, 5, 0xAABBCCDD⟩, .zero⟩, ⟨true, ⟨true, 0, true, 2, 0x0F00⟩, .zero⟩,
    ⟨true, ⟨true, 0x20003, false, 0xf, 0⟩, .zero⟩]

theorem mixedAccesses_between : Machine.Along step BetweenJobs
    (Machine.run step (.blank : AccelTopWrapper pulpinoTop) [resetCycle]) mixedAccesses :=
  ⟨⟨fun _ => ⟨by decide, .inl (by decide)⟩, fun _ _ => by decide⟩,
    ⟨fun _ => ⟨by decide, .inl (by decide)⟩, fun _ _ => by decide⟩,
    ⟨fun _ => ⟨by decide, .inl (by decide)⟩, fun _ _ => by decide⟩, trivial⟩

/-- The byte written behind an access to the other window is read back. -/
theorem dataWindow_readBack :
    Bits.byteAt (Machine.run step (Machine.run step (.blank : AccelTopWrapper pulpinoTop)
      [resetCycle]) mixedAccesses).axiMemRdata 2 = 0xBB :=
  ((dataWindow pulpinoTop_dataWindowFits .blank (List.cons_ne_nil resetCycle [])
    (by simp [resetCycle]) (show Machine.Along step BetweenJobs _ (mixedAccesses.take 2 ++ [_]) from
      mixedAccesses_between)).read 3 ⟨rfl, rfl, by decide, by decide⟩ 2 (by decide)
    ⟨true, .none, .zero⟩).trans (by decide)

end ShakeAccel
