import ShakeAccel.Bus.Completion

/-!
# The driver and the accelerator together

The driver runs in a closed loop with the accelerator: in every cycle it may make its next access or
wait, and the data of a load comes one cycle later. Its poll of `DONE_REG` decodes to control word
0, where byte 1 is the length register: the first poll that is made before `done` rises ends the
loop unless the length is 1, and no poll after that ends it. So the handshake is safe for some
timings only (`handshake_safe_iff`).
-/

namespace ShakeAccel

open AccelTopWrapper

/-! ## The system -/

/-- The accelerator and the driver. -/
structure System where
  hw : AccelTopWrapper pulpinoTop
  driver : Driver

/-- One clock cycle: whether the driver makes its next access in it. -/
structure Tick where
  go : Bool
  undriven : Undriven

namespace System

/-- The driver in this cycle, which has the data of the load made in the cycle before. -/
def cpu (x : System) : Driver := x.driver.receive x.hw.axiMemRdata

/-- The inputs of the accelerator in this cycle. -/
def cycle (outlen : Nat) (x : System) (t : Tick) : Cycle where
  rstN := true
  bus := if t.go then x.cpu.request outlen else .none
  undriven := t.undriven

/-- One clock cycle. -/
def step (outlen : Nat) (x : System) (t : Tick) : System where
  hw := x.hw.step (x.cycle outlen t)
  driver := if t.go then x.cpu.issue outlen else x.cpu

/-- The call `shake128_hw(output_hw, outlen, input, inlen)` with the accelerator in state `s`. -/
def start (outlen : Nat) (input : List Byte) (s : AccelTopWrapper pulpinoTop) : System :=
  ⟨s, .start outlen input⟩

/-- If the loop has exited, the state machine is in `DONE` and every byte that was read since is
the byte that the RAM holds. -/
def Safe (x : System) : Prop :=
  ∀ i, x.cpu.pc = .read i →
    x.hw.fsmState = .DONE ∧
      ∀ k, (hk : k < x.cpu.outputHw.length) → x.cpu.outputHw[k] = memByte x.hw.ram k

end System

/-- Every run of the driver after a reset that accesses the bus by this schedule is safe in every
cycle. -/
def HandshakeSafe (outlen : Nat) (sched : List Tick) : Prop :=
  ∀ (m : List Byte) (s : AccelTopWrapper pulpinoTop) (rst : List Cycle), rst ≠ [] →
    (∀ c ∈ rst, c.rstN = false) → ∀ n ≤ sched.length,
      (Machine.run (System.step outlen) (.start outlen m (Machine.run AccelTopWrapper.step s rst))
        (sched.take n)).Safe

/-! ## Schedules -/

/-- What follows the first `k` accesses of a schedule. -/
def afterAccess : Nat → List Tick → List Tick
  | 0, ts => ts
  | _ + 1, [] => []
  | k + 1, t :: ts => if t.go then afterAccess k ts else afterAccess (k + 1) ts

/-- How many accesses come before the first poll. -/
def storeCount : Nat := rateBytes + 2

/-- The timings of the accesses after the start store for which the handshake is safe. With `g`
cycles between the start store and the first poll, and `g'` cycles between the first poll and the
next access: the length is 1, or the first poll comes when `done` is high, or its data comes when
the state machine is in `DONE` and the next access when the start bit is cleared. -/
def SafePolling (outlen : Nat) (ts : List Tick) : Prop :=
  outlen = 1 ∨ ∀ g ∈ ts.findIdx? Tick.go,
    doneCycle (outlen - 1) + 2 ≤ g ∨
      doneCycle (outlen - 1) ≤ g ∧
        ∀ g' ∈ (ts.drop (g + 1)).findIdx? Tick.go, doneCycle (outlen - 1) + 2 ≤ g + g'

/-- The schedules for which the handshake is safe. -/
def SafeTiming (outlen : Nat) (sched : List Tick) : Prop :=
  SafePolling outlen (afterAccess storeCount sched)

theorem length_shake128HwStores (L : Nat) (m : List Byte) :
    (shake128HwStores L m).length = storeCount := by
  simp [shake128HwStores, storeCount]

@[simp] theorem afterAccess_zero (ts : List Tick) : afterAccess 0 ts = ts := by
  cases ts <;> rfl

theorem afterAccess_append (k : Nat) (xs ys : List Tick) :
    ∃ zs, afterAccess k (xs ++ ys) = afterAccess k xs ++ zs := by
  induction xs generalizing k with
  | nil =>
    cases k with
    | zero => exact ⟨ys, by simp⟩
    | succ k => exact ⟨_, rfl⟩
  | cons t xs ih =>
    cases k with
    | zero => exact ⟨ys, rfl⟩
    | succ k =>
      cases hgo : t.go with
      | false => simpa only [List.cons_append, afterAccess, hgo, Bool.false_eq_true, if_false]
          using ih (k + 1)
      | true => simpa only [List.cons_append, afterAccess, hgo, if_true] using ih k

/-- The first access of a schedule. -/
theorem findIdx?_go {ts : List Tick} {g : Nat} (h : ts.findIdx? Tick.go = some g) :
    ∃ gap t, ts = gap ++ t :: ts.drop (g + 1) ∧ gap.length = g ∧ (∀ i ∈ gap, i.go = false) ∧
      t.go = true := by
  obtain ⟨hlt, hgo, hmin⟩ := List.findIdx?_eq_some_iff_getElem.1 h
  refine ⟨ts.take g, ts[g], ?_, List.length_take_of_le (Nat.le_of_lt hlt), fun i hi => ?_, hgo⟩
  · rw [List.getElem_cons_drop, List.take_append_drop]
  · obtain ⟨k, hk, rfl⟩ := List.mem_take_iff_getElem.1 hi
    exact Bool.eq_false_iff.2 (hmin k (by omega))

/-- The beginning of a safe timing is safe. -/
theorem SafePolling.of_append {L : Nat} {xs ys : List Tick} (h : SafePolling L (xs ++ ys)) :
    SafePolling L xs := by
  refine h.imp_right fun h g hg => ?_
  have hlt := (List.findIdx?_eq_some_iff_getElem.1 hg).1
  have hg' : (xs ++ ys).findIdx? Tick.go = some g := by
    rw [List.findIdx?_append, hg]
    rfl
  refine (h g hg').imp_right fun ⟨hle, h⟩ => ⟨hle, fun g' hread => h g' ?_⟩
  rw [List.drop_append_of_le_length hlt, List.findIdx?_append, hread]
  rfl

/-- So a run of which the timing is safe stays safe where it is cut. -/
theorem SafeTiming.take {L : Nat} {sched : List Tick} (h : SafeTiming L sched) (n : Nat) :
    SafeTiming L (sched.take n) := by
  obtain ⟨zs, hzs⟩ := afterAccess_append storeCount (sched.take n) (sched.drop n)
  rw [List.take_append_drop] at hzs
  rw [SafeTiming, hzs] at h
  exact h.of_append

section
variable {L : Nat} {ctrl : Vector Word pulpinoTop.ctrlWords} {mem : Vector Word 42}
  {s : AccelTopWrapper pulpinoTop} {c : Cycle} {x : System} {t : Tick} {k : Nat}

/-! ## What a load returns -/

/-- A cycle without a read of the configuration window keeps the read register. -/
theorem rdata_of_no_read (hr : c.rstN = true)
    (hn : (c.bus.axiMemReq && pulpinoTop.addrIsConfig c.bus.axiMemAddrTmp && !c.bus.axiMemWe) =
      false) : (s.step c).configRegInst.rdata = s.configRegInst.rdata := by
  rw [step_rdata s hr, select_of_no_read hn]
  rfl

/-- A poll reads control word 0, or nothing while `done` is high. -/
theorem rdata_poll (hr : c.rstN = true) (hb : c.bus = loadBus doneReg) :
    (s.step c).configRegInst.rdata =
      if s.done then s.configRegInst.rdata else s.controlWord0 := by
  have hcfg : pulpinoTop.addrIsConfig (doneReg / 4) = true := by decide
  have haddr : pulpinoTop.cfgAddr (doneReg / 4) = 0 := by decide
  rw [step_rdata s hr, toConfigReg]
  cases s.done with
  | true => rfl
  | false =>
    simp [ConfigReg.select, TopParams.configPort, hb, loadBus, hcfg, haddr,
      pulpinoTop.ctrlWords_pos, show ¬pulpinoTop.ctrlWords ≤ 0 by decide]
    rfl

theorem axiMemRdata_poll (hb : c.bus = loadBus doneReg) :
    (s.step c).axiMemRdata = (s.step c).configRegInst.rdata := by
  have hcfg : pulpinoTop.addrIsConfig (doneReg / 4) = true := by decide
  exact step_axiMemRdata_config (by rw [hb]; exact hcfg)

/-- A read of `accel_data[i]` returns the read register of port A. -/
theorem axiMemRdata_dataLoad {i : Nat} (hi : i < 168) (hb : c.bus = loadBus (accelDataBase + i)) :
    (s.step c).axiMemRdata = (s.step c).accelWrapperInst.ramInst.rdataA := by
  have hcfg := (dataStore_address (i / 4) (by omega)).1
  rw [axiMemRdata, if_neg]
  · rfl
  · rw [AccelTopWrapper.step, AccelTopWrapper.clock, hb, loadBus, (accelDataBase_add i).1]
    exact ne_true_of_eq_false hcfg

/-- Once the start bit is cleared it is byte `i` of the RAM. -/
theorem Ended.dataLoad (h : Ended false mem s) {i : Nat} (hi : i < 168) (hr : c.rstN = true)
    (hb : c.bus = loadBus (accelDataBase + i)) :
    Bits.byteAt (s.step c).axiMemRdata ((accelDataBase + i) % 4) = memByte mem i := by
  obtain ⟨hcfg, hacc⟩ := dataStore_address (i / 4) (by omega)
  obtain ⟨hdiv, hmod⟩ := accelDataBase_add i
  rw [axiMemRdata_dataLoad hi hb, step_accelWrapperInst hr, hmod]
  simp only [AccelWrapper.clock, TrueDpRam.clock, portAInt_of_low h.start]
  rw [TrueDpRam.read_on, h.ram, hb]
  · simp only [TopParams.dataPort, loadBus, hdiv, hacc]
    rfl
  · simp only [TopParams.dataPort, hb, loadBus, hdiv, hcfg, Bool.not_false, Bool.and_self]
  · simp only [TopParams.dataPort, hb, loadBus, hdiv, hacc]
    omega

/-! ## The stores -/

/-- The driver is about to make the stores `ws`, and nothing has been read since the reset. -/
structure Loading (ctrl : Vector Word pulpinoTop.ctrlWords) (mem : Vector Word 42)
    (ws : List Store) (x : System) : Prop where
  driver : x.driver = ⟨.ofStores ws, []⟩
  hw : Standby ctrl mem x.hw
  low : StartsLow ctrl (ws.map Store.bus)
  rdata : x.hw.configRegInst.rdata = 0

theorem Loading.cpu {ws : List Store} (h : Loading ctrl mem ws x) : x.cpu = ⟨.ofStores ws, []⟩ := by
  rw [System.cpu, h.driver]
  cases ws <;> rfl

/-- The inputs in a cycle in which the driver waits. -/
theorem System.cycle_wait (ht : t.go = false) : (x.cycle L t).Idle :=
  ⟨rfl, by rw [System.cycle, ht]; rfl⟩

theorem System.hw_step : (x.step L t).hw = x.hw.step (x.cycle L t) := rfl

theorem System.driver_wait (ht : t.go = false) : (x.step L t).driver = x.cpu := by
  rw [System.step, ht]
  rfl

/-- A cycle in which the driver waits keeps the read register of the configuration window. -/
theorem System.rdata_wait (ht : t.go = false) :
    (x.step L t).hw.configRegInst.rdata = x.hw.configRegInst.rdata :=
  rdata_of_no_read rfl (by rw [(System.cycle_wait ht).2]; rfl)

section
variable {w : Store} {ws : List Store}

/-- The driver waits before its next store. -/
theorem Loading.wait (h : Loading ctrl mem (w :: ws) x) (ht : t.go = false) :
    Loading ctrl mem (w :: ws) (x.step L t) :=
  ⟨(System.driver_wait ht).trans h.cpu, h.hw.wait h.low.1 (System.cycle_wait ht), h.low,
    (System.rdata_wait ht).trans h.rdata⟩

/-- A store: its request reaches the register file or the RAM, and the driver goes on. -/
theorem Loading.store (h : Loading ctrl mem (w :: ws) x) (ht : t.go = true) :
    Loading (w.bus.writeCtrl ctrl) (w.bus.writeMem pulpinoTop mem) ws (x.step L t) := by
  have hbus : (x.cycle L t).bus = w.bus := by
    rw [System.cycle, ht, if_pos rfl, h.cpu]
    rfl
  have hw := h.hw.access h.low.1 (c := x.cycle L t) rfl
  rw [hbus] at hw
  refine ⟨?_, hw, h.low.2, (rdata_of_no_read rfl ?_).trans h.rdata⟩
  · rw [System.step, ht, if_pos rfl, h.cpu]
    rfl
  · rw [hbus, Store.bus, Bool.not_true, Bool.and_false]

end

/-- The run of the stores: either the schedule begins with the cycles of all of them, or it ends
before. -/
theorem Loading.run {ws : List Store} (h : Loading ctrl mem ws x) (sched : List Tick) :
    (∃ pre, sched = pre ++ afterAccess ws.length sched ∧
      Loading (loadCtrl ctrl (ws.map Store.bus)) (loadMem pulpinoTop mem (ws.map Store.bus)) []
        (Machine.run (System.step L) x pre)) ∨
      afterAccess ws.length sched = [] ∧
        ∃ w ws', (Machine.run (System.step L) x sched).cpu = ⟨.store w ws', []⟩ := by
  induction sched generalizing x ctrl mem ws with
  | nil =>
    cases ws with
    | nil => exact .inl ⟨[], rfl, h⟩
    | cons w ws => exact .inr ⟨rfl, w, ws, h.cpu⟩
  | cons t sched ih =>
    cases ws with
    | nil => exact .inl ⟨[], by simp, h⟩
    | cons w ws =>
      rw [Machine.run_cons]
      cases ht : t.go with
      | false =>
        simp only [List.length_cons, afterAccess, ht, Bool.false_eq_true, if_false]
        refine (ih (h.wait ht)).imp_left fun ⟨pre, hpre, hy⟩ => ⟨t :: pre, ?_, hy⟩
        exact congrArg (t :: ·) hpre
      | true =>
        simp only [List.length_cons, afterAccess, ht, if_true]
        refine (ih (h.store ht)).imp_left fun ⟨pre, hpre, hy⟩ => ⟨t :: pre, ?_, hy⟩
        exact congrArg (t :: ·) hpre

/-! ## After the stores -/

/-- Byte 1 of control word 0, which the poll shows. -/
def lengthByte (ctrl : Vector Word pulpinoTop.ctrlWords) : Byte :=
  Bits.byteAt (ctrl.get ⟨0, pulpinoTop.ctrlWords_pos⟩) 1

/-- After the stores the driver only reads. -/
theorem System.cycle_readOnly {i : Nat} {out : List Byte}
    (h : x.cpu = ⟨.poll, out⟩ ∨ x.cpu = ⟨.read i, out⟩) : (x.cycle L t).ReadOnly := by
  have hwe : (x.cycle L t).bus.axiMemWe = false := by
    rw [System.cycle]
    split
    · rcases h with h | h <;> rw [h, Driver.request]
      · rfl
      · simp only
        split <;> rfl
    · rfl
  exact ⟨rfl, by rw [hwe, Bool.and_false]⟩

/-- A poll: the driver decides on byte 1 of the read register. -/
theorem System.step_poll (h : x.cpu = ⟨.poll, []⟩) (ht : t.go = true) :
    ((x.step L t).hw.configRegInst.rdata =
      if x.hw.done then x.hw.configRegInst.rdata else x.hw.controlWord0) ∧
    (x.step L t).cpu =
      ⟨if Bits.byteAt (x.step L t).hw.configRegInst.rdata 1 = 0 then .poll else .read 0, []⟩ := by
  have hbus : (x.cycle L t).bus = loadBus doneReg := by
    rw [System.cycle, ht, if_pos rfl, h]
    rfl
  have hdriver : (x.step L t).driver = ⟨.pollWait, []⟩ := by
    rw [System.step, ht, if_pos rfl, h]
    rfl
  refine ⟨rdata_poll rfl hbus, ?_⟩
  rw [System.cpu, System.hw_step, axiMemRdata_poll hbus, hdriver]
  rfl

/-- The driver waits before its first poll, in cycle `k` after the start store. -/
structure Unpolled (ctrl : Vector Word pulpinoTop.ctrlWords) (mem : Vector Word 42) (k : Nat)
    (x : System) : Prop where
  driver : x.driver = ⟨.poll, []⟩
  hw : JobTime ctrl mem k x.hw
  rdata : x.hw.configRegInst.rdata = 0

/-- The polls return 0: the length byte is 0, or `done` is high and the read register is kept. -/
structure Stuck (ctrl : Vector Word pulpinoTop.ctrlWords) (mem : Vector Word 42) (k : Nat)
    (x : System) : Prop where
  cpu : x.cpu = ⟨.poll, []⟩
  hw : JobTime ctrl mem k x.hw
  rdata : Bits.byteAt x.hw.configRegInst.rdata 1 = 0
  late : lengthByte ctrl = 0 ∨ doneCycle (ctrlLength ctrl) + 2 ≤ k

/-- The loop has exited and nothing has been read since. -/
structure Exited (ctrl : Vector Word pulpinoTop.ctrlWords) (mem : Vector Word 42) (k : Nat)
    (x : System) : Prop where
  cpu : x.cpu = ⟨.read 0, []⟩
  hw : JobTime ctrl mem k x.hw

/-- The start bit is cleared, and `i` bytes of the RAM have been read. -/
structure Fetched (L : Nat) (mem : Vector Word 42) (i : Nat) (x : System) : Prop where
  cpu : x.cpu = ⟨.read i, (List.range i).map (memByte mem)⟩
  hw : Ended false mem x.hw
  le : i ≤ L

/-- The last store has set the start bit: cycle 0 of the job. -/
theorem Loading.unpolled (h : Loading ctrl mem [] x) (hs : ctrlStart ctrl = true) :
    Unpolled ctrl mem 0 x :=
  ⟨h.driver, h.hw.jobTime hs, h.rdata⟩

namespace Unpolled

theorem cpu (h : Unpolled ctrl mem k x) : x.cpu = ⟨.poll, []⟩ := by
  rw [System.cpu, h.driver]
  rfl

theorem wait (h : Unpolled ctrl mem k x) (ht : t.go = false) :
    Unpolled ctrl mem (k + 1) (x.step L t) :=
  ⟨(System.driver_wait ht).trans h.cpu, h.hw.step (System.cycle_wait ht).readOnly,
    (System.rdata_wait ht).trans h.rdata⟩

/-- The job advances while the driver waits. -/
theorem run_wait (h : Unpolled ctrl mem k x) {ts : List Tick} (hts : ∀ t ∈ ts, t.go = false) :
    Unpolled ctrl mem (k + ts.length) (Machine.run (System.step L) x ts) :=
  Machine.run_schedule (R := Unpolled ctrl mem) (A := fun t => t.go = false) (T := k + ts.length)
    (fun _ _ _ _ ht h => h.wait ht) h hts (Nat.le_refl _)

/-- Where the condition of the timing fails the first poll is one of those that return 0. -/
theorem stuck (h : Unpolled ctrl mem k x)
    (hl : lengthByte ctrl = 0 ∨ doneCycle (ctrlLength ctrl) + 2 ≤ k) : Stuck ctrl mem k x :=
  ⟨h.cpu, h.hw, by rw [h.rdata, Bits.byteAt_zero], hl⟩

/-- A poll while `done` is low shows the length byte, and the loop exits. -/
theorem exit (h : Unpolled ctrl mem k x) (ht : t.go = true)
    (hk : k ≤ doneCycle (ctrlLength ctrl) + 1) (hl : lengthByte ctrl ≠ 0) :
    Exited ctrl mem (k + 1) (x.step L t) := by
  obtain ⟨hrdata, hcpu⟩ := System.step_poll (L := L) h.cpu ht
  rw [h.hw.done, decide_eq_false (by omega), if_neg Bool.false_ne_true, controlWord0,
    h.hw.ctrlReg hk] at hrdata
  refine ⟨?_, h.hw.step (System.cycle_readOnly (i := 0) (.inl h.cpu))⟩
  rw [hcpu, hrdata, if_neg (show ¬Bits.byteAt _ 1 = 0 from hl)]

end Unpolled

namespace Stuck

/-- A poll that returns 0 is followed by another one. -/
theorem step (h : Stuck ctrl mem k x) (t : Tick) : Stuck ctrl mem (k + 1) (x.step L t) := by
  have hw := h.hw.step (System.cycle_readOnly (L := L) (t := t) (i := 0) (.inl h.cpu))
  have hlate := h.late.imp_right fun hk => Nat.le_succ_of_le hk
  cases ht : t.go with
  | false =>
    refine ⟨?_, hw, by rw [System.rdata_wait ht, h.rdata], hlate⟩
    rw [System.cpu, System.driver_wait ht, h.cpu]
    rfl
  | true =>
    obtain ⟨hrdata, hcpu⟩ := System.step_poll (L := L) h.cpu ht
    have hbyte : Bits.byteAt (x.step L t).hw.configRegInst.rdata 1 = 0 := by
      rw [hrdata]
      by_cases hk : doneCycle (ctrlLength ctrl) + 2 ≤ k
      · rw [h.hw.done, decide_eq_true hk, if_pos rfl, h.rdata]
      · rw [h.hw.done, decide_eq_false hk, if_neg Bool.false_ne_true, controlWord0,
          h.hw.ctrlReg (by omega)]
        exact h.late.resolve_right hk
    exact ⟨by rw [hcpu, if_pos hbyte], hw, hbyte, hlate⟩

/-- No byte is read, so no wrong one. -/
theorem safe (h : Stuck ctrl mem k x) : x.Safe := by
  intro i hi
  rw [h.cpu] at hi
  exact nomatch hi

/-- A stuck driver polls for ever. -/
theorem run_safe (h : Stuck ctrl mem k x) (ts : List Tick) :
    (Machine.run (System.step L) x ts).Safe := by
  have hrun : ∃ k, Stuck ctrl mem k (Machine.run (System.step L) x ts) :=
    Machine.run_invariant (I := fun x => ∃ k, Stuck ctrl mem k x) (A := fun _ => True)
      (fun _ t _ ⟨k, h⟩ => ⟨k + 1, h.step t⟩) ⟨k, h⟩ fun _ _ => trivial
  obtain ⟨k', h'⟩ := hrun
  exact h'.safe

end Stuck

namespace Exited

theorem wait (h : Exited ctrl mem k x) (ht : t.go = false) :
    Exited ctrl mem (k + 1) (x.step L t) := by
  refine ⟨?_, h.hw.step (System.cycle_wait ht).readOnly⟩
  rw [System.cpu, System.driver_wait ht, h.cpu]
  rfl

theorem run_wait (h : Exited ctrl mem k x) {ts : List Tick} (hts : ∀ t ∈ ts, t.go = false) :
    Exited ctrl mem (k + ts.length) (Machine.run (System.step L) x ts) :=
  Machine.run_schedule (R := Exited ctrl mem) (A := fun t => t.go = false) (T := k + ts.length)
    (fun _ _ _ _ ht h => h.wait ht) h hts (Nat.le_refl _)

/-- From the first cycle of `DONE` on the exit of the loop is safe. -/
theorem safe (h : Exited ctrl mem k x) (hk : doneCycle (ctrlLength ctrl) + 1 ≤ k) : x.Safe := by
  intro i _
  refine ⟨(h.hw.final hk).1, fun j hj => ?_⟩
  rw [h.cpu] at hj
  exact absurd hj (Nat.not_lt_zero j)

/-- Two cycles later the start bit is cleared, and the reads of the CPU reach the RAM. -/
theorem fetched (h : Exited ctrl mem k x) (hk : doneCycle (ctrlLength ctrl) + 3 ≤ k) :
    Fetched L (jobRam mem (ctrlLength ctrl)) 0 x := by
  have hend := h.hw.ended (by omega)
  rw [decide_eq_false (by omega)] at hend
  exact ⟨h.cpu, hend, Nat.zero_le L⟩

end Exited

namespace Fetched

variable {i : Nat}

/-- A read returns the byte of the RAM; in all other cycles the bytes stay as they are. -/
theorem step (h64 : L ≤ 64) (h : Fetched L mem i x) (t : Tick) :
    ∃ i', Fetched L mem i' (x.step L t) := by
  have hro : (x.cycle L t).ReadOnly :=
    System.cycle_readOnly (.inr h.cpu)
  have hw := h.hw.read hro
  by_cases hread : t.go = true ∧ i < L
  · obtain ⟨ht, hi⟩ := hread
    have hbus : (x.cycle L t).bus = loadBus (accelDataBase + i) := by
      rw [System.cycle, ht, if_pos rfl, h.cpu]
      simp only [Driver.request, hi, if_true]
    have hbyte := h.hw.dataLoad (c := x.cycle L t) (by omega) rfl hbus
    refine ⟨i + 1, ?_, hw, hi⟩
    rw [System.cpu, System.step, ht, if_pos rfl, h.cpu]
    simp only [Driver.issue, hi, if_true, Driver.receive, hbyte, List.range_succ, List.map_append,
      List.map_cons, List.map_nil]
  · refine ⟨i, ?_, hw, h.le⟩
    have hdriver : (x.step L t).driver = x.cpu := by
      rw [System.step]
      split
      next ht =>
        rw [h.cpu]
        simp only [Driver.issue, if_neg fun hi => hread ⟨ht, hi⟩]
      next => rfl
    rw [System.cpu, hdriver, h.cpu]
    rfl

theorem safe (h : Fetched L mem i x) : x.Safe := by
  intro j _
  refine ⟨h.hw.state, fun k hk => ?_⟩
  have hram : x.hw.ram = mem := h.hw.ram
  simp only [h.cpu, hram, List.getElem_map, List.getElem_range]

/-- **The reads are safe from there to the end.** -/
theorem run_safe (h64 : L ≤ 64) (h : Fetched L mem i x) (ts : List Tick) :
    (Machine.run (System.step L) x ts).Safe := by
  have hrun : ∃ i, Fetched L mem i (Machine.run (System.step L) x ts) :=
    Machine.run_invariant (I := fun x => ∃ i, Fetched L mem i x) (A := fun _ => True)
      (fun _ t _ ⟨_, h⟩ => h.step h64 t) ⟨i, h⟩ fun _ _ => trivial
  obtain ⟨i', h'⟩ := hrun
  exact h'.safe

end Fetched

/-! ## Safe and unsafe timings -/

/-- The timing of the accesses after the start store is enough for the handshake to be safe. -/
theorem Unpolled.run_safe (h64 : L ≤ 64) (h : Unpolled ctrl mem 0 x)
    (hl : ctrlLength ctrl = L - 1) (hb : lengthByte ctrl = 0 ↔ L = 1) {ts : List Tick}
    (hts : SafePolling L ts) : (Machine.run (System.step L) x ts).Safe := by
  by_cases hL : L = 1
  · exact (h.stuck (.inl (hb.2 hL))).run_safe ts
  have hg := hts.resolve_left hL
  cases hf : ts.findIdx? Tick.go with
  | none =>
    have hwait := h.run_wait (L := L) fun t ht => List.findIdx?_eq_none_iff.1 hf t ht
    intro i hi
    rw [hwait.cpu] at hi
    exact nomatch hi
  | some g =>
    obtain ⟨gap, t, hsplit, hlen, hgap, ht⟩ := findIdx?_go hf
    have hwait := h.run_wait (L := L) hgap
    rw [Nat.zero_add, hlen] at hwait
    rw [hsplit, Machine.run_append, Machine.run_cons]
    by_cases hlate : doneCycle (L - 1) + 2 ≤ g
    · exact ((hwait.stuck (.inr (by rwa [hl]))).step t).run_safe _
    obtain ⟨hle, hread⟩ := (hg g hf).resolve_left hlate
    have hexit := hwait.exit (L := L) ht (by rw [hl]; omega) (fun h0 => hL (hb.1 h0))
    cases hf' : (ts.drop (g + 1)).findIdx? Tick.go with
    | none =>
      refine (hexit.run_wait fun t ht => List.findIdx?_eq_none_iff.1 hf' t ht).safe ?_
      rw [hl]
      omega
    | some g' =>
      obtain ⟨gap', t', hsplit', hlen', hgap', -⟩ := findIdx?_go hf'
      have hwait' := hexit.run_wait (L := L) hgap'
      rw [hsplit', Machine.run_append]
      refine (hwait'.fetched (L := L) ?_).run_safe h64 _
      have := hread g' hf'
      rw [hl, hlen']
      omega

/-- A read before the start bit is cleared returns the word that the job read last. -/
theorem Exited.fetch_stale (h : Exited ctrl mem k x) (hL : 0 < L) (ht : t.go = true)
    (hk : doneCycle (ctrlLength ctrl) ≤ k) (hk' : k ≤ doneCycle (ctrlLength ctrl) + 2) :
    (x.step L t).cpu = ⟨.read 1, [Bits.byteAt (jobWord mem (ctrlLength ctrl)) 0]⟩ ∧
      JobTime ctrl mem (k + 1) (x.step L t).hw := by
  have hbus : (x.cycle L t).bus = loadBus (accelDataBase + 0) := by
    rw [System.cycle, ht, if_pos rfl, h.cpu]
    simp only [Driver.request, hL, if_true]
  have hro : (x.cycle L t).ReadOnly :=
    System.cycle_readOnly (.inr h.cpu)
  have hdriver : (x.step L t).driver = ⟨.readWait 0, []⟩ := by
    rw [System.step, ht, if_pos rfl, h.cpu]
    simp only [Driver.issue, hL, if_true]
  refine ⟨?_, h.hw.step hro⟩
  rw [System.cpu, hdriver, System.hw_step, axiMemRdata_dataLoad (by decide) hbus,
    h.hw.step_rdataA (hro.bystander ctrl) hk hk']
  rfl

/-- For the empty message that word does not begin like the digest. -/
theorem byteAt_jobWord_ne (h64 : L ≤ 64) (hmem : ∀ j < 168, memByte mem j = accelDataByte [] j) :
    Bits.byteAt (jobWord mem (L - 1)) 0 ≠ memByte (jobRam mem (L - 1)) 0 := by
  have hlanes := lanesStored_le h64
  have hword : Bits.byteAt (jobWord mem (L - 1)) 0 = 0 := by
    have hbyte := hmem (4 * (2 * (lanesStored (L - 1) - 1) + 1)) (by omega)
    rw [memByte, Nat.mul_div_cancel_left _ (by decide : 0 < 4), Nat.mul_mod_right] at hbyte
    rw [jobWord, hbyte, accelDataByte, if_neg (by simp),
      if_neg (by simp only [List.length_nil]; omega), if_neg (by rw [rateBytes]; omega)]
  rw [hword, memByte_jobRam h64 (by decide) hmem (by decide)]
  split
  · exact (stateByte_shakeState_nil.2 0 (by decide)).symm
  · decide

/-- For any other timing the run of the empty message is not safe. -/
theorem Unpolled.exists_not_safe (h1 : 1 ≤ L) (h64 : L ≤ 64) (h : Unpolled ctrl mem 0 x)
    (hl : ctrlLength ctrl = L - 1) (hb : lengthByte ctrl = 0 ↔ L = 1)
    (hmem : ∀ j < 168, memByte mem j = accelDataByte [] j) {ts : List Tick}
    (hts : ¬SafePolling L ts) :
    ∃ n ≤ ts.length, ¬(Machine.run (System.step L) x (ts.take n)).Safe := by
  simp only [SafePolling, not_or, not_forall, not_and] at hts
  obtain ⟨hL, g, hf, hlate, hread⟩ := hts
  obtain ⟨gap, t, hsplit, hlen, hgap, ht⟩ := findIdx?_go hf
  have hwait := h.run_wait (L := L) hgap
  rw [Nat.zero_add, hlen] at hwait
  have hexit := hwait.exit (L := L) ht (by rw [hl]; omega) (fun h0 => hL (hb.1 h0))
  by_cases hearly : g < doneCycle (L - 1)
  · -- the loop exits before the state machine is in `DONE`
    refine ⟨g + 1, ?_, fun hsafe => ?_⟩
    · rw [hsplit, List.length_append, List.length_cons]
      omega
    · rw [hsplit, ← hlen, List.take_length_add_append, List.take_succ_cons, List.take_zero,
        Machine.run_append, Machine.run_cons, Machine.run_nil] at hsafe
      exact hexit.hw.state_ne_done (by rw [hl]; omega) (hsafe 0 (by rw [hexit.cpu])).1
  · -- the first read comes before the start bit is cleared
    obtain ⟨g', hf', hlt⟩ := hread (Nat.not_lt.1 hearly)
    obtain ⟨gap', t', hsplit', hlen', hgap', ht'⟩ := findIdx?_go hf'
    have hwait' := hexit.run_wait (L := L) hgap'
    obtain ⟨hcpu, hw⟩ := hwait'.fetch_stale (L := L) h1 ht' (by rw [hl]; omega)
      (by rw [hl, hlen']; omega)
    refine ⟨g + 1 + (g' + 1), ?_, fun hsafe => ?_⟩
    · rw [hsplit, hsplit', List.length_append, List.length_cons, List.length_append,
        List.length_cons]
      omega
    · rw [hsplit, hsplit', ← hlen, Nat.add_assoc, List.take_length_add_append, Nat.add_comm 1,
        List.take_succ_cons, ← hlen', List.take_length_add_append, List.take_succ_cons,
        List.take_zero, Machine.run_append, Machine.run_cons, Machine.run_append, Machine.run_cons,
        Machine.run_nil] at hsafe
      have hbyte := (hsafe 1 (by rw [hcpu])).2 0 (by rw [hcpu]; exact Nat.one_pos)
      simp only [hcpu, (hw.final (by rw [hl, hlen']; omega)).2, hl, List.getElem_cons_zero] at hbyte
      exact byteAt_jobWord_ne h64 hmem hbyte

end

/-! ## The whole run -/

/-- The driver before its stores, after a reset from any state. -/
theorem loading_start {L : Nat} (h1 : 1 ≤ L) (h64 : L ≤ 64) (m : List Byte)
    (s : AccelTopWrapper pulpinoTop) {rst : List Cycle} (hne : rst ≠ [])
    (hrst : ∀ c ∈ rst, c.rstN = false) :
    Loading (.replicate _ 0) (Machine.run AccelTopWrapper.step s rst).accelWrapperInst.ramInst.mem
      (shake128HwStores L m) (.start L m (Machine.run AccelTopWrapper.step s rst)) where
  driver := rfl
  hw := standby_of_resets s hne hrst
  low := (load_shake128HwStores h1 h64 m ctrlStart_replicate_zero (.replicate 42 0)).1
  rdata := rdata_of_resets s hne hrst

/-- What the driver's stores leave for the polls. -/
theorem Loading.unpolled_start {L : Nat} (h1 : 1 ≤ L) (h64 : L ≤ 64) {m : List Byte}
    {mem : Vector Word 42} {y : System}
    (h : Loading (loadCtrl (.replicate _ 0) ((shake128HwStores L m).map Store.bus))
      (loadMem pulpinoTop mem ((shake128HwStores L m).map Store.bus)) [] y) :
    ∃ ctrl mem', Unpolled ctrl mem' 0 y ∧ ctrlLength ctrl = L - 1 ∧
      (lengthByte ctrl = 0 ↔ L = 1) ∧ ∀ j < 168, memByte mem' j = accelDataByte m j := by
  obtain ⟨-, hstart, hlen, hmem⟩ := load_shake128HwStores h1 h64 m ctrlStart_replicate_zero mem
  refine ⟨_, _, h.unpolled hstart, hlen, ?_, hmem⟩
  rw [lengthByte, byteAt_shake128HwStores h1]
  constructor
  · intro h0
    have := congrArg BitVec.toNat h0
    rw [BitVec.toNat_ofNat] at this
    simp only [BitVec.ofNat_eq_ofNat, BitVec.toNat_ofNat] at this
    omega
  · rintro rfl
    rfl

theorem handshakeSafe_of_safeTiming {L : Nat} (h1 : 1 ≤ L) (h64 : L ≤ 64) {sched : List Tick}
    (h : SafeTiming L sched) : HandshakeSafe L sched := by
  intro m s rst hne hrst n _
  have htake := h.take n
  rw [SafeTiming, ← length_shake128HwStores L m] at htake
  rcases (loading_start h1 h64 m s hne hrst).run (L := L) (sched.take n) with
    ⟨pre, hpre, hy⟩ | ⟨-, w, ws, hcpu⟩
  · obtain ⟨ctrl, mem, hun, hl, hb, -⟩ := hy.unpolled_start h1 h64
    rw [hpre, Machine.run_append]
    exact hun.run_safe h64 hl hb htake
  · intro i hi
    rw [hcpu] at hi
    exact nomatch hi

theorem not_handshakeSafe {L : Nat} (h1 : 1 ≤ L) (h64 : L ≤ 64) {sched : List Tick}
    (h : ¬SafeTiming L sched) : ¬HandshakeSafe L sched := by
  intro hall
  have hrst : ∀ c ∈ [resetCycle], c.rstN = false := by simp [resetCycle]
  have hne : [resetCycle] ≠ [] := List.cons_ne_nil resetCycle []
  rw [SafeTiming, ← length_shake128HwStores L []] at h
  rcases (loading_start h1 h64 [] .blank hne hrst).run (L := L) sched with
    ⟨pre, hpre, hy⟩ | ⟨hnil, -⟩
  · obtain ⟨ctrl, mem, hun, hl, hb, hmem⟩ := hy.unpolled_start h1 h64
    obtain ⟨n, hn, hunsafe⟩ := hun.exists_not_safe h1 h64 hl hb hmem h
    have hsafe := hall [] .blank [resetCycle] hne hrst (pre.length + n) (by
      rw [hpre, List.length_append]
      omega)
    rw [hpre, List.take_length_add_append, Machine.run_append] at hsafe
    exact hunsafe hsafe
  · rw [hnil] at h
    exact h (.inr fun g hg => absurd hg (Option.not_mem_none g))

/-- **When the handshake is safe.** For every length and every schedule: all runs are safe in every
cycle if and only if the timing of the accesses after the start store is one of the safe ones. -/
theorem handshake_safe_iff {L : Nat} (h1 : 1 ≤ L) (h64 : L ≤ 64) (sched : List Tick) :
    HandshakeSafe L sched ↔ SafeTiming L sched := by
  refine ⟨fun h => ?_, handshakeSafe_of_safeTiming h1 h64⟩
  by_contra hne
  exact not_handshakeSafe h1 h64 hne h

/-- A cycle with the driver's next access. -/
def Tick.access : Tick := ⟨true, .zero⟩

/-- A cycle in which the driver waits. -/
def Tick.wait : Tick := ⟨false, .zero⟩

/-- A schedule that makes the 170 stores back to back, waits `g` cycles, polls, waits `g'` cycles
and then makes `n` more accesses. -/
def pollSchedule (g g' n : Nat) : List Tick :=
  .replicate storeCount Tick.access ++ .replicate g Tick.wait ++ [Tick.access] ++
    .replicate g' Tick.wait ++ .replicate n Tick.access

theorem afterAccess_stores (k : Nat) (ts : List Tick) :
    afterAccess k (.replicate k Tick.access ++ ts) = ts := by
  induction k with
  | zero => simp
  | succ k ih => exact ih

theorem findIdx?_wait (g : Nat) (ts : List Tick) :
    (List.replicate g Tick.wait ++ Tick.access :: ts).findIdx? Tick.go = some g := by
  induction g with
  | zero => rfl
  | succ g ih => rw [List.replicate_succ, List.cons_append, List.findIdx?_cons, ih]; rfl

/-- Which of these schedules are safe. -/
theorem safeTiming_pollSchedule (L g g' n : Nat) :
    SafeTiming L (pollSchedule g g' (n + 1)) ↔
      L = 1 ∨ doneCycle (L - 1) + 2 ≤ g ∨
        doneCycle (L - 1) ≤ g ∧ doneCycle (L - 1) + 2 ≤ g + g' := by
  have hsched : pollSchedule g g' (n + 1) = .replicate storeCount Tick.access ++
      (.replicate g Tick.wait ++ Tick.access :: (.replicate g' Tick.wait ++
        Tick.access :: .replicate n Tick.access)) := by
    simp only [pollSchedule, List.append_assoc, List.cons_append, List.nil_append,
      List.replicate_succ]
  have hdrop : ∀ ts, (List.replicate g Tick.wait ++ Tick.access :: ts).drop
      (g + 1) = ts := fun ts => by
    rw [← List.drop_drop, List.drop_left' (List.length_replicate ..)]
    rfl
  rw [SafeTiming, hsched, afterAccess_stores, SafePolling, findIdx?_wait]
  simp only [Option.mem_some_iff, forall_eq', hdrop, findIdx?_wait]

/-- With 51 cycles before the poll and 2 after it the benchmark's 16 bytes are read safely. -/
theorem handshake_safe_iff_sixteen : HandshakeSafe 16 (pollSchedule 51 2 32) :=
  (handshake_safe_iff (by decide) (by decide) _).2
    ((safeTiming_pollSchedule 16 51 2 31).2 (by decide))

/-- Polling at once reads control word 0 with the length 15 in it: the loop exits. -/
theorem handshake_not_safe : ¬HandshakeSafe 16 (pollSchedule 0 0 16) :=
  not_handshakeSafe (by decide) (by decide)
    fun h => absurd ((safeTiming_pollSchedule 16 0 0 15).1 h) (by decide)

end ShakeAccel
