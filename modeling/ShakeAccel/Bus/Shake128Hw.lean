import ShakeAccel.Accel.Digest
import ShakeAccel.Bus.Driver
import ShakeAccel.Bus.Job

/-!
# The driver's job against the software function

What the stores of `shake128_hw` leave in the control words and in the RAM
(`load_shake128HwStores`), and what a job makes of it (`shake128Hw_result`): the first
`8 * lanesStored (outlen - 1)` bytes are the digest, the others are still the block. So the job is
correct exactly for the lengths of which every byte is stored.
-/

namespace ShakeAccel

open Vec AccelTopWrapper

/-! ## The block -/

/-- For messages of up to 166 bytes the driver stores the block that `keccak_absorb` builds. -/
theorem accelDataByte_eq {m : List Byte} (hm : m.length < 167) {i : Nat} (hi : i < 168) :
    accelDataByte m i = (lastBlock shake128Rate m 0x1F).getD i 0 := by
  have hr : shake128Rate.bytes = 168 := rfl
  rw [lastBlock_eq_pad _ _ (by omega), Sponge.getD_pad _ (by omega) (by omega), hr, accelDataByte,
    show rateBytes - 1 = 167 from rfl]
  by_cases hlast : i = 167
  · subst hlast
    simp [show ¬167 < m.length by omega, show ¬167 = m.length by omega]
  · simp [hlast]

/-- The memory after a store, as the driver sees it: a function of the address. -/
def Store.write (mem : Nat → Byte) (w : Store) : Nat → Byte :=
  fun a => if a = w.addr then w.data else mem a

/-- The bytes `accel_data[0]` to `accel_data[RATE_BYTES - 1]`. -/
def accelData (mem : Nat → Byte) : List Byte :=
  (List.range rateBytes).map fun i => mem (accelDataBase + i)

/-- The loop of the driver over the bytes of the block. -/
theorem write_blockLoop (m : List Byte) (mem : Nat → Byte) (n i : Nat) :
    ((List.range n).map fun k => (⟨accelDataBase + k, accelDataByte m k⟩ : Store)).foldl
        Store.write mem (accelDataBase + i) =
      if i < n then accelDataByte m i else mem (accelDataBase + i) := by
  induction n with
  | zero => rfl
  | succ n ih =>
    rw [List.range_succ, List.map_append, List.foldl_append, List.map_cons, List.map_nil,
      List.foldl_cons, List.foldl_nil, Store.write, ih]
    by_cases h : i = n
    · rw [if_pos (by simp [h]), if_pos (by omega), h]
    · rw [if_neg (by simp; omega)]
      by_cases hlt : i < n
      · rw [if_pos hlt, if_pos (by omega)]
      · rw [if_neg hlt, if_neg (by omega)]

/-- The block that the stores of `shake128_hw` leave, whatever the memory held. -/
theorem accelData_shake128HwStores (outlen : Nat) (m : List Byte) (mem : Nat → Byte) :
    accelData ((shake128HwStores outlen m).foldl Store.write mem) =
      (List.range rateBytes).map (accelDataByte m) := by
  refine List.map_congr_left fun i hi => ?_
  have hi : i < rateBytes := List.mem_range.1 hi
  rw [shake128HwStores, List.cons_append, List.foldl_cons, List.foldl_append, List.foldl_cons,
    List.foldl_nil, Store.write, if_neg (by simp only [accelDataBase, startReg]; omega),
    write_blockLoop, if_pos hi]

/-- At 167 bytes the suffix and the final bit share byte 167, and the driver stores the suffix
alone. -/
theorem accelDataByte_last {m : List Byte} (hm : m.length = 167) :
    accelDataByte m 167 = 0x1F ∧ (lastBlock shake128Rate m 0x1F).getD 167 0 = 0x9F := by
  refine ⟨by rw [accelDataByte, if_neg (by omega), if_pos hm.symm], ?_⟩
  have hr : shake128Rate.bytes = 168 := rfl
  rw [lastBlock_eq_pad _ _ (by omega), Sponge.getD_pad _ (by omega) (by omega), hr,
    if_neg (by omega), if_pos hm.symm, if_pos rfl]
  rfl

/-- **When the driver pads as the software does**: for every message shorter than the rate except
those one byte shorter. -/
theorem accelData_eq_lastBlock_iff (outlen : Nat) (mem : Nat → Byte) {m : List Byte}
    (hm : m.length ≤ 167) :
    accelData ((shake128HwStores outlen m).foldl Store.write mem) = lastBlock shake128Rate m 0x1F ↔
      m.length ≠ 167 := by
  have hlen : (lastBlock shake128Rate m 0x1F).length = rateBytes :=
    length_lastBlock _ _ (Nat.lt_succ_of_le hm)
  rw [accelData_shake128HwStores]
  constructor
  · intro heq h167
    obtain ⟨hdrv, hsw⟩ := accelDataByte_last h167
    rw [← heq, List.getD_eq_getElem?_getD, List.getElem?_map,
      List.getElem?_range (show 167 < rateBytes by decide), Option.map_some, Option.getD_some,
      hdrv] at hsw
    exact absurd hsw (by decide)
  · intro hne
    refine List.ext_getElem (by rw [List.length_map, List.length_range, hlen]) fun i h1 h2 => ?_
    have hi : i < 168 := by rwa [hlen] at h2
    rw [List.getElem_map, List.getElem_range, accelDataByte_eq (by omega) hi,
      List.getD_eq_getElem _ _ h2]

/-- The message of the benchmark, eight bytes long. -/
theorem accelData_eq_lastBlock_iff_eight :
    accelData ((shake128HwStores 16 [0, 1, 2, 3, 4, 5, 6, 7]).foldl Store.write fun _ => 0) =
      lastBlock shake128Rate [0, 1, 2, 3, 4, 5, 6, 7] 0x1F :=
  (accelData_eq_lastBlock_iff 16 (fun _ => 0) (by decide)).2 (by decide)

/-- The message of 167 zero bytes. -/
theorem accelData_ne_lastBlock :
    accelData ((shake128HwStores 16 (List.replicate 167 0)).foldl Store.write fun _ => 0) ≠
      lastBlock shake128Rate (List.replicate 167 0) 0x1F := by
  decide +kernel

/-! ## The stores on the bus -/

theorem dataStore_address : ∀ q < 42,
    pulpinoTop.addrIsConfig (0x20000 + q) = false ∧ pulpinoTop.accAddr (0x20000 + q) = q := by
  decide

/-- The word and the byte lane of a store to `accel_data[i]`. -/
theorem accelDataBase_add (i : Nat) :
    (accelDataBase + i) / 4 = 0x20000 + i / 4 ∧ (accelDataBase + i) % 4 = i % 4 := by
  rw [accelDataBase]
  omega

theorem getLsbD_one_shiftLeft {k b : Nat} (hb : b < 4) :
    ((1 : BitVec 4) <<< k).getLsbD b = decide (b = k) := by
  rw [BitVec.getLsbD_shiftLeft, decide_eq_true hb, Bool.true_and]
  by_cases h : b = k
  · subst h
    simp
  · rw [decide_eq_false h]
    rcases Nat.lt_or_gt_of_ne h with hlt | hgt
    · rw [decide_eq_true hlt]; rfl
    · simp [show ¬b - k = 0 by omega]

/-- A store to `accel_data[i]` leaves the control words alone. -/
theorem dataStore_writeCtrl {i : Nat} (hi : i < 168) (d : Byte)
    (ctrl : Vector Word pulpinoTop.ctrlWords) :
    (Store.bus ⟨accelDataBase + i, d⟩).writeCtrl ctrl = ctrl := by
  have hcfg : pulpinoTop.addrIsConfig ((accelDataBase + i) / 4) = false := by
    rw [(accelDataBase_add i).1]
    exact (dataStore_address _ (by omega)).1
  simp [BusIn.writeCtrl, ConfigReg.writeCtrl, TopParams.configPort, Store.bus, hcfg]

/-- The byte that a store to `accel_data[i]` writes is byte `i` of the RAM. -/
theorem dataStore_writesByte {i : Nat} (hi : i < 168) (d : Byte) (j : Nat) :
    (pulpinoTop.dataPort (Store.bus ⟨accelDataBase + i, d⟩)).WritesByte j ↔ j = i := by
  obtain ⟨hdiv, hmod⟩ := accelDataBase_add i
  obtain ⟨hcfg, hacc⟩ := dataStore_address (i / 4) (by omega)
  simp only [RamPort.WritesByte, TopParams.dataPort, Store.bus, hdiv, hmod, hcfg, hacc,
    getLsbD_one_shiftLeft (Nat.mod_lt j (by decide : 0 < 4)), decide_eq_true_eq]
  simp only [Bool.not_false, Bool.and_self, true_and]
  omega

/-- A store to `accel_data[i]` changes byte `i` of the RAM. -/
theorem memByte_dataStore {i : Nat} (hi : i < 168) (d : Byte) (mem : Vector Word 42) {j : Nat}
    (hj : j < 168) :
    memByte ((Store.bus ⟨accelDataBase + i, d⟩).writeMem pulpinoTop mem) j =
      if j = i then d else memByte mem j := by
  rw [BusIn.writeMem, memByte_write _ _ hj]
  by_cases h : j = i
  · subst h
    have hb : j % 4 < 4 := Nat.mod_lt j (by decide)
    rw [if_pos ((dataStore_writesByte hi d j).2 rfl), if_pos rfl]
    simp only [TopParams.dataPort, Store.bus, (accelDataBase_add j).2]
    rw [Bits.byteAt_setWidth_shiftLeft (n := 4) rfl d hb, if_pos rfl]
  · rw [if_neg fun hw => h ((dataStore_writesByte hi d j).1 hw), if_neg h]

/-- A store to one of the first four bytes of the configuration window changes that byte of control
word 0. -/
theorem byteAt_configStore {a : Nat} (ha : a < 4) (d : Byte)
    (ctrl : Vector Word pulpinoTop.ctrlWords) {j : Nat} (hj : j < 4) :
    Bits.byteAt (((Store.bus ⟨a, d⟩).writeCtrl ctrl).get ⟨0, pulpinoTop.ctrlWords_pos⟩) j =
      if j = a then d else Bits.byteAt (ctrl.get ⟨0, pulpinoTop.ctrlWords_pos⟩) j := by
  have hdiv : a / 4 = 0 := by omega
  have hmod : a % 4 = a := Nat.mod_eq_of_lt ha
  have hcfg : pulpinoTop.addrIsConfig 0 = true ∧ pulpinoTop.cfgAddr 0 = 0 := by decide
  have hwrite : (Store.bus ⟨a, d⟩).writeCtrl ctrl =
      ctrl.set 0 (Bits.mergeBytes ((1 : BitVec 4) <<< a).getLsbD
        (ctrl.get ⟨0, pulpinoTop.ctrlWords_pos⟩) (d.setWidth 32 <<< (8 * a)))
        pulpinoTop.ctrlWords_pos := by
    simp [BusIn.writeCtrl, ConfigReg.writeCtrl, TopParams.configPort, Store.bus, hdiv, hmod, hcfg.1,
      hcfg.2, pulpinoTop.ctrlWords_pos]
    rfl
  rw [hwrite, get_set_self, Bits.byteAt_mergeBytes (n := 4) rfl _ _ _ hj, getLsbD_one_shiftLeft hj,
    Bits.byteAt_setWidth_shiftLeft (n := 4) rfl d hj]
  by_cases h : j = a
  · simp [h]
  · simp [h]

/-- A store to the configuration window leaves the RAM alone. -/
theorem configStore_writeMem {a : Nat} (ha : a < 4) (d : Byte) (mem : Vector Word 42) :
    (Store.bus ⟨a, d⟩).writeMem pulpinoTop mem = mem := by
  have hdiv : a / 4 = 0 := by omega
  have hcfg : pulpinoTop.addrIsConfig 0 = true := by decide
  exact TrueDpRam.write_off _ (by simp [TopParams.dataPort, Store.bus, hdiv, hcfg])

/-! ## All stores of a job -/

/-- The stores of the block. -/
def blockStores (m : List Byte) (n : Nat) : List BusIn :=
  (List.range n).map fun i => Store.bus ⟨accelDataBase + i, accelDataByte m i⟩

theorem shake128HwStores_bus (L : Nat) (m : List Byte) :
    (shake128HwStores L m).map Store.bus =
      Store.bus ⟨outputLenByteReg, BitVec.ofNat 8 L - 1⟩ ::
        (blockStores m rateBytes ++ [Store.bus ⟨startReg, 1⟩]) := by
  simp only [shake128HwStores, List.cons_append, List.map_cons, List.map_append, List.map_map,
    List.map_nil, blockStores]
  rfl

theorem blockStores_keep (m : List Byte) {n : Nat} (hn : n ≤ 168)
    (ctrl : Vector Word pulpinoTop.ctrlWords) :
    ∀ b ∈ blockStores m n, b.writeCtrl ctrl = ctrl := by
  intro b hb
  obtain ⟨i, hi, rfl⟩ := List.mem_map.1 hb
  exact dataStore_writeCtrl (by have := List.mem_range.1 hi; omega) _ ctrl

theorem memByte_blockStores (m : List Byte) (mem : Vector Word 42) {n : Nat} (hn : n ≤ 168)
    {j : Nat} (hj : j < 168) :
    memByte (loadMem pulpinoTop mem (blockStores m n)) j =
      if j < n then accelDataByte m j else memByte mem j := by
  induction n with
  | zero => rfl
  | succ n ih =>
    have hlast : blockStores m (n + 1) =
        blockStores m n ++ [Store.bus ⟨accelDataBase + n, accelDataByte m n⟩] := by
      rw [blockStores, List.range_succ, List.map_append]
      rfl
    rw [hlast, loadMem_append, loadMem, List.foldl_cons, List.foldl_nil,
      memByte_dataStore (by omega) _ _ hj, ih (by omega)]
    by_cases h : j = n
    · rw [if_pos h, if_pos (by omega), h]
    · rw [if_neg h]
      by_cases hlt : j < n
      · rw [if_pos hlt, if_pos (by omega)]
      · rw [if_neg hlt, if_neg (by omega)]

/-- Of the driver's stores the first and the last reach the control words. -/
theorem loadCtrl_shake128HwStores (L : Nat) (m : List Byte)
    (ctrl : Vector Word pulpinoTop.ctrlWords) :
    loadCtrl ctrl ((shake128HwStores L m).map Store.bus) =
      (Store.bus ⟨startReg, 1⟩).writeCtrl
        ((Store.bus ⟨outputLenByteReg, BitVec.ofNat 8 L - 1⟩).writeCtrl ctrl) := by
  rw [shake128HwStores_bus, loadCtrl_cons, loadCtrl_append,
    loadCtrl_of_keeps (blockStores_keep m (by decide) _), loadCtrl_cons, loadCtrl_nil]

/-- The length byte after the stores. -/
theorem byteAt_shake128HwStores {L : Nat} (h1 : 1 ≤ L) (m : List Byte)
    (ctrl : Vector Word pulpinoTop.ctrlWords) :
    Bits.byteAt ((loadCtrl ctrl ((shake128HwStores L m).map Store.bus)).get
      ⟨0, pulpinoTop.ctrlWords_pos⟩) 1 = BitVec.ofNat 8 (L - 1) := by
  rw [loadCtrl_shake128HwStores, byteAt_configStore (by decide) _ _ (by decide),
    if_neg (by decide), byteAt_configStore (by decide) _ _ (by decide), if_pos (by decide)]
  exact BitVec.ofNat_sub_ofNat_of_le L 1 (by decide) h1

/-- What a job's stores do, whatever the control words (with the start bit 0) and the RAM held
before: they set the length register, the block and, last, the start bit. -/
theorem load_shake128HwStores {L : Nat} (h1 : 1 ≤ L) (h64 : L ≤ 64) (m : List Byte)
    {ctrl : Vector Word pulpinoTop.ctrlWords} (hs : ctrlStart ctrl = false) (mem : Vector Word 42) :
    StartsLow ctrl ((shake128HwStores L m).map Store.bus) ∧
      ctrlStart (loadCtrl ctrl ((shake128HwStores L m).map Store.bus)) = true ∧
      ctrlLength (loadCtrl ctrl ((shake128HwStores L m).map Store.bus)) = L - 1 ∧
      ∀ j < 168, memByte (loadMem pulpinoTop mem ((shake128HwStores L m).map Store.bus)) j =
        accelDataByte m j := by
  refine ⟨?_, ?_, ?_, ?_⟩
  · rw [shake128HwStores_bus]
    generalize hctrl1 :
      (Store.bus ⟨outputLenByteReg, BitVec.ofNat 8 L - 1⟩).writeCtrl ctrl = ctrl1
    have hkeep := blockStores_keep m (n := rateBytes) (by decide) ctrl1
    have hlow : ctrlStart ctrl1 = false := by
      rw [← hctrl1, ctrlStart_eq, byteAt_configStore (by decide) _ _ (by decide),
        if_neg (by decide), ← ctrlStart_eq, hs]
    refine ⟨hs, ?_⟩
    rw [hctrl1, startsLow_append, loadCtrl_of_keeps hkeep]
    exact ⟨startsLow_of_keeps hkeep hlow, hlow, trivial⟩
  · rw [loadCtrl_shake128HwStores, ctrlStart_eq, byteAt_configStore (by decide) _ _ (by decide),
      if_pos (by decide)]
    rfl
  · rw [ctrlLength_eq, byteAt_shake128HwStores h1, BitVec.toNat_ofNat]
    omega
  · intro j hj
    rw [shake128HwStores_bus, loadMem_cons, configStore_writeMem (by decide), loadMem_append,
      loadMem_cons, configStore_writeMem (by decide), loadMem_nil,
      memByte_blockStores m mem (by decide) hj, if_pos (by rw [rateBytes]; omega)]

/-! ## The job -/

/-- The first `L` bytes of the RAM. -/
def ramBytes {P : TopParams} (s : AccelTopWrapper P) (L : Nat) : List Byte :=
  (List.range L).map (memByte s.ram)

/-- The state that `shake128` takes its first block of output from. -/
def shakeState (m : List Byte) : State :=
  keccakF1600StatePermute (keccakAbsorb zeroState shake128Rate m 0x1F)

/-- How many bytes of the digest a job of output length `L` stores in the RAM. -/
def bytesStored (L : Nat) : Nat := 8 * lanesStored (L - 1)

/-- The cycles of one job: a reset of one edge or more, the stores of the driver in any schedule,
and then no request for long enough. -/
structure JobRun (L : Nat) (m : List Byte) (rst pre idle : List Cycle) : Prop where
  reset_ne : rst ≠ []
  reset : ∀ c ∈ rst, c.rstN = false
  stores : Issues ((shake128HwStores L m).map Store.bus) pre
  quiet : ∀ c ∈ idle, c.Idle
  long : 58 ≤ idle.length

theorem lanesStored_le {L : Nat} (h64 : L ≤ 64) : lanesStored (L - 1) ≤ 8 := by
  rw [lanesStored]
  split <;> omega

/-- Every byte is stored exactly for the lengths from 10 on that are not one more than a multiple
of 8. -/
theorem le_bytesStored {L : Nat} (h1 : 1 ≤ L) : L ≤ bytesStored L ↔ 10 ≤ L ∧ L % 8 ≠ 1 := by
  rw [bytesStored, lanesStored]
  split <;> omega

/-- The RAM after a job that found the driver's block in it. -/
theorem memByte_jobRam {L : Nat} (h64 : L ≤ 64) {m : List Byte} (hm : m.length < 167)
    {mem : Vector Word 42} (hmem : ∀ j < 168, memByte mem j = accelDataByte m j) {j : Nat}
    (hj : j < 168) :
    memByte (jobRam mem (L - 1)) j =
      if j < bytesStored L then stateByte (shakeState m) j else accelDataByte m j := by
  rw [jobRam, memByte_storeLanes _ (lanesStored_le h64) _ hj, hmem j hj,
    digestState_toWords (by omega) fun i hi => (hmem i hi).trans (accelDataByte_eq hm hi)]
  rfl

/-- **What a job leaves in the RAM.** From any power-up state the job reaches `DONE`, and then the
RAM holds the first `bytesStored L` bytes of the digest and, behind them, the driver's block. -/
theorem shake128Hw_result {L : Nat} (h1 : 1 ≤ L) (h64 : L ≤ 64) {m : List Byte}
    (hm : m.length < 167) (s0 : AccelTopWrapper pulpinoTop) {rst pre idle : List Cycle}
    (h : JobRun L m rst pre idle) :
    ∃ n, FirstDone (Machine.run step s0 rst) (pre ++ idle) n ∧
      ∀ j < 168, memByte (Machine.run step (Machine.run step s0 rst) ((pre ++ idle).take n)).ram j =
        if j < bytesStored L then stateByte (shakeState m) j else accelDataByte m j := by
  have hstandby := standby_of_resets s0 h.reset_ne h.reset
  obtain ⟨hlow, hstart, hlen, hmem⟩ := load_shake128HwStores h1 h64 m
    ctrlStart_replicate_zero (Machine.run step s0 rst).accelWrapperInst.ramInst.mem
  have hkeeps : ∀ ctrl : Vector Word pulpinoTop.ctrlWords, ∀ c ∈ idle, KeepsCtrl ctrl c :=
    fun ctrl c hc => (h.quiet c hc).readOnly.keepsCtrl ctrl
  have hlong : doneCycle (ctrlLength (loadCtrl (P := pulpinoTop) (.replicate _ 0)
      ((shake128HwStores L m).map Store.bus))) + 1 ≤ idle.length := by
    have := h.long
    have := lanesStored_le h64
    rw [hlen, doneCycle]
    omega
  have hrun := hstandby.running_at h.stores hlow hstart (hkeeps _) (Nat.le_refl _) hlong
  refine ⟨_, hstandby.firstDone h.stores hlow hstart (hkeeps _) hlong, fun j hj => ?_⟩
  rw [AccelTopWrapper.ram, hrun.job.finished.ram, hlen]
  exact memByte_jobRam h64 hm hmem hj

/-- The job is correct: in every run the first `L` bytes of the RAM in the first cycle of `DONE`,
which is reached, are what `shake128` returns. -/
def JobCorrect (L : Nat) (m : List Byte) : Prop :=
  ∀ (s0 : AccelTopWrapper pulpinoTop) (rst pre idle : List Cycle), JobRun L m rst pre idle →
    ∃ n, FirstDone (Machine.run step s0 rst) (pre ++ idle) n ∧
      ramBytes (Machine.run step (Machine.run step s0 rst) ((pre ++ idle).take n)) L = shake128 L m

theorem getD_shake128 {L j : Nat} (h64 : L ≤ 64) (hj : j < L) (m : List Byte) :
    (shake128 L m).getD j 0 = stateByte (shakeState m) j := by
  rw [shake128_eq (by omega), List.getD_eq_getElem?_getD, List.getElem?_map,
    List.getElem?_range hj]
  rfl

/-- Requests back to back. -/
theorem issues_map (bs : List BusIn) (u : Undriven) :
    Issues bs (bs.map fun b => ⟨true, b, u⟩) := by
  induction bs with
  | nil => exact .nil
  | cons b bs ih => exact .request rfl rfl ih

/-- Every job has a run. -/
theorem JobRun.nonempty (L : Nat) (m : List Byte) :
    JobRun L m [⟨false, .none, .zero⟩]
      (((shake128HwStores L m).map Store.bus).map fun b => ⟨true, b, .zero⟩)
      (List.replicate 58 ⟨true, .none, .zero⟩) where
  reset_ne := by simp
  reset := by simp
  stores := issues_map _ _
  quiet := by
    intro c hc
    rw [List.eq_of_mem_replicate hc]
    exact ⟨rfl, rfl⟩
  long := by simp

/-- A job is correct if and only if the digest's bytes that it does not store happen to be those of
the block that are still in their place. -/
theorem jobCorrect_iff {L : Nat} (h1 : 1 ≤ L) (h64 : L ≤ 64) {m : List Byte} (hm : m.length < 167) :
    JobCorrect L m ↔
      ∀ j, bytesStored L ≤ j → j < L → accelDataByte m j = (shake128 L m).getD j 0 := by
  have hram : ∀ s : AccelTopWrapper pulpinoTop,
      (∀ j < 168, memByte s.ram j =
        if j < bytesStored L then stateByte (shakeState m) j else accelDataByte m j) →
      (ramBytes s L = shake128 L m ↔
        ∀ j, bytesStored L ≤ j → j < L → accelDataByte m j = (shake128 L m).getD j 0) := by
    intro s hs
    rw [ramBytes, shake128_eq (by omega), List.map_inj_left]
    constructor
    · intro h j hle hlt
      have hj := h j (List.mem_range.2 hlt)
      rw [hs j (by omega), if_neg (by omega)] at hj
      rw [← shake128_eq (by omega), getD_shake128 h64 hlt, hj]
      rfl
    · intro h j hj
      have hlt := List.mem_range.1 hj
      rw [hs j (by omega)]
      by_cases hst : j < bytesStored L
      · rw [if_pos hst]
        rfl
      · rw [if_neg hst, h j (by omega) hlt, ← shake128_eq (by omega), getD_shake128 h64 hlt]
        rfl
  constructor
  · intro h
    have hrun := JobRun.nonempty L m
    obtain ⟨n, hn, hmem⟩ := shake128Hw_result h1 h64 hm .blank hrun
    obtain ⟨n', hn', hram'⟩ := h .blank _ _ _ hrun
    rw [← hn.unique hn'] at hram'
    exact (hram _ hmem).1 hram'
  · intro h s0 rst pre idle hrun
    obtain ⟨n, hn, hmem⟩ := shake128Hw_result h1 h64 hm s0 hrun
    exact ⟨n, hn, (hram _ hmem).2 h⟩

set_option maxRecDepth 100000 in
/-- The first byte of every lane that a job of the empty message can store is not 0, and the first
of all is not the suffix byte. -/
theorem stateByte_shakeState_nil :
    stateByte (shakeState []) 0 ≠ 0x1F ∧ ∀ k < 8, stateByte (shakeState []) (8 * k) ≠ 0 := by
  have habsorb : shakeState [] = keccakF1600StatePermute
      (keccakF1600StateXORBytes zeroState (lastBlock shake128Rate [] 0x1F) 0 168) := by
    rw [shakeState, keccakAbsorb, dif_neg (by decide)]
    rfl
  rw [habsorb]
  decide +kernel

/-- A length of which not every byte is stored fails for the empty message. -/
theorem not_jobCorrect_nil {L : Nat} (h1 : 1 ≤ L) (h64 : L ≤ 64) (h : ¬(10 ≤ L ∧ L % 8 ≠ 1)) :
    ¬JobCorrect L [] := by
  intro hc
  have hbytes := (jobCorrect_iff h1 h64 (by decide)).1 hc
  have hst : bytesStored L < L := Nat.not_le.1 fun hle => h ((le_bytesStored h1).1 hle)
  by_cases h9 : L ≤ 9
  · have h0 : bytesStored L = 0 := by
      rw [bytesStored, lanesStored, if_pos (by omega)]
    have hbyte := hbytes 0 (Nat.le_of_eq h0) (by omega)
    rw [getD_shake128 h64 (by omega)] at hbyte
    exact stateByte_shakeState_nil.1 hbyte.symm
  · have hbyte := hbytes (L - 1) (by omega) (by omega)
    rw [getD_shake128 h64 (by omega), show L - 1 = 8 * ((L - 1) / 8) by omega] at hbyte
    refine stateByte_shakeState_nil.2 ((L - 1) / 8) (by omega) (hbyte.symm.trans ?_)
    rw [accelDataByte, if_neg (by simp), if_neg (by simp only [List.length_nil]; omega),
      if_neg (by rw [rateBytes]; omega)]

/-- The lengths for which the job is correct for every message. -/
theorem jobCorrect_forall_iff {L : Nat} (h1 : 1 ≤ L) (h64 : L ≤ 64) :
    (∀ m : List Byte, m.length ≤ 64 → JobCorrect L m) ↔ 10 ≤ L ∧ L % 8 ≠ 1 := by
  constructor
  · intro h
    by_contra hne
    exact not_jobCorrect_nil h1 h64 hne (h [] (by decide))
  · intro h m hm
    rw [jobCorrect_iff h1 h64 (by omega)]
    intro j hle hlt
    have := (le_bytesStored h1).2 h
    omega

/-- **When the hardware job equals the software reference.** For every message exactly if the length
is at least 10 and not one more than a multiple of 8; for one message of another length exactly if
the bytes that are not stored coincide with the driver's block. -/
theorem shake128Hw_eq_shake128_iff {L : Nat} (h1 : 1 ≤ L) (h64 : L ≤ 64) :
    ((∀ m : List Byte, m.length ≤ 64 → JobCorrect L m) ↔ 10 ≤ L ∧ L % 8 ≠ 1) ∧
      ∀ m : List Byte, m.length ≤ 64 →
        (JobCorrect L m ↔
          ∀ j, bytesStored L ≤ j → j < L → accelDataByte m j = (shake128 L m).getD j 0) :=
  ⟨jobCorrect_forall_iff h1 h64, fun _ hm => jobCorrect_iff h1 h64 (by omega)⟩

/-- The length that the benchmark uses is one of the correct ones. -/
theorem shake128Hw_eq_shake128_iff_sixteen : JobCorrect 16 [] :=
  (shake128Hw_eq_shake128_iff (by decide) (by decide)).1.2 (by decide) [] (by decide)

/-- The shortest output of the documented range, for the empty message. -/
theorem shake128Hw_ne_shake128_one : ¬JobCorrect 1 [] :=
  not_jobCorrect_nil (by decide) (by decide) (by decide)

end ShakeAccel
