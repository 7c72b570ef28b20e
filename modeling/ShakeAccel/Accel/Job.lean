import ShakeAccel.Accel.Control
import ShakeAccel.Accel.Wrapper

/-!
# A job of the accelerator

With `start` held the accelerator goes through fixed phases: 24 cycles of `WRITE` (`Writing`), 24
of `WAIT_HASH` (`Waiting`), up to 9 of `READ` (`Reading`), then `DONE` (`Finished`). Each phase
says what every register holds in terms of the RAM before the job; each step lemma is one cycle.
-/

namespace ShakeAccel

open Vec

/-! ## The RAM as a block and as a digest -/

/-- The 64-bit word that the pair `k` of RAM words forms. -/
def pairLane (mem : Vector Word 42) (k : Nat) : Lane :=
  mem.getD (2 * k + 1) 0 ++ mem.getD (2 * k) 0

/-- The 21 words of the block in the RAM. -/
def blockWords (mem : Vector Word 42) : List Lane := (List.range 21).map (pairLane mem)

/-- The core's state after the block in the RAM is absorbed. -/
def digestState (mem : Vector Word 42) : KState := permute24 (xorBlock .zero (blockWords mem))

/-- Stores a lane in the pair `k` of RAM words. -/
def storeLane (mem : Vector Word 42) (k : Nat) (v : Lane) : Vector Word 42 :=
  (mem.setIfInBounds (2 * k + 1) (v.extractLsb' 32 32)).setIfInBounds (2 * k) (v.extractLsb' 0 32)

/-- Stores the lanes `0, ..., n-1` of a state. -/
def storeLanes (H : KState) (n : Nat) (mem : Vector Word 42) : Vector Word 42 :=
  (List.range n).foldl (fun mem k => storeLane mem k (H.toWords.getD k 0)) mem

@[simp] theorem length_blockWords (mem : Vector Word 42) : (blockWords mem).length = 21 := by
  simp [blockWords]

theorem storeLanes_succ (H : KState) (n : Nat) (mem : Vector Word 42) :
    storeLanes H (n + 1) mem = storeLane (storeLanes H n mem) n (H.toWords.getD n 0) := by
  simp only [storeLanes, List.range_succ, List.foldl_append, List.foldl_cons, List.foldl_nil]

/-- The words behind the stored lanes are kept. -/
theorem getD_storeLanes (H : KState) (n : Nat) (mem : Vector Word 42) {k : Nat} (hk : 2 * n ≤ k) :
    (storeLanes H n mem).getD k 0 = mem.getD k 0 := by
  induction n with
  | zero => rfl
  | succ n ih =>
    rw [storeLanes_succ, storeLane, getD_setIfInBounds, getD_setIfInBounds,
      if_neg fun h => absurd h.1 (by omega), if_neg fun h => absurd h.1 (by omega), ih (by omega)]

/-- Storing the lane that the pair already forms changes nothing. -/
theorem storeLane_pairLane (mem : Vector Word 42) {k : Nat} (hk : k < 21) :
    storeLane mem k (pairLane mem k) = mem := by
  apply Vector.ext
  intro j hj
  have hhi : (pairLane mem k).extractLsb' 32 32 = mem.getD (2 * k + 1) 0 :=
    BitVec.extractLsb'_append_eq_left
  have hlo : (pairLane mem k).extractLsb' 0 32 = mem.getD (2 * k) 0 :=
    BitVec.extractLsb'_append_eq_right
  rw [storeLane, hhi, hlo, getD_of_lt _ _ (show 2 * k + 1 < 42 by omega),
    getD_of_lt _ _ (show 2 * k < 42 by omega), Vector.getElem_setIfInBounds,
    Vector.getElem_setIfInBounds]
  split
  next h => subst h; rfl
  next =>
    split
    next h => subst h; rfl
    next => rfl

namespace TrueDpRam

variable {depth : Nat}

theorem write_off (mem : Vector Word depth) {p : RamPort} (h : (p.en && p.we) = false) :
    write mem p = mem := by
  rw [write, h]
  rfl

theorem mergeBytes_word (old new : Word) :
    Bits.mergeBytes (0xf : BitVec 4).getLsbD old new = new := by
  apply Bits.eq_of_byteAt_eq (n := 4) rfl
  intro k hk
  rw [Bits.byteAt_mergeBytes (n := 4) rfl _ _ _ hk, if_pos (by interval_cases k <;> rfl)]

/-- A write with all bytes enabled. -/
theorem write_word (mem : Vector Word depth) {p : RamPort} (he : p.en = true) (hw : p.we = true)
    (hb : p.be = 0xf) (ha : p.addr < depth) :
    write mem p = mem.setIfInBounds p.addr p.wdata := by
  rw [write, he, hw, Bool.and_self, if_pos rfl, dif_pos ha, hb, mergeBytes_word]
  simp [Vector.setIfInBounds, Vector.set, Array.setIfInBounds, ha]

theorem read_on (mem : Vector Word depth) {p : RamPort} {old oob : Word} (he : p.en = true)
    (ha : p.addr < depth) : read mem p old oob = mem.getD p.addr 0 := by
  rw [read, if_pos he, dif_pos ha, getD_of_lt _ _ ha]

end TrueDpRam

/-! ## The phases -/

/-- Before the start, with the RAM that the CPU has written. -/
structure Resting (mem : Vector Word 42) (s : AccelWrapper) : Prop where
  control : s.accelFsmInst.AtRest
  ram : s.ramInst.mem = mem

/-- Cycle `k` of `WRITE`: pair `k-1` is requested, pair `k-2` is offered to the core. -/
structure Writing (mem : Vector Word 42) (k : Nat) (s : AccelWrapper) : Prop where
  le : k ≤ 23
  state : s.accelFsmInst.state = .WRITE
  startHash : s.accelFsmInst.startHash = false
  lastBlockS : s.accelFsmInst.lastBlockS = false
  done : s.accelFsmInst.done = false
  byteCntrS : s.accelFsmInst.byteCntrS = min (8 * k) 168
  addrS : s.accelFsmInst.addrS = if k ≤ 21 then 2 * (k - 1) else 0
  dinValidS : s.accelFsmInst.dinValidS = decide (1 ≤ k ∧ k ≤ 21)
  dinValidReg : s.accelFsmInst.dinValidReg = decide (2 ≤ k ∧ k ≤ 22)
  rdata : 2 ≤ k → k ≤ 22 → s.ramInst.rdataA ++ s.ramInst.rdataB = pairLane mem (k - 2)
  ram : s.ramInst.mem = mem
  core : Refines ⟨.zero, 0, (blockWords mem).take (k - 2)⟩ s.accelFsmInst.keccakInst

/-- Cycle `w` of `WAIT_HASH`: `w` rounds are over. -/
structure Waiting (mem : Vector Word 42) (w : Nat) (s : AccelWrapper) : Prop where
  pos : 1 ≤ w
  le : w ≤ 24
  state : s.accelFsmInst.state = .WAIT_HASH
  startHash : s.accelFsmInst.startHash = false
  lastBlockS : s.accelFsmInst.lastBlockS = decide (2 ≤ w)
  done : s.accelFsmInst.done = false
  dinValidS : s.accelFsmInst.dinValidS = false
  dinValidReg : s.accelFsmInst.dinValidReg = false
  ram : s.ramInst.mem = mem
  core : Refines (if w < 24 then ⟨xorBlock .zero (blockWords mem), w, []⟩
    else ⟨digestState mem, 0, []⟩) s.accelFsmInst.keccakInst
  buffer : s.accelFsmInst.keccakInst.bufferIn.bufferData.toList = blockWords mem

/-- Cycle `r` of `READ`: the lanes before `r-1` are stored, lane `r-1` is being stored. In cycle 0
the buffer still shows the first word of the block. -/
structure Reading (mem : Vector Word 42) (r : Nat) (s : AccelWrapper) : Prop where
  le : r ≤ 8
  state : s.accelFsmInst.state = .READ
  startHash : s.accelFsmInst.startHash = false
  done : s.accelFsmInst.done = false
  byteCntrS : s.accelFsmInst.byteCntrS = 8 * max r 1
  addrS : s.accelFsmInst.addrS = 2 * (r - 1)
  dinValidS : s.accelFsmInst.dinValidS = false
  dinValidReg : s.accelFsmInst.dinValidReg = false
  ram : s.ramInst.mem = storeLanes (digestState mem) (r - 1) mem
  core : Shifting (digestState mem) r s.accelFsmInst.keccakInst
  first : r = 0 → s.accelFsmInst.keccakInst.dout = pairLane mem 0

/-- The first cycle of `DONE`, with the final contents of the RAM and of the read register of
port A. -/
structure Finished (mem : Vector Word 42) (word : Word) (s : AccelWrapper) : Prop where
  state : s.accelFsmInst.state = .DONE
  done : s.accelFsmInst.done = false
  ram : s.ramInst.mem = mem
  rdataA : s.ramInst.rdataA = word

section
variable {mem : Vector Word 42} {s : AccelWrapper} {i : WrapperIn}

/-- A cycle in which the state machine does not enable the memory leaves it as it is. -/
theorem ram_clock_off (hi : i.start = true) (hs : s.accelFsmInst.memEn = false) :
    (s.clock true i).ramInst.mem = s.ramInst.mem := by
  have hoff : ∀ p : RamPort, p.en = false → (p.en && p.we) = false := by
    intro p hp
    rw [hp, Bool.false_and]
  simp only [AccelWrapper.clock, TrueDpRam.clock, AccelWrapper.portAInt, if_pos hi]
  rw [TrueDpRam.write_off _ (hoff s.accelFsmInst.portA hs),
    TrueDpRam.write_off _ (hoff s.accelFsmInst.portB hs)]

/-- It also leaves the read register of port A. -/
theorem rdataA_clock_off (hi : i.start = true) (hs : s.accelFsmInst.memEn = false) :
    (s.clock true i).ramInst.rdataA = s.ramInst.rdataA := by
  simp only [AccelWrapper.clock, TrueDpRam.clock, AccelWrapper.portAInt, if_pos hi]
  rw [TrueDpRam.read, if_neg]
  exact ne_true_of_eq_false hs

/-- The state machine's part of `Waiting`. -/
theorem Waiting.of_permuting {w : Nat}
    (h : AccelFsm.Permuting (blockWords mem) w s.accelFsmInst) (hm : s.ramInst.mem = mem) :
    Waiting mem w s where
  pos := h.pos
  le := h.le
  state := h.state
  startHash := h.startHash
  lastBlockS := h.lastBlockS
  done := h.done
  dinValidS := h.dinValidS
  dinValidReg := h.dinValidReg
  ram := hm
  core := h.core
  buffer := h.buffer

/-- The state machine's part of `Reading`. -/
theorem Reading.of_emptying {r : Nat} (h : AccelFsm.Emptying (blockWords mem) r s.accelFsmInst)
    (hm : s.ramInst.mem = storeLanes (digestState mem) (r - 1) mem) : Reading mem r s where
  le := h.le
  state := h.state
  startHash := h.startHash
  done := h.done
  byteCntrS := h.byteCntrS
  addrS := h.addrS
  dinValidS := h.dinValidS
  dinValidReg := h.dinValidReg
  ram := hm
  core := h.core
  first := h.first

namespace Writing

variable {k : Nat}

/-- What the RAM does in a cycle of `WRITE`: both ports read. -/
theorem ram_clock (h : Writing mem k s) (hi : i.start = true) :
    (s.clock true i).ramInst.mem = mem ∧
      (1 ≤ k → k ≤ 21 →
        (s.clock true i).ramInst.rdataA ++ (s.clock true i).ramInst.rdataB =
          pairLane mem (k - 1)) := by
  have hwe : s.accelFsmInst.memWe = false := by rw [AccelFsm.memWe, h.state]
  have hen : s.accelFsmInst.memEn = true := by rw [AccelFsm.memEn, h.state]
  have hport : s.portAInt i = s.accelFsmInst.portB := by rw [AccelWrapper.portAInt, if_pos hi]
  have hoff : ∀ p : RamPort, p.we = false → (p.en && p.we) = false := by
    intro p hp
    rw [hp, Bool.and_false]
  refine ⟨?_, fun h1 h21 => ?_⟩
  · simp only [AccelWrapper.clock, TrueDpRam.clock, hport]
    rw [TrueDpRam.write_off _ (hoff s.accelFsmInst.portA hwe),
      TrueDpRam.write_off _ (hoff s.accelFsmInst.portB hwe), h.ram]
  · have haddr : s.accelFsmInst.addrS = 2 * (k - 1) := by rw [h.addrS, if_pos h21]
    have hA : s.accelFsmInst.portB.addr < 42 := by
      simp only [AccelFsm.portB, haddr]
      omega
    have hB : s.accelFsmInst.portA.addr < 42 := by
      simp only [AccelFsm.portA, haddr]
      omega
    simp only [AccelWrapper.clock, TrueDpRam.clock, hport]
    rw [TrueDpRam.read_on _ (p := s.accelFsmInst.portB) hen hA,
      TrueDpRam.read_on _ (p := s.accelFsmInst.portA) hen hB, h.ram, pairLane]
    simp only [AccelFsm.portA, AccelFsm.portB, haddr]

/-- The state machine's part of the phase. -/
theorem filling (h : Writing mem k s) :
    AccelFsm.Filling ((blockWords mem).take (k - 2)) k s.accelFsmInst where
  le := h.le
  length := by
    have := h.le
    rw [List.length_take, length_blockWords, Nat.min_eq_left (by omega)]
  state := h.state
  startHash := h.startHash
  lastBlockS := h.lastBlockS
  done := h.done
  byteCntrS := h.byteCntrS
  addrS := h.addrS
  dinValidS := h.dinValidS
  dinValidReg := h.dinValidReg
  core := h.core

theorem of_filling (h : AccelFsm.Filling ((blockWords mem).take (k - 2)) k s.accelFsmInst)
    (hr : 2 ≤ k → k ≤ 22 → s.ramInst.rdataA ++ s.ramInst.rdataB = pairLane mem (k - 2))
    (hm : s.ramInst.mem = mem) : Writing mem k s where
  le := h.le
  state := h.state
  startHash := h.startHash
  lastBlockS := h.lastBlockS
  done := h.done
  byteCntrS := h.byteCntrS
  addrS := h.addrS
  dinValidS := h.dinValidS
  dinValidReg := h.dinValidReg
  rdata := hr
  ram := hm
  core := h.core

/-- The words read so far, one cycle later. -/
theorem next_eq (h : Writing mem k s) (i : WrapperIn) (hk : k < 23) :
    AccelFsm.Filling.next ((blockWords mem).take (k - 2)) k (s.toFsm i) =
      (blockWords mem).take (k + 1 - 2) := by
  rw [AccelFsm.Filling.next]
  split
  next h2 =>
    rw [show (s.toFsm i).memRdataB ++ (s.toFsm i).memRdataA = pairLane mem (k - 2) from
      h.rdata h2 (by omega), show k + 1 - 2 = k - 2 + 1 by omega,
      List.take_succ_eq_append_getElem (by rw [length_blockWords]; omega)]
    simp [blockWords]
  next h2 => rw [show k + 1 - 2 = k - 2 by omega]

/-- A cycle of `WRITE` before the last. -/
theorem clock (h : Writing mem k s) (hi : i.start = true) (hk : k < 23) :
    Writing mem (k + 1) (s.clock true i) := by
  obtain ⟨hmem, hread⟩ := h.ram_clock hi
  have hfill := h.filling.clock (s.toFsm i) hk
  rw [h.next_eq i hk] at hfill
  exact of_filling hfill (fun h2 h22 => hread (by omega) (by omega)) hmem

/-- In the last cycle of `WRITE` the buffer is full: the core absorbs it with round 0. -/
theorem finish (h : Writing mem 23 s) (hi : i.start = true) :
    Waiting mem 1 (s.clock true i) := by
  have hpend : (blockWords mem).take (23 - 2) = blockWords mem :=
    List.take_of_length_le (by simp)
  have hfill := h.filling
  rw [hpend] at hfill
  exact .of_permuting (hfill.finish (s.toFsm i)) (h.ram_clock hi).1

end Writing

namespace Waiting

variable {w : Nat}

theorem permuting (h : Waiting mem w s) :
    AccelFsm.Permuting (blockWords mem) w s.accelFsmInst where
  pos := h.pos
  le := h.le
  state := h.state
  startHash := h.startHash
  lastBlockS := h.lastBlockS
  done := h.done
  dinValidS := h.dinValidS
  dinValidReg := h.dinValidReg
  core := h.core
  buffer := h.buffer

/-- A cycle of `WAIT_HASH` leaves the RAM alone. -/
theorem ram_clock (h : Waiting mem w s) (hi : i.start = true) :
    (s.clock true i).ramInst.mem = mem := by
  rw [ram_clock_off hi (by rw [AccelFsm.memEn, h.state]), h.ram]

/-- A cycle of `WAIT_HASH` before the last is one round. -/
theorem clock (h : Waiting mem w s) (hi : i.start = true) (hw : w < 24) :
    Waiting mem (w + 1) (s.clock true i) :=
  .of_permuting (h.permuting.clock (s.toFsm i) hw) (h.ram_clock hi)

/-- The last cycle of `WAIT_HASH` turns the core to output mode. -/
theorem finish (h : Waiting mem 24 s) (hi : i.start = true) : Reading mem 0 (s.clock true i) :=
  .of_emptying (h.permuting.finish (s.toFsm i)) (h.ram_clock hi)

end Waiting

namespace Reading

variable {r : Nat}

theorem emptying (h : Reading mem r s) :
    AccelFsm.Emptying (blockWords mem) r s.accelFsmInst where
  le := h.le
  state := h.state
  startHash := h.startHash
  done := h.done
  byteCntrS := h.byteCntrS
  addrS := h.addrS
  dinValidS := h.dinValidS
  dinValidReg := h.dinValidReg
  core := h.core
  first := h.first

/-- The core shifts out lane `r-1` in cycle `r`. -/
theorem dout (h : Reading mem r s) (hr : 0 < r) :
    s.accelFsmInst.keccakInst.dout = (digestState mem).toWords.getD (r - 1) 0 :=
  h.emptying.dout hr

/-- The word on `dout` goes to the pair of words that the address register selects. -/
theorem store_clock (h : Reading mem r s) (hi : i.start = true) :
    (s.clock true i).ramInst.mem =
      storeLane s.ramInst.mem (r - 1) s.accelFsmInst.keccakInst.dout := by
  have hle := h.le
  have hwe : s.accelFsmInst.memWe = true := by rw [AccelFsm.memWe, h.state]
  have hen : s.accelFsmInst.memEn = true := by rw [AccelFsm.memEn, h.state]
  have hA : s.accelFsmInst.portB.addr < 42 := by
    simp only [AccelFsm.portB, h.addrS]
    omega
  have hB : s.accelFsmInst.portA.addr < 42 := by
    simp only [AccelFsm.portA, h.addrS]
    omega
  simp only [AccelWrapper.clock, TrueDpRam.clock, AccelWrapper.portAInt, if_pos hi]
  rw [TrueDpRam.write_word _ (p := s.accelFsmInst.portB) hen hwe rfl hA,
    TrueDpRam.write_word _ (p := s.accelFsmInst.portA) hen hwe rfl hB, storeLane]
  simp only [AccelFsm.portA, AccelFsm.portB, h.addrS]

/-- The RAM takes the lane on `dout`: nothing changes in cycle 0, and cycle `r` stores lane
`r-1`. -/
theorem ram_clock (h : Reading mem r s) (hi : i.start = true) :
    (s.clock true i).ramInst.mem = storeLanes (digestState mem) r mem := by
  rw [h.store_clock hi, h.ram]
  rcases Nat.eq_zero_or_pos r with rfl | hr
  · rw [h.first rfl]
    exact storeLane_pairLane mem (by decide)
  · rw [h.dout hr]
    conv => rhs; rw [show r = r - 1 + 1 by omega, storeLanes_succ]

/-- The read register of port A takes the word that was in the place of the lane's upper half. -/
theorem rdataA_clock (h : Reading mem r s) (hi : i.start = true) :
    (s.clock true i).ramInst.rdataA = mem.getD (2 * (r - 1) + 1) 0 := by
  have hle := h.le
  have hen : s.accelFsmInst.memEn = true := by rw [AccelFsm.memEn, h.state]
  have hA : s.accelFsmInst.portB.addr < 42 := by
    simp only [AccelFsm.portB, h.addrS]
    omega
  simp only [AccelWrapper.clock, TrueDpRam.clock, AccelWrapper.portAInt, if_pos hi]
  rw [TrueDpRam.read_on _ (p := s.accelFsmInst.portB) hen hA, h.ram]
  simp only [AccelFsm.portB, h.addrS]
  exact getD_storeLanes _ _ _ (by omega)

/-- A cycle of `READ` while the length register is above the byte counter. -/
theorem clock (h : Reading mem r s) (hi : i.start = true)
    (hl : 8 * max r 1 < i.outputLengthByte.toNat) : Reading mem (r + 1) (s.clock true i) :=
  .of_emptying (h.emptying.clock (i := s.toFsm i) hl) (h.ram_clock hi)

/-- The last cycle of `READ`. -/
theorem finish (h : Reading mem r s) (hi : i.start = true)
    (hl : i.outputLengthByte.toNat ≤ 8 * max r 1) :
    Finished (storeLanes (digestState mem) r mem) (mem.getD (2 * (r - 1) + 1) 0)
      (s.clock true i) := by
  have hfsm : (s.clock true i).accelFsmInst = _ :=
    AccelFsm.clock_read_exit h.state (i := s.toFsm i) (by rw [h.byteCntrS]; exact hl)
  exact ⟨by rw [hfsm], by rw [hfsm]; rfl, h.ram_clock hi, h.rdataA_clock hi⟩

end Reading

namespace Resting

/-- With the start bit 0 the CPU owns port A of the RAM. -/
theorem access (h : Resting mem s) (hi : i.start = false) :
    Resting (TrueDpRam.write mem i.mem) (s.clock true i) := by
  have hoff : (s.accelFsmInst.portA.en && s.accelFsmInst.portA.we) = false := by
    simp [AccelFsm.portA, AccelFsm.memEn, h.control.state]
  refine ⟨h.control.clock (i := s.toFsm i) hi, ?_⟩
  simp only [AccelWrapper.clock, TrueDpRam.clock, AccelWrapper.portAInt]
  rw [if_neg (ne_true_of_eq_false hi), TrueDpRam.write_off _ hoff, h.ram]

/-- With the start bit 1 the job begins, whatever the CPU requests. -/
theorem launch (h : Resting mem s) (hi : i.start = true) : Writing mem 0 (s.clock true i) := by
  refine .of_filling (h.control.launch (i := s.toFsm i) hi) (fun h2 => absurd h2 (by decide)) ?_
  rw [ram_clock_off hi (by rw [AccelFsm.memEn, h.control.state]), h.ram]

end Resting

/-! ## The whole job -/

/-- How many lanes a job with the length register `l` stores, which is also the index of the last
cycle of `READ`. -/
def lanesStored (l : Nat) : Nat := if l ≤ 8 then 0 else (l + 7) / 8

/-- The cycle, counted from the first of `WRITE`, in which a job with length register `l` is first
in `DONE`. -/
def doneCycle (l : Nat) : Nat := 49 + lanesStored l

/-- What is in the RAM when a job with length register `l` is over. -/
def jobRam (mem : Vector Word 42) (l : Nat) : Vector Word 42 :=
  storeLanes (digestState mem) (lanesStored l) mem

/-- What is in the read register of port A then: the word of the block that the last store
replaced. -/
def jobWord (mem : Vector Word 42) (l : Nat) : Word := mem.getD (2 * (lanesStored l - 1) + 1) 0

/-- The state in cycle `t` of a job. -/
def Job (mem : Vector Word 42) (l t : Nat) (s : AccelWrapper) : Prop :=
  if t < 24 then Writing mem t s
  else if t < 48 then Waiting mem (t - 23) s
  else if t < doneCycle l then Reading mem (t - 48) s
  else Finished (jobRam mem l) (jobWord mem l) s

namespace Job

variable {l t : Nat}

/-- **A cycle of a job.** -/
theorem clock (h : Job mem l t s) (hi : i.start = true) (hl : i.outputLengthByte.toNat = l)
    (ht : t < doneCycle l) : Job mem l (t + 1) (s.clock true i) := by
  have h64 := i.outputLengthByte.isLt
  unfold Job at h ⊢
  by_cases h24 : t < 24
  · rw [if_pos h24] at h
    by_cases h23 : t = 23
    · subst h23
      rw [if_neg (by omega), if_pos (by omega)]
      exact h.finish hi
    · rw [if_pos (by omega)]
      exact h.clock hi (by omega)
  · rw [if_neg h24] at h
    rw [if_neg (by omega)]
    by_cases h48 : t < 48
    · rw [if_pos h48] at h
      by_cases h47 : t = 47
      · subst h47
        rw [if_neg (by omega), if_pos (by rw [doneCycle]; omega)]
        exact h.finish hi
      · rw [if_pos (by omega), show t + 1 - 23 = t - 23 + 1 by omega]
        exact h.clock hi (by omega)
    · rw [if_neg h48, if_pos ht] at h
      rw [if_neg (by omega)]
      have hlt : t - 48 ≤ lanesStored l := by rw [doneCycle] at ht; omega
      by_cases hlast : t - 48 = lanesStored l
      · rw [if_neg (by rw [doneCycle]; omega), jobRam, jobWord, ← hlast]
        refine h.finish hi ?_
        rw [hl, hlast, lanesStored]
        split <;> omega
      · rw [if_pos (by rw [doneCycle]; omega), show t + 1 - 48 = t - 48 + 1 by omega]
        refine h.clock hi ?_
        rw [hl]
        rw [lanesStored] at hlt hlast
        split at hlt <;> rename_i h8
        · rw [if_pos h8] at hlast
          omega
        · rw [if_neg h8] at hlast
          omega

/-- A job is not in `DONE` before its last cycle. -/
theorem state_ne_done (h : Job mem l t s) (ht : t < doneCycle l) :
    s.accelFsmInst.state ≠ .DONE := by
  unfold Job at h
  split at h
  · rw [h.state]; decide
  · split at h
    · rw [h.state]; decide
    · rw [h.state]; decide

/-- The register `done` is low throughout a job. -/
theorem done (h : Job mem l t s) : s.done = false := by
  unfold Job at h
  split at h
  · exact h.done
  · split at h
    · exact h.done
    · split at h <;> exact h.done

/-- Whenever a word is offered to the core, the read registers hold a pair of the block. -/
theorem rdata (h : Job mem l t s) (ht : t < doneCycle l)
    (hv : s.accelFsmInst.dinValidReg = true) :
    s.ramInst.rdataA ++ s.ramInst.rdataB = pairLane mem (t - 2) := by
  unfold Job at h
  split at h
  · rw [h.dinValidReg] at hv
    obtain ⟨h2, h22⟩ := of_decide_eq_true hv
    exact h.rdata h2 h22
  · split at h
    · exact absurd (h.dinValidReg.symm.trans hv) (by decide)
    · exact absurd (h.dinValidReg.symm.trans hv) (by decide)

/-- The RAM is a function of the block, the length and the time. -/
theorem ram_eq {s' : AccelWrapper} (h : Job mem l t s) (h' : Job mem l t s') :
    s.ramInst.mem = s'.ramInst.mem := by
  unfold Job at h h'
  by_cases h24 : t < 24
  · rw [if_pos h24] at h h'
    rw [h.ram, h'.ram]
  · rw [if_neg h24] at h h'
    by_cases h48 : t < 48
    · rw [if_pos h48] at h h'
      rw [h.ram, h'.ram]
    · rw [if_neg h48] at h h'
      by_cases hd : t < doneCycle l
      · rw [if_pos hd] at h h'
        rw [h.ram, h'.ram]
      · rw [if_neg hd] at h h'
        rw [h.ram, h'.ram]

/-- At any time some first lanes of the digest are stored, and nothing else. -/
theorem ram_storeLanes (h : Job mem l t s) :
    ∃ n ≤ lanesStored l, s.ramInst.mem = storeLanes (digestState mem) n mem := by
  unfold Job at h
  split at h
  · exact ⟨0, Nat.zero_le _, h.ram⟩
  · split at h
    · exact ⟨0, Nat.zero_le _, h.ram⟩
    · split at h
      next ht => exact ⟨t - 48 - 1, by rw [doneCycle] at ht; omega, h.ram⟩
      next => exact ⟨lanesStored l, Nat.le_refl _, h.ram⟩

/-- How a job ends. -/
theorem finished (h : Job mem l (doneCycle l) s) : Finished (jobRam mem l) (jobWord mem l) s := by
  unfold Job at h
  rwa [if_neg (by rw [doneCycle]; omega), if_neg (by rw [doneCycle]; omega),
    if_neg (Nat.lt_irrefl _)] at h

end Job

end

end ShakeAccel
