import ShakeAccel.Keccak.Stream
import ShakeAccel.Accel.Fsm

/-!
# The course of the state machine

Whatever words it reads and whatever the length register holds, the machine goes from rest
(`AtRest`) through 24 cycles of `WRITE` (`Filling`), 24 of `WAIT_HASH` (`Permuting`) and at most 9
of `READ` (`Emptying`) to `DONE`. A phase says what every register of the machine and of the core
holds, in terms of the words read so far. From this the addresses stay within the RAM and the
readout ends.
-/

namespace ShakeAccel

/-- The core's state after the block `ws` is absorbed. -/
def blockState (ws : List Lane) : KState := permute24 (xorBlock .zero ws)

namespace AccelFsm

/-- The machine after a reset, before the start. -/
structure AtRest (f : AccelFsm) : Prop where
  state : f.state = .IDLE
  dinValidS : f.dinValidS = false
  dinValidReg : f.dinValidReg = false
  lastBlockS : f.lastBlockS = false
  byteCntrS : f.byteCntrS = 0
  addrS : f.addrS = 0
  done : f.done = false
  core : f.keccakInst = .reset

/-- Cycle `k` of `WRITE`: pair `k-1` is requested, and the core has accepted the `k-2` words
`ws`. -/
structure Filling (ws : List Lane) (k : Nat) (f : AccelFsm) : Prop where
  le : k ≤ 23
  length : ws.length = k - 2
  state : f.state = .WRITE
  startHash : f.startHash = false
  lastBlockS : f.lastBlockS = false
  done : f.done = false
  byteCntrS : f.byteCntrS = min (8 * k) 168
  addrS : f.addrS = if k ≤ 21 then 2 * (k - 1) else 0
  dinValidS : f.dinValidS = decide (1 ≤ k ∧ k ≤ 21)
  dinValidReg : f.dinValidReg = decide (2 ≤ k ∧ k ≤ 22)
  core : Refines ⟨.zero, 0, ws⟩ f.keccakInst

/-- Cycle `w` of `WAIT_HASH`: `w` rounds on the block `ws` are over. -/
structure Permuting (ws : List Lane) (w : Nat) (f : AccelFsm) : Prop where
  pos : 1 ≤ w
  le : w ≤ 24
  state : f.state = .WAIT_HASH
  startHash : f.startHash = false
  lastBlockS : f.lastBlockS = decide (2 ≤ w)
  done : f.done = false
  dinValidS : f.dinValidS = false
  dinValidReg : f.dinValidReg = false
  core : Refines (if w < 24 then ⟨xorBlock .zero ws, w, []⟩ else ⟨blockState ws, 0, []⟩)
    f.keccakInst
  buffer : f.keccakInst.bufferIn.bufferData.toList = ws

/-- Cycle `r` of `READ`: the core shows lane `r-1`, and in cycle 0 still the first word of the
block. -/
structure Emptying (ws : List Lane) (r : Nat) (f : AccelFsm) : Prop where
  le : r ≤ 8
  state : f.state = .READ
  startHash : f.startHash = false
  done : f.done = false
  byteCntrS : f.byteCntrS = 8 * max r 1
  addrS : f.addrS = 2 * (r - 1)
  dinValidS : f.dinValidS = false
  dinValidReg : f.dinValidReg = false
  core : Shifting (blockState ws) r f.keccakInst
  first : r = 0 → f.keccakInst.dout = ws.getD 0 0

section
variable {f : AccelFsm} {i : FsmIn} {ws : List Lane}

/-! ## Rest -/

/-- One edge in reset is enough, from any state. -/
theorem atRest_of_reset (f : AccelFsm) (i : FsmIn) : AtRest (f.asyncReset.clock false i) :=
  ⟨rfl, rfl, rfl, rfl, rfl, rfl, rfl, rfl⟩

namespace AtRest

/-- The core is kept in its reset state, whether or not `start_hash` is still 1. -/
theorem core_clock (h : AtRest f) (i : FsmIn) : f.keccakInst.clock (f.toKeccak i) = .reset := by
  rw [h.core]
  exact Keccak.clock_reset h.dinValidReg h.lastBlockS

theorem clock (h : AtRest f) (hi : i.start = false) : AtRest (f.clock true i) := by
  rw [clock_idle h.state, hi]
  exact
    { state := rfl
      dinValidS := rfl
      dinValidReg := h.dinValidS
      lastBlockS := rfl
      byteCntrS := h.byteCntrS
      addrS := rfl
      done := rfl
      core := h.core_clock i }

/-- With the start bit 1 the machine begins to read the block. -/
theorem launch (h : AtRest f) (hi : i.start = true) : Filling [] 0 (f.clock true i) := by
  rw [clock_idle h.state, hi]
  have hcore : (f.common i).keccakInst = .reset := h.core_clock i
  exact
    { le := Nat.zero_le _
      length := rfl
      state := rfl
      startHash := rfl
      lastBlockS := rfl
      done := rfl
      byteCntrS := h.byteCntrS
      addrS := rfl
      dinValidS := rfl
      dinValidReg := h.dinValidS
      core := by rw [hcore]; exact Refines.reset }

end AtRest

/-! ## Filling the buffer -/

namespace Filling

variable {k : Nat}

/-- The words that the core holds after a cycle: from cycle 2 on the pair of read words is
offered. -/
def next (ws : List Lane) (k : Nat) (i : FsmIn) : List Lane :=
  if 2 ≤ k then ws ++ [i.memRdataB ++ i.memRdataA] else ws

theorem bufferFull (h : Filling ws k f) (hk : k < 23) : f.keccakInst.bufferFull = false := by
  rw [Keccak.bufferFull, h.core.full]
  exact decide_eq_false (by have := h.length; simp only; omega)

theorem lastBlock (h : Filling ws k f) (i : FsmIn) :
    ((f.toKeccak i).lastBlock && f.keccakInst.ready) = false := by
  rw [show (f.toKeccak i).lastBlock = f.lastBlockS from rfl, h.lastBlockS, Bool.false_and]

/-- The word that the core accepts in a cycle of `WRITE`. -/
theorem accepted (h : Filling ws k f) (i : FsmIn) (hk : k < 23) :
    ws ++ (f.keccakInst.accepted (f.toKeccak i)).toList = next ws k i := by
  by_cases h2 : 2 ≤ k
  · have hv : f.dinValidReg = true := by
      rw [h.dinValidReg]
      exact decide_eq_true (by omega)
    rw [next, if_pos h2]
    simp [Keccak.accepted, toKeccak, hv, h.bufferFull hk, h.core.mode]
  · have hv : f.dinValidReg = false := by
      rw [h.dinValidReg]
      exact decide_eq_false (by omega)
    rw [next, if_neg h2]
    simp [Keccak.accepted, toKeccak, hv]

/-- The core's part of a cycle of `WRITE`. -/
theorem core_clock (h : Filling ws k f) (i : FsmIn) (hk : k < 23) :
    Refines ⟨.zero, 0, next ws k i⟩ (f.keccakInst.clock (f.toKeccak i)) := by
  have hne : ¬(ws.length = 21 ∧ (0 : Nat) = 0) := by
    have := h.length
    omega
  have hclock := h.core.clock (i := f.toKeccak i) h.startHash (h.lastBlock i)
  rw [SpongeCore.step, if_neg hne, h.accepted i hk] at hclock
  simpa using hclock

/-- A cycle of `WRITE` before the last. -/
theorem clock (h : Filling ws k f) (i : FsmIn) (hk : k < 23) :
    Filling (next ws k i) (k + 1) (f.clock true i) := by
  have hcore := h.core_clock i hk
  have hfull := h.bufferFull hk
  have hlen : (next ws k i).length = k + 1 - 2 := by
    have := h.length
    rw [next]
    split
    · rw [List.length_append, List.length_singleton]; omega
    · omega
  by_cases h20 : k ≤ 20
  · have hb : f.byteCntrS = 8 * k := by rw [h.byteCntrS]; omega
    rw [clock_write_request h.state (by omega)]
    refine ⟨by omega, hlen, ?_, ?_, ?_, ?_, ?_, ?_, ?_, ?_, hcore⟩
    · rw [hfull]; rfl
    · rfl
    · rfl
    · rfl
    · simp only [hb]; omega
    · simp only [hb, if_pos (show k + 1 ≤ 21 by omega)]; omega
    · exact (decide_eq_true (by omega)).symm
    · exact h.dinValidS.trans (decide_eq_decide.2 (by omega))
  · have hb : f.byteCntrS = 168 := by rw [h.byteCntrS]; omega
    rw [clock_write_drain h.state (by omega)]
    refine ⟨by omega, hlen, ?_, ?_, ?_, ?_, ?_, ?_, ?_, ?_, hcore⟩
    · rw [hfull]; rfl
    · rfl
    · rfl
    · rfl
    · exact hb.trans (by omega)
    · exact (if_neg (by omega)).symm
    · exact (decide_eq_false (by omega)).symm
    · exact h.dinValidS.trans (decide_eq_decide.2 (by omega))

/-- In the last cycle of `WRITE` the buffer is full: the core absorbs it with round 0. -/
theorem finish (h : Filling ws 23 f) (i : FsmIn) : Permuting ws 1 (f.clock true i) := by
  have h21 : ws.length = 21 := h.length
  have hvalid : f.dinValidReg = false := h.dinValidReg
  have hfull : f.keccakInst.bufferFull = true := by
    rw [Keccak.bufferFull, h.core.full]
    exact decide_eq_true h21
  have hclock := h.core.clock (i := f.toKeccak i) h.startHash (h.lastBlock i)
  rw [SpongeCore.step, if_pos ⟨h21, rfl⟩] at hclock
  rw [clock_write_drain h.state (by rw [h.byteCntrS]; decide)]
  refine ⟨by omega, by omega, ?_, ?_, ?_, ?_, ?_, ?_, ?_, ?_⟩
  · rw [hfull]; rfl
  · rfl
  · rfl
  · rfl
  · rfl
  · exact h.dinValidS
  · exact hclock
  · exact (congrArg Vector.toList (KeccakBuffer.bufferData_clock h.core.mode hvalid)).trans
      (h.core.bufferData h21)

end Filling

/-! ## Waiting for the permutation -/

namespace Permuting

variable {w : Nat}

/-- The buffer keeps the block while no word is offered. -/
theorem buffer_clock (h : Permuting ws w f) (i : FsmIn) :
    (f.keccakInst.clock (f.toKeccak i)).bufferIn.bufferData.toList = ws :=
  (congrArg Vector.toList (KeccakBuffer.bufferData_clock h.core.mode h.dinValidReg)).trans h.buffer

/-- A cycle of `WAIT_HASH` before the last is one round. -/
theorem clock (h : Permuting ws w f) (i : FsmIn) (hw : w < 24) :
    Permuting ws (w + 1) (f.clock true i) := by
  have hpos := h.pos
  have hcore := h.core
  rw [if_pos hw] at hcore
  have hready : f.keccakInst.ready = false := by
    rw [Keccak.ready, hcore.computed]
    exact decide_eq_false (by simp only; omega)
  have hacc : f.keccakInst.accepted (f.toKeccak i) = none := by
    simp [Keccak.accepted, toKeccak, h.dinValidReg]
  have hclock := hcore.clock (i := f.toKeccak i) h.startHash (by rw [hready, Bool.and_false])
  rw [hacc, SpongeCore.step, if_neg (by simp)] at hclock
  rw [clock_wait h.state]
  refine ⟨by omega, by omega, ?_, ?_, ?_, ?_, ?_, ?_, ?_, ?_⟩
  · rw [hready]; rfl
  · rfl
  · exact (decide_eq_true (by omega)).symm
  · rfl
  · rfl
  · exact h.dinValidS
  · by_cases h23 : w = 23
    · rw [if_neg (by omega)]
      simpa [h23, blockState, common] using hclock
    · rw [if_pos (by omega)]
      simpa [h23, show w ≠ 0 by omega, common] using hclock
  · exact h.buffer_clock i

/-- The last cycle of `WAIT_HASH` turns the core to output mode. -/
theorem finish (h : Permuting ws 24 f) (i : FsmIn) : Emptying ws 0 (f.clock true i) := by
  have hcore : Refines ⟨blockState ws, 0, []⟩ f.keccakInst := h.core
  have hready : f.keccakInst.ready = true := hcore.computed
  have hturn := hcore.turn (i := f.toKeccak i) h.startHash h.lastBlockS h.dinValidReg
  rw [clock_wait h.state]
  refine ⟨by omega, ?_, ?_, ?_, ?_, ?_, ?_, ?_, hturn, fun _ => ?_⟩
  · rw [hready]; rfl
  · rfl
  · rfl
  · rfl
  · rfl
  · rfl
  · exact h.dinValidS
  · have hb := congrArg (·.getD 0 0) (h.buffer_clock i)
    simpa [Keccak.dout, KeccakBuffer.doutBufferOut, List.getD_eq_getElem?_getD, common] using hb

end Permuting

/-! ## Emptying the buffer -/

namespace Emptying

variable {r : Nat}

theorem doutValid (h : Emptying ws r f) : f.keccakInst.doutValid = decide (0 < r) :=
  h.core.doutValid

/-- The core shows lane `r-1` in cycle `r`. -/
theorem dout (h : Emptying ws r f) (hr : 0 < r) :
    f.keccakInst.dout = (blockState ws).toWords.getD (r - 1) 0 := by
  obtain ⟨j, rfl⟩ : ∃ j, r = j + 1 := ⟨r - 1, by omega⟩
  have hle := h.le
  rw [h.core.dout (by omega), Nat.add_sub_cancel, Vec.getD_of_lt _ _ (by omega)]

/-- A cycle of `READ` while the length register is above the byte counter. -/
theorem clock (h : Emptying ws r f) (hl : 8 * max r 1 < i.outputLengthByte.toNat) :
    Emptying ws (r + 1) (f.clock true i) := by
  have h64 := i.outputLengthByte.isLt
  have hr : r < 8 := by omega
  have hb : f.byteCntrS = 8 * max r 1 := h.byteCntrS
  rw [clock_read_next h.state (by rw [hb]; exact hl), h.doutValid]
  refine ⟨by omega, h.state, rfl, rfl, ?_, ?_, rfl, h.dinValidS, h.core.clock h.startHash hr,
    fun h0 => absurd h0 (by omega)⟩
  · by_cases h0 : 0 < r
    · simp only [decide_eq_true h0, if_true]; omega
    · simp only [decide_eq_false h0, Bool.false_eq_true, if_false]; omega
  · by_cases h0 : 0 < r
    · simp only [decide_eq_true h0, if_true]; omega
    · simp only [decide_eq_false h0, Bool.false_eq_true, if_false]; omega

end Emptying

end

/-! ## Every run -/

/-- The inputs of one clock cycle of the machine. -/
structure Cycle where
  rstN : Bool
  ports : FsmIn

/-- The state that a cycle shows before its edge: with `rst_n` low the registers with an
asynchronous reset already hold their reset values. -/
def settle (f : AccelFsm) (rstN : Bool) : AccelFsm := if rstN then f else f.asyncReset

/-- One clock cycle. -/
def step (f : AccelFsm) (c : Cycle) : AccelFsm := (f.settle c.rstN).clock c.rstN c.ports

/-- The states that the machine goes through after a reset. -/
inductive Course (f : AccelFsm) : Prop
  | rest : AtRest f → Course f
  | fill {ws k} : Filling ws k f → Course f
  | permute {ws w} : Permuting ws w f → f.byteCntrS % 8 = 0 → f.byteCntrS ≤ 168 → Course f
  | empty {ws r} : Emptying ws r f → Course f
  | done : f.state = .DONE → f.byteCntrS % 8 = 0 → f.byteCntrS ≤ 168 → Course f

/-- What the memory ports and the byte counter satisfy in every cycle. -/
structure InBounds (f : AccelFsm) : Prop where
  enabled : f.memEn = true →
    f.portA.addr < 42 ∧ f.portB.addr < 42 ∧ f.portA.addr ≠ f.portB.addr
  write : f.memWe = true → f.portA.addr < 16 ∧ f.portB.addr < 16
  dvd : f.byteCntrS % 8 = 0
  le : f.byteCntrS ≤ 168

section
variable {f : AccelFsm} {c : Cycle}

theorem step_of_high (hc : c.rstN = true) : f.step c = f.clock true c.ports := by
  rw [step, settle, hc, if_pos rfl]

theorem step_of_low (hc : c.rstN = false) : AtRest (f.step c) := by
  rw [step, settle, hc, if_neg Bool.false_ne_true]
  exact atRest_of_reset f c.ports

/-- A cycle of `READ`, for every value of the length register: the next lane, or `DONE`. -/
theorem Emptying.clock_or {ws : List Lane} {r : Nat} {i : FsmIn} (h : Emptying ws r f) :
    Emptying ws (r + 1) (f.clock true i) ∨
      (f.clock true i).state = .DONE ∧ (f.clock true i).byteCntrS = f.byteCntrS := by
  by_cases hl : 8 * max r 1 < i.outputLengthByte.toNat
  · exact .inl (h.clock hl)
  · refine .inr ?_
    rw [clock_read_exit h.state (by rw [h.byteCntrS]; omega)]
    exact ⟨rfl, rfl⟩

namespace Course

/-- **A cycle of the machine**, for all inputs. -/
theorem step (h : Course f) (c : Cycle) : Course (f.step c) := by
  cases hc : c.rstN with
  | false => exact .rest (step_of_low hc)
  | true =>
    rw [step_of_high hc]
    cases h with
    | rest h =>
      cases hs : c.ports.start with
      | false => exact .rest (h.clock hs)
      | true => exact .fill (h.launch hs)
    | @fill ws k h =>
      rcases Nat.lt_or_ge k 23 with hk | hk
      · exact .fill (h.clock c.ports hk)
      · obtain rfl : k = 23 := Nat.le_antisymm h.le hk
        have hb : (f.clock true c.ports).byteCntrS = 168 := by
          rw [clock_write_drain h.state (by rw [h.byteCntrS]; decide)]
          exact h.byteCntrS
        exact .permute (h.finish c.ports) (by rw [hb]) (by rw [hb])
    | @permute ws w h =>
      have hb : (f.clock true c.ports).byteCntrS = 8 := by rw [clock_wait h.state]
      rcases Nat.lt_or_ge w 24 with hw | hw
      · exact .permute (h.clock c.ports hw) (by rw [hb]) (by rw [hb]; decide)
      · obtain rfl : w = 24 := Nat.le_antisymm h.le hw
        exact .empty (h.finish c.ports)
    | @empty ws r h =>
      rcases h.clock_or with h' | ⟨hd, hb⟩
      · exact .empty h'
      · have hle := h.le
        have hcntr := h.byteCntrS
        exact .done hd (by omega) (by omega)
    | done hd h8 hle =>
      rw [clock_done hd]
      exact .done hd h8 hle

/-- After a reset of one edge or more, every run stays on the course. -/
theorem run (s0 : AccelFsm) {rst : List Cycle} (hne : rst ≠ []) (hr : ∀ c ∈ rst, c.rstN = false)
    (cs : List Cycle) : Course (Machine.run AccelFsm.step s0 (rst ++ cs)) := by
  obtain ⟨ini, c, rfl⟩ := List.eq_nil_or_concat rst |>.resolve_left hne
  rw [Machine.run_append, List.concat_eq_append, Machine.run_append]
  exact Machine.run_invariant (A := fun _ => True) (fun s i _ hs => hs.step i)
    (.rest (step_of_low (hr c (by simp)))) fun _ _ => trivial

theorem settle (h : Course f) (rstN : Bool) : Course (f.settle rstN) ∨
    (f.settle rstN).state = .IDLE ∧ (f.settle rstN).byteCntrS = 0 := by
  cases rstN with
  | true => exact .inl h
  | false => exact .inr ⟨rfl, rfl⟩

/-- On the course the addresses are those of words of the RAM. -/
theorem inBounds (h : Course f) : InBounds f := by
  cases h with
  | rest h =>
    exact ⟨by simp [memEn, h.state], by simp [memWe, h.state], by rw [h.byteCntrS],
      by rw [h.byteCntrS]; omega⟩
  | @fill ws k h =>
    have hle := h.le
    have haddr : f.addrS ≤ 40 := by
      rw [h.addrS]
      split <;> omega
    refine ⟨fun _ => ?_, by simp [memWe, h.state], by rw [h.byteCntrS]; omega,
      by rw [h.byteCntrS]; omega⟩
    simp only [portA, portB]
    omega
  | permute h h8 hle => exact ⟨by simp [memEn, h.state], by simp [memWe, h.state], h8, hle⟩
  | @empty ws r h =>
    have hle := h.le
    have haddr := h.addrS
    refine ⟨fun _ => ?_, fun _ => ?_, by rw [h.byteCntrS]; omega, by rw [h.byteCntrS]; omega⟩ <;>
      simp only [portA, portB] <;> omega
  | done hd h8 hle => exact ⟨by simp [memEn, hd], by simp [memWe, hd], h8, hle⟩

end Course

/-- `DONE` is left only by a reset. -/
theorem run_done (hd : f.state = .DONE) {cs : List Cycle} (hcs : ∀ c ∈ cs, c.rstN = true) :
    (Machine.run AccelFsm.step f cs).state = .DONE := by
  induction cs generalizing f with
  | nil => exact hd
  | cons c cs ih =>
    rw [Machine.run_cons, step_of_high (hcs c (.head _)), clock_done hd]
    exact ih hd fun c hc => hcs c (.tail _ hc)

/-- The readout ends `9 - r` cycles after cycle `r` of `READ`, whatever the length register does. -/
theorem Emptying.run {ws : List Lane} {r : Nat} (h : Emptying ws r f) {cs : List Cycle}
    (hcs : ∀ c ∈ cs, c.rstN = true) (hlen : 9 ≤ r + cs.length) :
    (Machine.run AccelFsm.step f cs).state = .DONE := by
  induction cs generalizing f r with
  | nil =>
    have := h.le
    rw [List.length_nil] at hlen
    omega
  | cons c cs ih =>
    rw [Machine.run_cons, step_of_high (hcs c (.head _))]
    have hrest : ∀ c ∈ cs, c.rstN = true := fun c hc => hcs c (.tail _ hc)
    rcases h.clock_or (i := c.ports) with h' | ⟨hd, -⟩
    · exact ih h' hrest (by rw [List.length_cons] at hlen; omega)
    · exact run_done hd hrest

/-- Cycle `t` after the start, up to the first of `READ`. -/
def Underway (t : Nat) (f : AccelFsm) : Prop :=
  if t < 24 then ∃ ws, Filling ws t f
  else if t < 48 then ∃ ws, Permuting ws (t - 23) f
  else ∃ ws, Emptying ws 0 f

theorem Underway.clock {t : Nat} (h : Underway t f) (i : FsmIn) (ht : t < 48) :
    Underway (t + 1) (f.clock true i) := by
  unfold Underway at h ⊢
  by_cases h24 : t < 24
  · rw [if_pos h24] at h
    obtain ⟨ws, h⟩ := h
    by_cases h23 : t = 23
    · subst h23
      rw [if_neg (by omega), if_pos (by omega)]
      exact ⟨ws, h.finish i⟩
    · rw [if_pos (by omega)]
      exact ⟨_, h.clock i (by omega)⟩
  · rw [if_neg h24, if_pos ht] at h
    rw [if_neg (by omega)]
    obtain ⟨ws, h⟩ := h
    by_cases h47 : t = 47
    · subst h47
      rw [if_neg (by omega)]
      exact ⟨ws, h.finish i⟩
    · rw [if_pos (by omega), show t + 1 - 23 = t - 23 + 1 by omega]
      exact ⟨ws, h.clock i (by omega)⟩

/-- On the course the state `READ` is a cycle of the readout. -/
theorem Course.emptying (h : Course f) (hs : f.state = .READ) : ∃ ws r, Emptying ws r f := by
  cases h with
  | rest h => exact absurd (h.state.symm.trans hs) (by decide)
  | fill h => exact absurd (h.state.symm.trans hs) (by decide)
  | permute h => exact absurd (h.state.symm.trans hs) (by decide)
  | @empty ws r h => exact ⟨ws, r, h⟩
  | done h => exact absurd (h.symm.trans hs) (by decide)

/-- **When `READ` is entered.** 49 cycles after the start bit is seen, whatever words are read and
whatever the start and the length do meanwhile. -/
theorem AtRest.first_read (h : AtRest f) {c : Cycle} (hc : c.rstN = true)
    (hs : c.ports.start = true) {cs : List Cycle} (hcs : ∀ c ∈ cs, c.rstN = true)
    (hlen : cs.length = 48) : ∃ ws, Emptying ws 0 (Machine.run AccelFsm.step f (c :: cs)) := by
  have hstep : ∀ t (s : AccelFsm) (d : Cycle), t < 48 → d.rstN = true → Underway t s →
      Underway (t + 1) (s.step d) := by
    intro t s d ht hd hst
    rw [step_of_high hd]
    exact hst.clock d.ports ht
  have hstart : Underway 0 (f.step c) := by
    rw [step_of_high hc, Underway, if_pos (by decide)]
    exact ⟨[], h.launch hs⟩
  have hrun := Machine.run_schedule hstep hstart hcs (by omega)
  rw [hlen, Underway, if_neg (by decide), if_neg (by decide)] at hrun
  exact hrun

end

/-- **The machine never addresses a word outside the RAM, and its readout ends.** After any reset
and in any cycle of any run: the addresses are in bounds, and nine cycles after a cycle of `READ`
the machine is in `DONE`. -/
theorem inBounds_and_readout_ends (s0 : AccelFsm) {rst : List Cycle} (hne : rst ≠ [])
    (hr : ∀ c ∈ rst, c.rstN = false) (cs : List Cycle) :
    (∀ rstN, InBounds ((Machine.run step s0 (rst ++ cs)).settle rstN)) ∧
      ((Machine.run step s0 (rst ++ cs)).state = .READ →
        ∀ next : List Cycle, next.length = 9 → (∀ c ∈ next, c.rstN = true) →
          (Machine.run step s0 (rst ++ cs ++ next)).state = .DONE) := by
  have hcourse := Course.run s0 hne hr cs
  refine ⟨fun rstN => ?_, fun hs next hlen hnext => ?_⟩
  · rcases hcourse.settle rstN with h | ⟨hi, hb⟩
    · exact h.inBounds
    · exact ⟨by simp [memEn, hi], by simp [memWe, hi], by rw [hb], by rw [hb]; omega⟩
  · obtain ⟨ws, r, h⟩ := hcourse.emptying hs
    rw [Machine.run_append]
    exact h.run hnext (by omega)

/-- The cycles of a run with the start bit and a length of 16 held. -/
def Cycle.held : Cycle := ⟨true, ⟨true, 16, 0x01234567, 0x89ABCDEF⟩⟩

/-- A run from reset reaches `READ`, and nine cycles later it is in `DONE`. -/
theorem inBounds_and_readout_ends_reset :
    let s0 : AccelFsm := ⟨.READ, true, true, 56, 14, false, true, false, 3, .reset⟩
    let rst : List Cycle := [⟨false, ⟨true, 16, 0, 0⟩⟩]
    InBounds ((Machine.run step s0 (rst ++ List.replicate 49 .held)).settle true) ∧
      (Machine.run step s0 (rst ++ List.replicate 49 .held)).state = .READ ∧
      (Machine.run step s0 (rst ++ List.replicate 49 .held ++ List.replicate 9 .held)).state =
        .DONE := by
  intro s0 rst
  have hheld : ∀ n, ∀ c ∈ List.replicate n Cycle.held, c.rstN = true := fun n c hc => by
    rw [List.eq_of_mem_replicate hc]
    rfl
  have hne : rst ≠ [] := List.cons_ne_nil _ _
  obtain ⟨hin, hend⟩ := inBounds_and_readout_ends s0 hne (by simp [rst])
    (List.replicate 49 .held)
  obtain ⟨ws, h⟩ := (atRest_of_reset s0 ⟨true, 16, 0, 0⟩).first_read (c := .held) rfl rfl
    (hheld 48) List.length_replicate
  have hread : (Machine.run step s0 (rst ++ List.replicate 49 .held)).state = .READ := by
    rw [Machine.run_append, List.replicate_succ]
    exact h.state
  exact ⟨hin true, hread, hend hread _ List.length_replicate (hheld 9)⟩

end AccelFsm

end ShakeAccel
