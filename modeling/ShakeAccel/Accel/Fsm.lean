import ShakeAccel.Keccak.Core
import ShakeAccel.Accel.Ram

/-!
# The accelerator's state machine (`accel_fsm.sv`, `cfg_types_pkg.sv`)

The machine moves the block from the RAM into the core 64 bits at a time, waits for the
permutation and moves the digest back. `start_hash` is 1 after reset and 0 from the first edge
on; `din_valid_reg` and `accel_state` have no reset.
-/

namespace ShakeAccel

/-- The state register of `accel_fsm`. -/
inductive FsmState where
  | IDLE | WRITE | WAIT_HASH | READ | DONE
deriving DecidableEq, Repr

/-- `acc_state_t`. -/
inductive AccState where
  | ST_IDLE | ST_WRITE | ST_WAIT_HASH | ST_READ | ST_DONE
deriving DecidableEq, Repr

/-- The 4-bit encoding of `acc_state_t`. -/
def AccState.encode : AccState → BitVec 4
  | ST_IDLE => 0x0
  | ST_WRITE => 0x1
  | ST_WAIT_HASH => 0x2
  | ST_READ => 0x3
  | ST_DONE => 0x4

/-- The value that the output control assigns to `accel_state` in each state. -/
def FsmState.accState : FsmState → AccState
  | IDLE => .ST_IDLE
  | WRITE => .ST_WRITE
  | WAIT_HASH => .ST_WAIT_HASH
  | READ => .ST_READ
  | DONE => .ST_DONE

/-- The registers of `accel_fsm`, with the core it instantiates. -/
structure AccelFsm where
  state : FsmState
  dinValidS : Bool
  dinValidReg : Bool
  byteCntrS : Nat
  addrS : Nat
  startHash : Bool
  lastBlockS : Bool
  done : Bool
  accelState : BitVec 4
  keccakInst : Keccak
deriving DecidableEq

/-- The input ports of `accel_fsm` other than clock and reset. -/
structure FsmIn where
  start : Bool
  outputLengthByte : BitVec 6
  memRdataA : Word
  memRdataB : Word

namespace AccelFsm

/-- `RATE_BIT_COUNT`. -/
def rateBitCount : Nat := 1344

/-- The effect of `rst_n = 0` on the registers that have an asynchronous reset. -/
def asyncReset (s : AccelFsm) : AccelFsm where
  state := .IDLE
  dinValidS := false
  dinValidReg := s.dinValidReg
  byteCntrS := 0
  addrS := 0
  startHash := true
  lastBlockS := false
  done := false
  accelState := s.accelState
  keccakInst := .reset

/-- The next state logic. -/
def nState (s : AccelFsm) (i : FsmIn) : FsmState :=
  match s.state with
  | .IDLE => if i.start then .WRITE else .IDLE
  | .WRITE => if s.keccakInst.bufferFull then .WAIT_HASH else .WRITE
  | .WAIT_HASH => if s.keccakInst.ready then .READ else .WAIT_HASH
  | .READ => if i.outputLengthByte.toNat ≤ s.byteCntrS then .DONE else .READ
  | .DONE => .DONE

/-- `mem_en_a` and `mem_en_b`, which are always equal. -/
def memEn (s : AccelFsm) : Bool :=
  match s.state with
  | .WRITE | .READ => true
  | .IDLE | .WAIT_HASH | .DONE => false

/-- `mem_we_a` and `mem_we_b`, which are always equal. -/
def memWe (s : AccelFsm) : Bool :=
  match s.state with
  | .READ => true
  | .IDLE | .WRITE | .WAIT_HASH | .DONE => false

/-- The signals of memory port `a`: `mem_addr_a = addr_s`, the lower half of `dout_s`. The port is
`ADDR_WIDTH` bits wide; the addresses of a run have at most six (`Reachable.ports_fit`). -/
def portA (s : AccelFsm) : RamPort where
  en := s.memEn
  addr := s.addrS
  we := s.memWe
  wdata := s.keccakInst.dout.extractLsb' 0 32
  be := 0xf

/-- The signals of memory port `b`: `mem_addr_b = addr_s + 1`, the upper half of `dout_s`. -/
def portB (s : AccelFsm) : RamPort where
  en := s.memEn
  addr := s.addrS + 1
  we := s.memWe
  wdata := s.keccakInst.dout.extractLsb' 32 32
  be := 0xf

/-- The signals that `accel_fsm` drives on the core: `din_s` is the pair of read words. -/
def toKeccak (s : AccelFsm) (i : FsmIn) : KeccakIn where
  start := s.startHash
  din := i.memRdataB ++ i.memRdataA
  dinValid := s.dinValidReg
  lastBlock := s.lastBlockS

/-- The rising edge of the copro control process while `rst_n` is high. -/
def coproControl (s : AccelFsm) (i : FsmIn) : AccelFsm :=
  let n := { s with startHash := false, dinValidS := false, lastBlockS := false, addrS := 0 }
  match s.state with
  | .IDLE | .DONE => n
  | .WRITE =>
    if s.byteCntrS < rateBitCount / 8 then
      { n with
        addrS := s.byteCntrS / 4
        byteCntrS := (s.byteCntrS + 8) % 256
        dinValidS := true }
    else n
  | .WAIT_HASH => { n with lastBlockS := true, byteCntrS := 8 }
  | .READ =>
    if s.keccakInst.doutValid && s.byteCntrS < i.outputLengthByte.toNat then
      { n with addrS := s.byteCntrS / 4, byteCntrS := (s.byteCntrS + 8) % 256 }
    else n

/-- The rising edge of the whole machine. With `rst_n` low the registers with a reset keep their
reset values and only `din_valid_reg` is clocked. -/
def clock (rstN : Bool) (s : AccelFsm) (i : FsmIn) : AccelFsm :=
  if rstN then
    { s.coproControl i with
      state := s.nState i
      dinValidReg := s.dinValidS
      done := s.state = .DONE
      accelState := s.state.accState.encode
      keccakInst := s.keccakInst.clock (s.toKeccak i) }
  else { s.asyncReset with dinValidReg := s.dinValidS }

/-! ## What one edge can do -/

section
variable {s : AccelFsm} {i : FsmIn}

/-- The registers that every edge with `rst_n` high loads in the same way. -/
def common (s : AccelFsm) (i : FsmIn) : AccelFsm :=
  { s with
    dinValidReg := s.dinValidS
    dinValidS := false
    startHash := false
    lastBlockS := false
    addrS := 0
    done := false
    accelState := s.state.accState.encode
    keccakInst := s.keccakInst.clock (s.toKeccak i) }

theorem clock_idle (h : s.state = .IDLE) :
    s.clock true i = { s.common i with state := if i.start then .WRITE else .IDLE } := by
  simp [clock, coproControl, nState, common, h]

/-- `WRITE` requests the next pair of words until the whole rate is requested. -/
theorem clock_write_request (h : s.state = .WRITE) (hb : s.byteCntrS < 168) :
    s.clock true i =
      { s.common i with
        state := if s.keccakInst.bufferFull then .WAIT_HASH else .WRITE
        addrS := s.byteCntrS / 4
        byteCntrS := s.byteCntrS + 8
        dinValidS := true } := by
  have h256 : (s.byteCntrS + 8) % 256 = s.byteCntrS + 8 := Nat.mod_eq_of_lt (by omega)
  simp [clock, coproControl, nState, common, rateBitCount, h, hb, h256]

theorem clock_write_drain (h : s.state = .WRITE) (hb : 168 ≤ s.byteCntrS) :
    s.clock true i =
      { s.common i with state := if s.keccakInst.bufferFull then .WAIT_HASH else .WRITE } := by
  simp [clock, coproControl, nState, common, rateBitCount, h, Nat.not_lt.2 hb]

theorem clock_wait (h : s.state = .WAIT_HASH) :
    s.clock true i =
      { s.common i with
        state := if s.keccakInst.ready then .READ else .WAIT_HASH
        lastBlockS := true
        byteCntrS := 8 } := by
  simp [clock, coproControl, nState, common, h]

/-- `READ` leaves for `DONE` as soon as the byte counter reaches the length register. -/
theorem clock_read_exit (h : s.state = .READ) (hl : i.outputLengthByte.toNat ≤ s.byteCntrS) :
    s.clock true i = { s.common i with state := .DONE } := by
  simp [clock, coproControl, nState, common, h, hl, Nat.not_lt.2 hl]

/-- Otherwise it advances by one lane if the core shows one. -/
theorem clock_read_next (h : s.state = .READ) (hl : s.byteCntrS < i.outputLengthByte.toNat) :
    s.clock true i =
      { s.common i with
        addrS := if s.keccakInst.doutValid then s.byteCntrS / 4 else 0
        byteCntrS := if s.keccakInst.doutValid then s.byteCntrS + 8 else s.byteCntrS } := by
  have h256 : (s.byteCntrS + 8) % 256 = s.byteCntrS + 8 := Nat.mod_eq_of_lt (by omega)
  cases hv : s.keccakInst.doutValid <;>
    simp [clock, coproControl, nState, common, h, hl, Nat.not_le.2 hl, hv, h256]

theorem clock_done (h : s.state = .DONE) : s.clock true i = { s.common i with done := true } := by
  simp [clock, coproControl, nState, common, h]

end

end AccelFsm

end ShakeAccel
