import ShakeAccel.Accel.Fsm

/-!
# The accelerator with its RAM (`accel_wrapper.sv`)

The 42-word RAM holds one rate of input. Port B of the RAM belongs to the state machine's port
`a`; port A of the RAM is multiplexed by `start` between the machine's port `b` and the CPU.
-/

namespace ShakeAccel

/-- The registers of `accel_wrapper`: those of the state machine and the RAM of depth 42. -/
structure AccelWrapper where
  accelFsmInst : AccelFsm
  ramInst : TrueDpRam 42
deriving DecidableEq

/-- The input ports of `accel_wrapper` other than clock and reset; `oobA` and `oobB` are the words
that the RAM returns for an address beyond its depth. -/
structure WrapperIn where
  start : Bool
  outputLengthByte : BitVec 6
  mem : RamPort
  oobA : Word
  oobB : Word

namespace AccelWrapper

/-- The port `done`. -/
def done (s : AccelWrapper) : Bool := s.accelFsmInst.done

/-- The port `mem_rdata`, which is also `accel_mem_rdata_b`. -/
def memRdata (s : AccelWrapper) : Word := s.ramInst.rdataA

/-- The multiplexed port A of the RAM. -/
def portAInt (s : AccelWrapper) (i : WrapperIn) : RamPort :=
  if i.start then s.accelFsmInst.portB else i.mem

/-- The inputs of the state machine. -/
def toFsm (s : AccelWrapper) (i : WrapperIn) : FsmIn where
  start := i.start
  outputLengthByte := i.outputLengthByte
  memRdataA := s.ramInst.rdataB
  memRdataB := s.ramInst.rdataA

/-- The effect of `rst_n = 0`; the RAM has no reset. -/
def asyncReset (s : AccelWrapper) : AccelWrapper :=
  { s with accelFsmInst := s.accelFsmInst.asyncReset }

/-- The rising edge. -/
def clock (rstN : Bool) (s : AccelWrapper) (i : WrapperIn) : AccelWrapper where
  accelFsmInst := s.accelFsmInst.clock rstN (s.toFsm i)
  ramInst := s.ramInst.clock (s.portAInt i) s.accelFsmInst.portA i.oobA i.oobB

end AccelWrapper

end ShakeAccel
