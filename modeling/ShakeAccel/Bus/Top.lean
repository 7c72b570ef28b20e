import Mathlib.Data.Nat.Log
import ShakeAccel.Accel.Wrapper
import ShakeAccel.Bus.ConfigReg

/-!
# The accelerator on the bus (`accel_top_wrapper.sv`)

The bus adapter delivers a request with the word address of the access (`axi_mem_addr_tmp`). The
wrapper appends two zero bits to it, decodes the top bit into configuration window or data window
and takes the low bits as the index into the register file. While `done` is high the port of the
register file is taken over by a constant write that clears byte 0 of control word 0.
-/

namespace ShakeAccel

/-- The parameters of `accel_top_wrapper` that the logic depends on; `AXI_DATA_WIDTH` is 32. The
RAM has 42 words at every `MEM_DEPTH`, and `$clog2(MEM_DEPTH)` bits have to address them. -/
structure TopParams where
  intAddrWidth : Nat
  memDepth : Nat
  ctrlWords : Nat
  statWords : Nat
  memDepth_gt : 32 < memDepth
  ctrlWords_pos : 0 < ctrlWords
  statWords_pos : 0 < statWords

/-- The parameters of the instance `accelerator_i` in `pulpino_top.sv`. -/
def pulpinoTop : TopParams where
  intAddrWidth := 20
  memDepth := 1024
  ctrlWords := 4
  statWords := 4
  memDepth_gt := by decide
  ctrlWords_pos := by decide
  statWords_pos := by decide

namespace TopParams

/-- `CFG_ADDR_BITS = $clog2(CTRL_WORDS + STAT_WORDS)`. -/
def cfgAddrBits (P : TopParams) : Nat := Nat.clog 2 (P.ctrlWords + P.statWords)

/-- `ALIGN_BITS = $clog2(AXI_DATA_WIDTH/8)`. -/
def alignBits : Nat := 2

/-- `axi_mem_addr`: the word address with `ALIGN_BITS` zero bits appended, cut to the width. -/
def axiMemAddr (P : TopParams) (axiMemAddrTmp : Nat) : Nat :=
  axiMemAddrTmp % 2 ^ (P.intAddrWidth - alignBits) * 2 ^ alignBits

/-- `addr_is_config`: the top address bit is 0. -/
def addrIsConfig (P : TopParams) (axiMemAddrTmp : Nat) : Bool :=
  !(P.axiMemAddr axiMemAddrTmp).testBit (P.intAddrWidth - 1)

/-- `cfg_addr` while `done` is low: `axi_mem_addr[CFG_ADDR_BITS-1:0]`. -/
def cfgAddr (P : TopParams) (axiMemAddrTmp : Nat) : Nat :=
  P.axiMemAddr axiMemAddrTmp % 2 ^ P.cfgAddrBits

/-- `acc_addr`: `axi_mem_addr[$clog2(MEM_DEPTH)+ALIGN_BITS-1:ALIGN_BITS]`. -/
def accAddr (P : TopParams) (axiMemAddrTmp : Nat) : Nat :=
  P.axiMemAddr axiMemAddrTmp / 2 ^ alignBits % 2 ^ Nat.clog 2 P.memDepth

/-- The addresses of the RAM have six bits or more. -/
theorem ram_addressed (P : TopParams) : 42 ≤ 2 ^ Nat.clog 2 P.memDepth := by
  have h6 : 6 ≤ Nat.clog 2 P.memDepth := (Nat.lt_clog_iff_pow_lt (by decide)).2 P.memDepth_gt
  exact Nat.le_trans (by decide) (Nat.pow_le_pow_right (by decide) h6)

end TopParams

/-- The request side of the memory bus behind `axi_mem_if_SP`. -/
structure BusIn where
  axiMemReq : Bool
  axiMemAddrTmp : Nat
  axiMemWe : Bool
  axiMemBe : BitVec 4
  axiMemWdata : Word

namespace TopParams

/-- The signals that a request drives on the register file while `done` is low. -/
def configPort (P : TopParams) (b : BusIn) (statVec : Vector Word P.statWords) :
    ConfigIn P.statWords 32 where
  en := b.axiMemReq && P.addrIsConfig b.axiMemAddrTmp
  addr := P.cfgAddr b.axiMemAddrTmp
  we := b.axiMemWe
  be := b.axiMemBe
  wdata := b.axiMemWdata
  statVec := statVec
  statEn := true

/-- The signals that a request drives on the port of the RAM. -/
def dataPort (P : TopParams) (b : BusIn) : RamPort where
  en := b.axiMemReq && !P.addrIsConfig b.axiMemAddrTmp
  addr := P.accAddr b.axiMemAddrTmp
  we := b.axiMemWe
  wdata := b.axiMemWdata
  be := b.axiMemBe

end TopParams

/-- What the source leaves undriven or undefined: `accel_error`, the bits 31 to 9 of status word 0
and the words read beyond the RAM's depth. -/
structure Undriven where
  accelErr : BitVec 4
  statusHigh : BitVec 23
  oobA : Word
  oobB : Word

/-- No request. -/
def BusIn.none : BusIn := ⟨false, 0, false, 0, 0⟩

/-- All undriven values 0. -/
def Undriven.zero : Undriven := ⟨0, 0, 0, 0⟩

/-- The inputs of one clock cycle. -/
structure Cycle where
  rstN : Bool
  bus : BusIn
  undriven : Undriven

/-- The registers of `accel_top_wrapper`. -/
structure AccelTopWrapper (P : TopParams) where
  accelWrapperInst : AccelWrapper
  configRegInst : ConfigReg P.ctrlWords P.statWords 32
  addrIsConfigReg : Bool
deriving DecidableEq

namespace AccelTopWrapper

variable {P : TopParams}

/-- A power-up state: every register and the RAM are 0. -/
def blank : AccelTopWrapper P where
  accelWrapperInst :=
    { accelFsmInst :=
        { state := .IDLE, dinValidS := false, dinValidReg := false, byteCntrS := 0, addrS := 0
          startHash := false, lastBlockS := false, done := false, accelState := 0
          keccakInst := .reset }
      ramInst := ⟨.replicate 42 0, 0, 0⟩ }
  configRegInst := ⟨.replicate _ 0, .replicate _ 0, 0⟩
  addrIsConfigReg := false

/-- `control_vec[0]`. -/
def controlWord0 (s : AccelTopWrapper P) : Word :=
  s.configRegInst.ctrlReg.get ⟨0, P.ctrlWords_pos⟩

/-- `start_int`: bit 0 of control word 0. -/
def startInt (s : AccelTopWrapper P) : Bool := s.controlWord0.getLsbD 0

/-- `output_length_byte`: bits 13 to 8 of control word 0. -/
def outputLengthByte (s : AccelTopWrapper P) : BitVec 6 := s.controlWord0.extractLsb' 8 6

/-- `done_int`. -/
def done (s : AccelTopWrapper P) : Bool := s.accelWrapperInst.done

/-- `status_vec`: word 0 is done, error and state; byte `j` of word `i > 0` is `j + 4*i`. -/
def statusVec (s : AccelTopWrapper P) (u : Undriven) : Vector Word P.statWords :=
  .ofFn fun i =>
    if i.val = 0 then
      u.statusHigh ++ BitVec.ofBool s.done ++ u.accelErr ++
        s.accelWrapperInst.accelFsmInst.accelState
    else Bits.ofBits 32 fun b => (b / 8 + 4 * i.val).testBit (b % 8)

/-- The inputs of `config_reg`, with the override while `done` is high. -/
def toConfigReg (s : AccelTopWrapper P) (c : Cycle) : ConfigIn P.statWords 32 :=
  if s.done then
    { en := true, addr := 0, we := true, be := 1, wdata := 0
      statVec := s.statusVec c.undriven, statEn := true }
  else P.configPort c.bus (s.statusVec c.undriven)

/-- The inputs of `accel_wrapper`. -/
def toWrapper (s : AccelTopWrapper P) (c : Cycle) : WrapperIn where
  start := s.startInt
  outputLengthByte := s.outputLengthByte
  mem := P.dataPort c.bus
  oobA := c.undriven.oobA
  oobB := c.undriven.oobB

/-- `axi_mem_rdata`: the read data of the window that the previous cycle addressed. -/
def axiMemRdata (s : AccelTopWrapper P) : Word :=
  if s.addrIsConfigReg then s.configRegInst.rdata else s.accelWrapperInst.memRdata

/-- The effect of `rst_n = 0` on the registers with an asynchronous reset. -/
def asyncReset (s : AccelTopWrapper P) : AccelTopWrapper P :=
  { s with
    accelWrapperInst := s.accelWrapperInst.asyncReset
    configRegInst := s.configRegInst.asyncReset }

/-- The rising edge. -/
def clock (s : AccelTopWrapper P) (c : Cycle) : AccelTopWrapper P where
  accelWrapperInst := s.accelWrapperInst.clock c.rstN (s.toWrapper c)
  configRegInst := s.configRegInst.clock true c.rstN (s.toConfigReg c)
  addrIsConfigReg := P.addrIsConfig c.bus.axiMemAddrTmp

/-- The state that the cycle shows before its edge: with `rst_n` low the registers with an
asynchronous reset already hold their reset values. -/
def settle (s : AccelTopWrapper P) (rstN : Bool) : AccelTopWrapper P :=
  if rstN then s else s.asyncReset

/-- One clock cycle. -/
def step (s : AccelTopWrapper P) (c : Cycle) : AccelTopWrapper P :=
  (s.settle c.rstN).clock c

end AccelTopWrapper

end ShakeAccel
