import ShakeAccel.Lib.Bits

/-!
# The register file (`config_reg.sv`)

`nCtrl` control words that the bus writes under byte enables, and `nStat` status words that it only
reads. The parameters `ASYNC_READ` and `REGISTER_STATUS` select the read path.
-/

namespace ShakeAccel

/-- The registers of `config_reg`. -/
structure ConfigReg (nCtrl nStat dataWidth : Nat) where
  ctrlReg : Vector (BitVec dataWidth) nCtrl
  statReadout : Vector (BitVec dataWidth) nStat
  rdata : BitVec dataWidth
deriving DecidableEq

/-- The input ports of `config_reg` other than clock and reset. -/
structure ConfigIn (nStat dataWidth : Nat) where
  en : Bool
  addr : Nat
  we : Bool
  be : BitVec (dataWidth / 8)
  wdata : BitVec dataWidth
  statVec : Vector (BitVec dataWidth) nStat
  statEn : Bool

namespace ConfigReg

variable {nCtrl nStat dataWidth : Nat}

/-- The effect of `arst_n = 0`; the status register has no reset. -/
def asyncReset (s : ConfigReg nCtrl nStat dataWidth) : ConfigReg nCtrl nStat dataWidth :=
  { s with ctrlReg := .replicate nCtrl 0, rdata := 0 }

/-- The signal `stat_readout`: the register, or the inputs themselves. -/
def statView (registerStatus : Bool) (s : ConfigReg nCtrl nStat dataWidth)
    (i : ConfigIn nStat dataWidth) : Vector (BitVec dataWidth) nStat :=
  if registerStatus then s.statReadout else i.statVec

/-- The next value of the control words. -/
def writeCtrl (ctrlReg : Vector (BitVec dataWidth) nCtrl) (i : ConfigIn nStat dataWidth) :
    Vector (BitVec dataWidth) nCtrl :=
  if i.en && i.we then
    if h : i.addr < nCtrl then
      ctrlReg.set i.addr (Bits.mergeBytes i.be.getLsbD ctrlReg[i.addr] i.wdata)
    else ctrlReg
  else ctrlReg

/-- The word that an enabled read selects: a status word, a control word, or neither. -/
def select (registerStatus : Bool) (s : ConfigReg nCtrl nStat dataWidth)
    (i : ConfigIn nStat dataWidth) : Option (BitVec dataWidth) :=
  if i.en && !i.we then
    if h : nCtrl ≤ i.addr ∧ i.addr < nCtrl + nStat then
      some ((statView registerStatus s i)[i.addr - nCtrl])
    else if h : i.addr < nCtrl then some s.ctrlReg[i.addr]
    else none
  else none

/-- The port `rdata`. -/
def rdataOut (asyncRead registerStatus : Bool) (s : ConfigReg nCtrl nStat dataWidth)
    (i : ConfigIn nStat dataWidth) : BitVec dataWidth :=
  if asyncRead then (select registerStatus s i).getD 0 else s.rdata

/-- The rising edge. With `arst_n` low the registers with a reset keep their reset values. -/
def clock (registerStatus arstN : Bool) (s : ConfigReg nCtrl nStat dataWidth)
    (i : ConfigIn nStat dataWidth) : ConfigReg nCtrl nStat dataWidth where
  ctrlReg := if arstN then writeCtrl s.ctrlReg i else .replicate nCtrl 0
  statReadout := if i.statEn then i.statVec else s.statReadout
  rdata := if arstN then (select registerStatus s i).getD s.rdata else 0

end ConfigReg

end ShakeAccel
