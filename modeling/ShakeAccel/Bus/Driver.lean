import ShakeAccel.Bus.Top
import ShakeAccel.Soft.Fips202

/-!
# The driver (`shake128_hw` in `bench_targets/main.c`)

The driver stores the length byte, the padded block and the start bit, polls the done byte and
reads the digest back. Addresses are byte offsets from `accel_base`.
-/

namespace ShakeAccel

/-- `START_REG`. -/
def startReg : Nat := 0x0

/-- `OUTPUT_LEN_BYTE_REG`. -/
def outputLenByteReg : Nat := 0x0 + 1

/-- `DONE_REG`. -/
def doneReg : Nat := 0x10 + 1

/-- `ACCEL_DATA_BASE`. -/
def accelDataBase : Nat := 0x80000

/-- `RATE_BYTES`. -/
def rateBytes : Nat := 1344 / 8

/-- The byte that the driver's loop stores to `accel_data[i]`. -/
def accelDataByte (input : List Byte) (i : Nat) : Byte :=
  if i < input.length then input.getD i 0
  else if i = input.length then 0x1F
  else if i = rateBytes - 1 then 0x80
  else 0x00

/-- A one-byte store of the driver. -/
structure Store where
  addr : Nat
  data : Byte
deriving DecidableEq

/-- The stores of `shake128_hw` in program order: length byte, block, start bit. `outlen - 1` is a
`size_t` of which the cast takes the low byte, so it is `0xFF` for an output of 0 bytes. -/
def shake128HwStores (outlen : Nat) (input : List Byte) : List Store :=
  ⟨outputLenByteReg, BitVec.ofNat 8 outlen - 1⟩ ::
    (List.range rateBytes).map (fun i => ⟨accelDataBase + i, accelDataByte input i⟩) ++
    [⟨startReg, 1⟩]

/-- The request that a one-byte store puts on the bus: the word address, and the byte on its own
byte lane. -/
def Store.bus (w : Store) : BusIn where
  axiMemReq := true
  axiMemAddrTmp := w.addr / 4
  axiMemWe := true
  axiMemBe := (1 : BitVec 4) <<< (w.addr % 4)
  axiMemWdata := w.data.setWidth 32 <<< (8 * (w.addr % 4))

/-- The request of a one-byte load. -/
def loadBus (addr : Nat) : BusIn where
  axiMemReq := true
  axiMemAddrTmp := addr / 4
  axiMemWe := false
  axiMemBe := 0xf
  axiMemWdata := 0

/-! ## The driver as a program -/

/-- Where the driver is: the next access is a store, a poll of `DONE_REG` or the read of
`accel_data[i]`, or the data of such a load is on its way. -/
inductive DriverPc where
  | store (w : Store) (ws : List Store)
  | poll
  | pollWait
  | read (i : Nat)
  | readWait (i : Nat)

/-- After the stores comes `while (*DONE_REG == 0);`. -/
def DriverPc.ofStores : List Store → DriverPc
  | [] => .poll
  | w :: ws => .store w ws

/-- The driver and the bytes that it has stored to `output_hw`. -/
structure Driver where
  pc : DriverPc
  outputHw : List Byte

namespace Driver

/-- The driver before its first access. -/
def start (outlen : Nat) (input : List Byte) : Driver :=
  ⟨.ofStores (shake128HwStores outlen input), []⟩

/-- The data of the load that was made in the cycle before. -/
def receive (d : Driver) (rdata : Word) : Driver :=
  match d.pc with
  | .pollWait => { d with pc := if Bits.byteAt rdata (doneReg % 4) = 0 then .poll else .read 0 }
  | .readWait i =>
    { pc := .read (i + 1)
      outputHw := d.outputHw ++ [Bits.byteAt rdata ((accelDataBase + i) % 4)] }
  | .store _ _ | .poll | .read _ => d

/-- The request of the next access. -/
def request (outlen : Nat) (d : Driver) : BusIn :=
  match d.pc with
  | .store w _ => w.bus
  | .poll => loadBus doneReg
  | .read i => if i < outlen then loadBus (accelDataBase + i) else .none
  | .pollWait | .readWait _ => .none

/-- The driver after the next access. -/
def issue (outlen : Nat) (d : Driver) : Driver :=
  match d.pc with
  | .store _ ws => { d with pc := .ofStores ws }
  | .poll => { d with pc := .pollWait }
  | .read i => if i < outlen then { d with pc := .readWait i } else d
  | .pollWait | .readWait _ => d

end Driver

end ShakeAccel
