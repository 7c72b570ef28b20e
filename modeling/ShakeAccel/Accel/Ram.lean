import ShakeAccel.Soft.Permute
import ShakeAccel.Lib.Bits

/-!
# The dual-port memory (`true_dp_ram.sv`)

The simulation branch of the module (`ASIC` not defined). Both ports write under byte enables and
register the word that the memory held before the edge. An address at or beyond the depth writes
nothing; what such a read returns is not defined by the source, so it is an argument (`oob`).
-/

namespace ShakeAccel

/-- A 32-bit data word. -/
abbrev Word := BitVec 32

/-- The input signals of one port of `true_dp_ram`. -/
structure RamPort where
  en : Bool
  addr : Nat
  we : Bool
  wdata : Word
  be : BitVec 4

/-- The memory array and the two read registers. -/
structure TrueDpRam (depth : Nat) where
  mem : Vector Word depth
  rdataA : Word
  rdataB : Word
deriving DecidableEq

namespace TrueDpRam

variable {depth : Nat}

/-- The write of one port: `mem[addr][8*i + 7 -:8] <= wdata[8*i + 7 -:8]` for every enabled byte. -/
def write (mem : Vector Word depth) (p : RamPort) : Vector Word depth :=
  if p.en && p.we then
    if h : p.addr < depth then mem.set p.addr (Bits.mergeBytes p.be.getLsbD mem[p.addr] p.wdata)
    else mem
  else mem

/-- The read register of one port after the edge. -/
def read (mem : Vector Word depth) (p : RamPort) (old oob : Word) : Word :=
  if p.en then
    if h : p.addr < depth then mem[p.addr] else oob
  else old

/-- The rising edge. When both ports write one byte, port B's process comes last. -/
def clock (s : TrueDpRam depth) (a b : RamPort) (oobA oobB : Word) : TrueDpRam depth where
  mem := write (write s.mem a) b
  rdataA := read s.mem a s.rdataA oobA
  rdataB := read s.mem b s.rdataB oobB

end TrueDpRam

end ShakeAccel
