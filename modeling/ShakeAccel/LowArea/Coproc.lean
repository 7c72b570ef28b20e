import ShakeAccel.Keccak.RoundAgree
import ShakeAccel.Lib.Machine
import ShakeAccel.Lib.Vec

/-!
# The low-area coprocessor (`fsm.vhd`, `pe.vhd`, `keccak_copro.vhd`, `system_mem.vhd`)

A processing element with three registers works on a memory of 64 words: words 0 to 24 hold the
state, words 25 to 49 the state after theta, rho and pi, words 50 to 54 the sums of the columns. The
state machine sends it an address and a command each cycle. The memory registers its output, so a
word is at the processing element one cycle after its address. A column is a `sheet` of the source,
a row a `plane`.
-/

namespace ShakeAccel.LowArea

/-! ## The state machine -/

/-- `fsm_st_type`. -/
inductive FsmSt where
  | INIT
  | theta0 | theta1 | theta2 | theta3 | theta4 | theta5 | theta6
  | theta10 | theta11 | theta12 | theta12bis | theta13 | theta13bis | theta14
  | chi0 | chi0bis | chi1 | chi2 | chi3 | chi4 | chi5
deriving DecidableEq, Repr

/-- The registers of `fsm`. -/
structure Fsm where
  fsmSt : FsmSt
  memAddr : Nat
  command : BitVec 8
  enR : Bool
  enW : Bool
  counterSheet : Nat
  counterPlane : Nat
  nrRoundInternal : Nat
  done : Bool
deriving DecidableEq

/-- The function `pi` of the architecture: where the lane goes. -/
def pi (countLane countSheet : Nat) : Nat :=
  (match countSheet, countLane with
    | 0, 0 => 0  | 0, 1 => 10 | 0, 2 => 20 | 0, 3 => 5  | 0, 4 => 15
    | 1, 0 => 16 | 1, 1 => 1  | 1, 2 => 11 | 1, 3 => 21 | 1, 4 => 6
    | 2, 0 => 7  | 2, 1 => 17 | 2, 2 => 2  | 2, 3 => 12 | 2, 4 => 22
    | 3, 0 => 23 | 3, 1 => 8  | 3, 2 => 18 | 3, 3 => 3  | 3, 4 => 13
    | 4, 0 => 14 | 4, 1 => 24 | 4, 2 => 9  | 4, 3 => 19 | 4, 4 => 4
    | _, _ => 0) + 25

/-- `f_mod5_m1`. -/
def fMod5M1 : Nat → Nat
  | 0 => 4 | 1 => 0 | 2 => 1 | 3 => 2 | 4 => 3 | _ => 0

/-- `f_mod5_p1`. -/
def fMod5P1 : Nat → Nat
  | 0 => 1 | 1 => 2 | 2 => 3 | 3 => 4 | 4 => 0 | _ => 0

/-- `f_mod5_p2`. -/
def fMod5P2 : Nat → Nat
  | 0 => 2 | 1 => 3 | 2 => 4 | 3 => 0 | 4 => 1 | _ => 0

/-- `f_mod5_p3`. -/
def fMod5P3 : Nat → Nat
  | 0 => 3 | 1 => 4 | 2 => 0 | 3 => 1 | 4 => 2 | _ => 0

/-- `p_main` with `rst_n = '0'`: the enables and the two counters have no reset. -/
def Fsm.reset (f : Fsm) : Fsm :=
  { f with fsmSt := .INIT, nrRoundInternal := 0, memAddr := 0, command := 0b00000000,
           done := false }

/-- `p_main` at a rising edge. -/
def Fsm.step (f : Fsm) (start : Bool) : Fsm :=
  match f.fsmSt with
  | .INIT =>
    let f := { f with done := false, command := 0b00000000, enR := false, enW := false }
    if start then
      { f with fsmSt := .theta0, nrRoundInternal := 0, memAddr := 0, enR := true, enW := false,
               counterSheet := 0, counterPlane := 0, command := 0b00000001 }
    else f
  -- the sum of a sheet
  | .theta0 =>
    { f with fsmSt := .theta1, memAddr := f.counterSheet + 5 * f.counterPlane,
             counterPlane := f.counterPlane + 1, command := 0b00000000, enR := true,
             enW := false }
  | .theta1 =>
    { f with fsmSt := .theta2, memAddr := f.counterSheet + 5 * f.counterPlane,
             counterPlane := f.counterPlane + 1, command := 0b00000001 }
  | .theta2 =>
    { f with fsmSt := .theta3, memAddr := f.counterSheet + 5 * f.counterPlane,
             counterPlane := f.counterPlane + 1, command := 0b00000010 }
  | .theta3 =>
    { f with fsmSt := .theta4, memAddr := f.counterSheet + 5 * f.counterPlane,
             counterPlane := f.counterPlane + 1, command := 0b00000010 }
  | .theta4 =>
    { f with fsmSt := .theta5, memAddr := f.counterSheet + 5 * f.counterPlane,
             command := 0b00000010 }
  | .theta5 => { f with fsmSt := .theta6, enR := false, command := 0b00000010 }
  | .theta6 =>
    let f := { f with enW := true, enR := false, memAddr := 50 + f.counterSheet,
                      command := 0b00010000, counterPlane := 0 }
    if f.counterSheet = 4 then { f with fsmSt := .theta10, counterSheet := 0 }
    else { f with fsmSt := .theta0, counterSheet := f.counterSheet + 1 }
  -- the second part of theta, with rho and pi
  | .theta10 =>
    let f := { f with enW := false, enR := true }
    let f := if f.counterPlane = 4 then
        { f with memAddr := 50 + f.counterSheet, counterSheet := f.counterSheet + 1 }
      else { f with memAddr := 50 + fMod5M1 f.counterSheet }
    { f with fsmSt := .theta11, command := 0b00000001 }
  | .theta11 =>
    { f with fsmSt := .theta12, enR := true, memAddr := 50 + fMod5P1 f.counterSheet,
             command := 0b00001001 }
  | .theta12 =>
    { f with fsmSt := .theta12bis, enW := false, enR := true, memAddr := f.counterSheet,
             counterPlane := 0, command := 0b00001001 }
  | .theta12bis => { f with fsmSt := .theta13, command := 0b00001100 }
  | .theta13 =>
    { f with fsmSt := .theta13bis, enW := false, enR := false,
             memAddr := pi f.counterSheet f.counterPlane, command := 0b00000100 }
  | .theta13bis =>
    let f := { f with enW := true, enR := false, command := 0b00100000 }
    if f.counterPlane = 4 then
      if f.counterSheet = 4 then { f with fsmSt := .chi0 } else { f with fsmSt := .theta10 }
    else { f with fsmSt := .theta14 }
  | .theta14 =>
    { f with fsmSt := .theta13, enW := false, enR := true,
             memAddr := f.counterSheet + 5 * (f.counterPlane + 1),
             counterPlane := f.counterPlane + 1, command := 0b00000100 }
  -- chi, and iota when needed
  | .chi0 =>
    { f with fsmSt := .chi1, enW := false, enR := true, counterPlane := 0, counterSheet := 0,
             memAddr := 25, command := 0b00000000 }
  | .chi0bis =>
    { f with fsmSt := .chi1, enW := false, enR := true,
             memAddr := 25 + 5 * f.counterPlane + f.counterSheet, command := 0b00000000 }
  | .chi1 =>
    { f with fsmSt := .chi2, memAddr := 25 + 5 * f.counterPlane + fMod5P1 f.counterSheet,
             command := 0b00000001 }
  | .chi2 =>
    { f with fsmSt := .chi3, enR := true, enW := false,
             memAddr := 25 + 5 * f.counterPlane + fMod5P2 f.counterSheet, command := 0b00001001 }
  | .chi3 => { f with fsmSt := .chi4, enR := false, command := 0b00001001 }
  | .chi4 =>
    let f := { f with enW := true, memAddr := 5 * f.counterPlane + f.counterSheet }
    let f := if f.counterSheet = 0 ∧ f.counterPlane = 0 then { f with command := 0b10000000 }
      else { f with command := 0b01000000 }
    { f with fsmSt := .chi5 }
  | .chi5 =>
    let f := { f with command := 0b00000000 }
    if f.counterSheet = 4 then
      if f.counterPlane = 4 then
        let f := { f with enR := false, enW := false, counterSheet := 0, counterPlane := 0 }
        if f.nrRoundInternal = 23 then { f with fsmSt := .INIT, done := true }
        else { f with nrRoundInternal := f.nrRoundInternal + 1, fsmSt := .theta0 }
      else
        { f with enR := true, enW := false, counterPlane := f.counterPlane + 1,
                 counterSheet := 0, fsmSt := .chi0bis,
                 memAddr := 25 + 5 * f.counterPlane + fMod5P3 f.counterSheet }
    else
      { f with enR := true, enW := false, counterSheet := f.counterSheet + 1, fsmSt := .chi3,
               memAddr := 25 + 5 * f.counterPlane + fMod5P3 f.counterSheet }

/-! ## The processing element -/

/-- The registers of `pe`. -/
structure Pe where
  r1Out : Lane
  r2Out : Lane
  r3Out : Lane
deriving DecidableEq

/-- `r(63-k downto 0) & r(63 downto 64-k)`. -/
def rotated (r : Lane) (k : Nat) : Lane :=
  (r.extractLsb' 0 (64 - k) ++ r.extractLsb' (64 - k) k).setWidth 64

namespace Pe

/-- `reg_main` with `rst_n = '0'`. -/
def reset : Pe := ⟨0, 0, 0⟩

/-- `r1_in`. -/
def r1In (p : Pe) (dataFromMem : Lane) (command : BitVec 8) : Lane :=
  if command.getLsbD 0 then dataFromMem
  else if command.getLsbD 1 then dataFromMem ^^^ p.r1Out
  else if command.getLsbD 2 then dataFromMem ^^^ p.r3Out ^^^ rotated p.r2Out 1
  else p.r1Out

/-- `r2_in`. -/
def r2In (p : Pe) (command : BitVec 8) : Lane :=
  if command.getLsbD 3 then p.r1Out else p.r2Out

/-- `r3_in`. -/
def r3In (p : Pe) (command : BitVec 8) : Lane :=
  if command.getLsbD 3 then p.r2Out else p.r3Out

/-- `chi_out`. -/
def chiOut (p : Pe) : Lane := p.r3Out ^^^ (~~~p.r2Out &&& p.r1Out)

/-- `rho_out`: the rotations are those of `keccak_round`, by plane and sheet. -/
def rhoOut (p : Pe) (counterPlane counterSheet : Nat) : Lane :=
  if counterPlane = 0 ∧ counterSheet = 0 then p.r1Out
  else rotated p.r1Out (rhoOffset counterPlane counterSheet)

/-- `data_to_mem`; the constants of `iota` are those of `keccak_round_constants_gen`. -/
def dataToMem (p : Pe) (nrRound : Nat) (command : BitVec 8) (counterPlane counterSheet : Nat) :
    Lane :=
  if command.getLsbD 4 then p.r1Out
  else if command.getLsbD 5 then p.rhoOut counterPlane counterSheet
  else if command.getLsbD 6 then p.chiOut
  else if command.getLsbD 7 then p.chiOut ^^^ keccakRoundConstantsGen nrRound
  else 0

/-- `reg_main` at a rising edge. -/
def step (p : Pe) (dataFromMem : Lane) (command : BitVec 8) : Pe :=
  ⟨p.r1In dataFromMem command, p.r2In command, p.r3In command⟩

end Pe

/-! ## The coprocessor, its memory, and both together -/

/-- `keccak_copro`. -/
structure Copro where
  fsm : Fsm
  pe : Pe
deriving DecidableEq

/-- The output port `data_to_mem`. -/
def Copro.dataToMem (c : Copro) : Lane :=
  c.pe.dataToMem c.fsm.nrRoundInternal c.fsm.command c.fsm.counterPlane c.fsm.counterSheet

/-- A reset of both components. -/
def Copro.reset (c : Copro) : Copro := ⟨c.fsm.reset, Pe.reset⟩

/-- A rising edge. -/
def Copro.step (c : Copro) (start : Bool) (dataFromMem : Lane) : Copro :=
  ⟨c.fsm.step start, c.pe.step dataFromMem c.fsm.command⟩

/-- `mem_table_type`. -/
abbrev MemTable := Vector Lane 64

/-- `system_mem`. -/
structure SystemMem where
  ram : MemTable
  memOutput : Lane
deriving DecidableEq

namespace SystemMem

/-- The words after the write, if there is one. -/
def written (m : SystemMem) (enW : Bool) (addr : Nat) (memInput : Lane) : MemTable :=
  if enW then m.ram.setIfInBounds addr memInput else m.ram

/-- `rst_n = '0'`: the output has no reset. -/
def reset (m : SystemMem) : SystemMem := { m with ram := .replicate 64 0 }

/-- A rising edge. A read returns the word before a write of the same edge. -/
def step (m : SystemMem) (enR enW : Bool) (addr : Nat) (memInput : Lane) : SystemMem :=
  { memOutput := if enR then m.ram.getD addr 0 else 0
    ram := m.written enW addr memInput }

end SystemMem

/-- The coprocessor with the memory on its ports. -/
structure System where
  copro : Copro
  mem : SystemMem
deriving DecidableEq

namespace System

/-- A reset. -/
def reset (s : System) : System := ⟨s.copro.reset, s.mem.reset⟩

/-- A rising edge. -/
def step (s : System) (start : Bool) : System :=
  ⟨s.copro.step start s.mem.memOutput,
    s.mem.step s.copro.fsm.enR s.copro.fsm.enW s.copro.fsm.memAddr s.copro.dataToMem⟩

/-- The words that the memory holds once the write on its ports is done. -/
def settled (s : System) : MemTable :=
  s.mem.written s.copro.fsm.enW s.copro.fsm.memAddr s.copro.dataToMem

end System

end ShakeAccel.LowArea
