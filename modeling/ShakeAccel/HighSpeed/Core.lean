import ShakeAccel.Lib.Vec
import ShakeAccel.Keccak.Round

/-!
# The high-speed core (`keccak.vhd` and `keccak_buffer.vhd` of `high_speed_core`)

The accelerator's core is a copy of this one with wider blocks and outputs. The widths are
parameters here: a block has `w` words and an output `o`, in this core 16 and 4, in the
accelerator's 21 and 8. What an edge can do is shown here for both.
-/

namespace ShakeAccel

/-- The input ports of `keccak` other than clock and reset. -/
structure KeccakIn where
  start : Bool
  din : Lane
  dinValid : Bool
  lastBlock : Bool

namespace HighSpeed

/-- The registers of `keccak_buffer`; `countOutWords` is the process variable. `mode` is `true` in
output mode. -/
structure Buffer (w : Nat) where
  mode : Bool
  bufferFull : Bool
  countInWords : Nat
  bufferData : Vector Lane w
  countOutWords : Nat
  doutBufferOutValid : Bool
deriving DecidableEq

/-- The input ports of `keccak_buffer`. -/
structure BufferIn (o : Nat) where
  dinBufferIn : Lane
  dinBufferInValid : Bool
  lastBlock : Bool
  doutBufferIn : Vector Lane o
  ready : Bool

namespace Buffer

variable {w o : Nat}

/-- The branch `rst_n = '0'` of `p_main`. -/
def reset : Buffer w where
  mode := false
  bufferFull := false
  countInWords := 0
  bufferData := .replicate w 0
  countOutWords := 0
  doutBufferOutValid := false

/-- Shifts the buffer down by one word and inserts the new word on top. -/
def shiftIn (b : Vector Lane w) (din : Lane) : Vector Lane w :=
  .ofFn fun i => if h : i.val + 1 < w then b[i.val + 1] else din

/-- The low words of the buffer take `dout_buffer_in`. -/
def loadOut (b : Vector Lane w) (d : Vector Lane o) : Vector Lane w :=
  .ofFn fun i => if h : i.val < o then d[i.val] else b[i.val]

/-- Shifts the low `o` words down by one; the last of them keeps its value. -/
def shiftOut (o : Nat) (b : Vector Lane w) : Vector Lane w :=
  .ofFn fun i => if h : i.val + 1 < o ∧ i.val + 1 < w then b[i.val + 1] else b[i.val]

/-- The rising edge of `p_main`. Every condition reads the registers as they were before the edge;
a later assignment to a register overrides an earlier one. -/
def clock (s : Buffer w) (i : BufferIn o) : Buffer w :=
  let n := if i.lastBlock && i.ready then { s with mode := true } else s
  if !s.mode then
    if s.bufferFull && i.ready then
      { n with bufferFull := false, countInWords := 0 }
    else if i.dinBufferInValid && !s.bufferFull then
      let n := { n with bufferData := shiftIn s.bufferData i.dinBufferIn }
      if s.countInWords = w - 1 then { n with bufferFull := true, countInWords := 0 }
      else { n with countInWords := (s.countInWords + 1) % 32 }
    else n
  else
    let n := { n with doutBufferOutValid := true }
    if s.countOutWords = 0 then
      { n with bufferData := loadOut s.bufferData i.doutBufferIn, countOutWords := 1 }
    else if s.countOutWords < o then
      { n with bufferData := shiftOut o s.bufferData, countOutWords := s.countOutWords + 1 }
    else
      { n with doutBufferOutValid := false, countOutWords := 0, mode := false }

/-- The port `dout_buffer_out`. -/
def doutBufferOut (s : Buffer w) : Lane := s.bufferData.getD 0 0

/-! ## What one edge can do to the buffer -/

section
variable {s : Buffer w} {i : BufferIn o}

/-- Input mode, the core absorbs the full buffer. -/
theorem clock_absorb (hm : s.mode = false) (hl : (i.lastBlock && i.ready) = false)
    (hf : s.bufferFull = true) (hr : i.ready = true) :
    s.clock i = { s with bufferFull := false, countInWords := 0 } := by
  simp only [clock, hl, Bool.false_eq_true, if_false]
  simp only [hm, hf, hr, Bool.not_false, Bool.and_self, if_true]

/-- Input mode, a word is accepted. -/
theorem clock_accept (hm : s.mode = false) (hl : (i.lastBlock && i.ready) = false)
    (hf : s.bufferFull = false) (hv : i.dinBufferInValid = true) (hc : s.countInWords < w)
    (hw : w ≤ 32) :
    s.clock i =
      { s with
        bufferData := shiftIn s.bufferData i.dinBufferIn
        bufferFull := decide (s.countInWords = w - 1)
        countInWords := (s.countInWords + 1) % w } := by
  simp only [clock, hl, hm, hf, hv, Bool.false_and, Bool.false_eq_true, if_false, Bool.not_false,
    if_true, Bool.and_self]
  by_cases hlast : s.countInWords = w - 1
  · rw [if_pos hlast, decide_eq_true hlast, show s.countInWords + 1 = w by omega, Nat.mod_self]
  · rw [if_neg hlast, decide_eq_false hlast,
      Nat.mod_eq_of_lt (show s.countInWords + 1 < 32 by omega),
      Nat.mod_eq_of_lt (show s.countInWords + 1 < w by omega)]

/-- Input mode, nothing happens: no word is offered, or the buffer is full and the core busy. -/
theorem clock_hold (hm : s.mode = false) (hl : (i.lastBlock && i.ready) = false)
    (hf : (s.bufferFull && i.ready) = false) (hv : (i.dinBufferInValid && !s.bufferFull) = false) :
    s.clock i = s := by
  simp only [clock, hl, hm, hf, hv, Bool.false_eq_true, if_false, Bool.not_false, if_true]

/-- Input mode, `last_block` turns an empty buffer to output mode. -/
theorem clock_turn (hm : s.mode = false) (hl : (i.lastBlock && i.ready) = true)
    (hf : s.bufferFull = false) (hv : i.dinBufferInValid = false) :
    s.clock i = { s with mode := true } := by
  simp only [clock, hl, hm, hf, hv, if_true, Bool.not_false, Bool.false_and, Bool.false_eq_true,
    if_false]

theorem ite_mode_true (hm : s.mode = true) (b : Bool) :
    (if b then { s with mode := true } else s) = s := by
  cases b
  · rfl
  · rw [if_pos rfl, ← hm]

/-- Output mode, the first cycle takes the state's words; `last_block` does not matter. -/
theorem clock_load (hm : s.mode = true) (hc : s.countOutWords = 0) :
    s.clock i =
      { s with
        bufferData := loadOut s.bufferData i.doutBufferIn
        countOutWords := 1
        doutBufferOutValid := true } := by
  simp only [clock, ite_mode_true hm]
  simp only [hm, hc, Bool.not_true, Bool.false_eq_true, if_false, if_true]

/-- Output mode, the next word. -/
theorem clock_shift (hm : s.mode = true) (h0 : 0 < s.countOutWords) (hc : s.countOutWords < o) :
    s.clock i =
      { s with
        bufferData := shiftOut o s.bufferData
        countOutWords := s.countOutWords + 1
        doutBufferOutValid := true } := by
  simp only [clock, ite_mode_true hm]
  simp only [hm, Bool.not_true, Bool.false_eq_true, if_false, if_neg (Nat.ne_of_gt h0), if_pos hc]

/-- Output mode, after the last word the buffer returns to input mode. -/
theorem clock_finish (hm : s.mode = true) (h0 : 0 < s.countOutWords) (hc : o ≤ s.countOutWords) :
    s.clock i =
      { s with mode := false, countOutWords := 0, doutBufferOutValid := false } := by
  simp only [clock, ite_mode_true hm]
  simp only [hm, Bool.not_true, Bool.false_eq_true, if_false, if_neg (Nat.ne_of_gt h0),
    if_neg (Nat.not_lt.2 hc)]

end

/-- Words that have been shifted in. -/
theorem getD_foldl_shiftIn (b : Vector Lane w) (ws : List Lane) {k : Nat} (hk : k < w) :
    (ws.foldl shiftIn b).getD k 0 =
      if k + ws.length < w then b.getD (k + ws.length) 0 else ws.getD (k + ws.length - w) 0 := by
  induction ws generalizing b with
  | nil => rw [List.foldl_nil, List.length_nil, Nat.add_zero, if_pos hk]
  | cons d ws ih =>
    rw [List.foldl_cons, ih, List.length_cons]
    rcases Nat.lt_trichotomy (k + ws.length + 1) w with h | h | h
    · rw [if_pos (by omega), if_pos (by omega), shiftIn, Vec.getD_of_lt _ _ (by omega),
        Vector.getElem_ofFn, dif_pos h, Vec.getD_of_lt _ _ (by omega)]
      rfl
    · rw [if_pos (by omega), if_neg (by omega), shiftIn, Vec.getD_of_lt _ _ (by omega),
        Vector.getElem_ofFn, dif_neg (show ¬k + ws.length + 1 < w by omega),
        show k + (ws.length + 1) - w = 0 by omega]
      rfl
    · rw [if_neg (by omega), if_neg (by omega),
        show k + (ws.length + 1) - w = k + ws.length - w + 1 by omega, List.getD_cons_succ]

end Buffer

/-- The registers of the entity `keccak`, with its input buffer. -/
structure Core (w : Nat) where
  regData : KState
  counterNrRounds : Nat
  permutationComputed : Bool
  bufferIn : Buffer w
deriving DecidableEq

namespace Core

variable {w : Nat}

/-- `reg_data_vector`: the first lanes of the state. -/
def regDataVector (o : Nat) (regData : KState) : Vector Lane o :=
  .ofFn fun i => regData.lane (i / 5) (i % 5)

/-- `round_in`: the buffer is XORed into the first lanes of the state while `absorb`
(`din_buffer_full and permutation_computed`) holds; the other lanes are the capacity. -/
def roundIn (regData : KState) (dinBufferOut : Vector Lane w) (absorb : Bool) : KState :=
  .ofBits fun row col i =>
    if h : 5 * row + col < w then
      regData.bit row col i ^^ (dinBufferOut[5 * row + col].getLsbD i && absorb)
    else regData.bit row col i

/-- The branch `rst_n = '0'` of `p_main`, with the buffer's. -/
def reset : Core w where
  regData := .zero
  counterNrRounds := 0
  permutationComputed := true
  bufferIn := .reset

/-- The port `buffer_full`. -/
def bufferFull (s : Core w) : Bool := s.bufferIn.bufferFull

/-- The port `ready`. -/
def ready (s : Core w) : Bool := s.permutationComputed

/-- The port `dout`. -/
def dout (s : Core w) : Lane := s.bufferIn.doutBufferOut

/-- The port `dout_valid`. -/
def doutValid (s : Core w) : Bool := s.bufferIn.doutBufferOutValid

/-- The signal `round_out`. -/
def roundOut (s : Core w) : KState :=
  keccakRound
    (roundIn s.regData s.bufferIn.bufferData (s.bufferIn.bufferFull && s.permutationComputed))
    (keccakRoundConstantsGen s.counterNrRounds)

/-- The inputs that `keccak` drives on the ports of its buffer. -/
def toBuffer (o : Nat) (s : Core w) (i : KeccakIn) : BufferIn o where
  dinBufferIn := i.din
  dinBufferInValid := i.dinValid
  lastBlock := i.lastBlock
  doutBufferIn := regDataVector o s.regData
  ready := s.permutationComputed

/-- The rising edge of `p_main`, without the buffer's own process. -/
def clockMain (s : Core w) (i : KeccakIn) : Core w :=
  if i.start then
    { s with regData := .zero, counterNrRounds := 0, permutationComputed := true }
  else if s.bufferIn.bufferFull && s.permutationComputed then
    { s with regData := s.roundOut, counterNrRounds := 1, permutationComputed := false }
  else
    let n := if s.counterNrRounds < 24 ∧ !s.permutationComputed then
        { s with counterNrRounds := (s.counterNrRounds + 1) % 32, regData := s.roundOut }
      else s
    if s.counterNrRounds = 23 then { n with permutationComputed := true, counterNrRounds := 0 }
    else n

/-- The rising edge of the entity: both processes read the registers as they were before it. -/
def clock (o : Nat) (s : Core w) (i : KeccakIn) : Core w :=
  { s.clockMain i with bufferIn := s.bufferIn.clock (s.toBuffer o i) }

/-! ## What one edge can do to the state -/

section
variable {s : Core w} {i : KeccakIn}

/-- A start pulse clears the state and stops the permutation. -/
theorem clockMain_start (h : i.start = true) :
    s.clockMain i =
      { s with regData := .zero, counterNrRounds := 0, permutationComputed := true } := by
  simp only [clockMain, h, if_true]

/-- An idle core with a full buffer absorbs it and applies round 0. -/
theorem clockMain_absorb (h : i.start = false) (hf : s.bufferIn.bufferFull = true)
    (hc : s.permutationComputed = true) :
    s.clockMain i =
      { s with regData := s.roundOut, counterNrRounds := 1, permutationComputed := false } := by
  simp only [clockMain, h, hf, hc, Bool.false_eq_true, if_false, Bool.and_self, if_true]

/-- A running permutation applies the next round. -/
theorem clockMain_round (h : i.start = false) (hc : s.permutationComputed = false)
    (hr : s.counterNrRounds < 23) :
    s.clockMain i =
      { s with regData := s.roundOut, counterNrRounds := s.counterNrRounds + 1 } := by
  simp only [clockMain, h, hc, Bool.false_eq_true, if_false, Bool.and_false, Bool.not_false,
    and_true, if_pos (show s.counterNrRounds < 24 by omega), if_neg (Nat.ne_of_lt hr),
    Nat.mod_eq_of_lt (show s.counterNrRounds + 1 < 32 by omega)]

/-- Round 23 completes the permutation. -/
theorem clockMain_last (h : i.start = false) (hc : s.permutationComputed = false)
    (hr : s.counterNrRounds = 23) :
    s.clockMain i =
      { s with regData := s.roundOut, counterNrRounds := 0, permutationComputed := true } := by
  simp only [clockMain, h, hc, hr, Bool.false_eq_true, if_false, Bool.and_false, Bool.not_false,
    and_true, show 23 < 24 by decide, if_true]

/-- An idle core without a full buffer keeps its state. -/
theorem clockMain_idle (h : i.start = false) (hc : s.permutationComputed = true)
    (hf : s.bufferIn.bufferFull = false) (hr : s.counterNrRounds = 0) : s.clockMain i = s := by
  simp only [clockMain, h, hf, hc, hr, Bool.false_eq_true, if_false, Bool.false_and, Bool.not_true,
    and_false, show ¬0 = 23 by decide]

end

/-- Without `last_block` the buffer does not turn. -/
theorem noLast (s : Core w) (o : Nat) {i : KeccakIn} (h : i.lastBlock = false) :
    ((s.toBuffer o i).lastBlock && (s.toBuffer o i).ready) = false := by
  rw [show (s.toBuffer o i).lastBlock = i.lastBlock from rfl, h, Bool.false_and]

theorem roundIn_false (s : KState) (b : Vector Lane w) : roundIn s b false = s := by
  apply KState.ext_lane
  intro y hy x hx
  apply KState.lane_eq_of_bits
  intro i hi
  rw [roundIn, KState.bit_ofBits hy hx hi]
  split
  · rw [Bool.and_false, Bool.xor_false, KState.bit]
  · rw [KState.bit]

theorem roundIn_true (s : KState) (b : Vector Lane w) {y x : Nat} (hy : y < 5) (hx : x < 5) :
    (roundIn s b true).lane y x =
      s.lane y x ^^^ if 5 * y + x < w then b.getD (5 * y + x) 0 else 0 := by
  apply KState.lane_eq_of_bits
  intro i hi
  rw [roundIn, KState.bit_ofBits hy hx hi, BitVec.getLsbD_xor]
  split
  · next h => rw [Bool.and_true, Vec.getD_of_lt _ _ h, KState.bit]
  · rw [show (0 : Lane).getLsbD i = false from BitVec.getLsbD_zero, Bool.xor_false, KState.bit]

end Core

end HighSpeed

end ShakeAccel
