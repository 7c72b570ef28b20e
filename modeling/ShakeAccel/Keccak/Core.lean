import ShakeAccel.Keccak.Buffer

/-!
# The VHDL core (`keccak.vhd`)

One round per clock cycle. A full buffer is XORed into the rate part of the state in the cycle in
which the permutation is idle, together with round 0; the rounds 1 to 23 follow on their own.
-/

namespace ShakeAccel

/-- The registers of the entity `keccak`, with its input buffer. -/
structure Keccak where
  regData : KState
  counterNrRounds : Nat
  permutationComputed : Bool
  bufferIn : KeccakBuffer
deriving DecidableEq

namespace Keccak

/-- `reg_data_vector`: the lanes of row 0 and the first three of row 1. -/
def regDataVector (regData : KState) : Vector Lane 8 :=
  .ofFn fun i => if i.val < 5 then regData.lane 0 i else regData.lane 1 (i - 5)

/-- `round_in`: the buffer is XORed into the rows 0 to 3 and into lane `(4)(0)` while `absorb`
(`din_buffer_full and permutation_computed`) holds; the other lanes of row 4 are the capacity. -/
def roundIn (regData : KState) (dinBufferOut : Vector Lane 21) (absorb : Bool) : KState :=
  .ofBits fun row col i =>
    if h : 5 * row + col < 21 then
      regData.bit row col i ^^ (dinBufferOut[5 * row + col].getLsbD i && absorb)
    else regData.bit row col i

/-- The branch `rst_n = '0'` of `p_main`, with the buffer's. -/
def reset : Keccak where
  regData := .zero
  counterNrRounds := 0
  permutationComputed := true
  bufferIn := .reset

/-- The port `buffer_full`. -/
def bufferFull (s : Keccak) : Bool := s.bufferIn.bufferFull

/-- The port `ready`. -/
def ready (s : Keccak) : Bool := s.permutationComputed

/-- The port `dout`. -/
def dout (s : Keccak) : Lane := s.bufferIn.doutBufferOut

/-- The port `dout_valid`. -/
def doutValid (s : Keccak) : Bool := s.bufferIn.doutBufferOutValid

/-- The signal `round_out`. -/
def roundOut (s : Keccak) : KState :=
  keccakRound
    (roundIn s.regData s.bufferIn.bufferData (s.bufferIn.bufferFull && s.permutationComputed))
    (keccakRoundConstantsGen s.counterNrRounds)

/-- The inputs that `keccak` drives on the ports of its buffer. -/
def toBuffer (s : Keccak) (i : KeccakIn) : BufferIn where
  dinBufferIn := i.din
  dinBufferInValid := i.dinValid
  lastBlock := i.lastBlock
  doutBufferIn := regDataVector s.regData
  ready := s.permutationComputed

/-- The rising edge of `p_main`, without the buffer's own process. -/
def clockMain (s : Keccak) (i : KeccakIn) : Keccak :=
  if i.start then
    { s with regData := .zero, counterNrRounds := 0, permutationComputed := true }
  else if s.bufferIn.bufferFull && s.permutationComputed then
    { s with regData := s.roundOut, counterNrRounds := 1, permutationComputed := false }
  else
    let n := if s.counterNrRounds < 24 ∧ !s.permutationComputed then
        { s with counterNrRounds := (s.counterNrRounds + 1) % 32, regData := s.roundOut }
      else s
    if s.counterNrRounds = 23 then { n with permutationComputed := true, counterNrRounds := 0 }
    else n

/-- The rising edge of the entity: both processes read the registers as they were before it. -/
def clock (s : Keccak) (i : KeccakIn) : Keccak :=
  { s.clockMain i with bufferIn := s.bufferIn.clock (s.toBuffer i) }

/-- The word that the core accepts in a cycle: one that is offered while the buffer is in input
mode and not full. -/
def accepted (s : Keccak) (i : KeccakIn) : Option Lane :=
  if i.dinValid && !s.bufferFull && !s.bufferIn.mode then some i.din else none

/-! ## What one edge can do -/

/-- The registers as those of the high-speed core, whose process this is. -/
def toHighSpeed (s : Keccak) : HighSpeed.Core 21 :=
  ⟨s.regData, s.counterNrRounds, s.permutationComputed, s.bufferIn.toHighSpeed⟩

theorem toHighSpeed_injective : Function.Injective toHighSpeed := by
  rintro ⟨r, n, c, b⟩ ⟨r', n', c', b'⟩ h
  obtain rfl : b = b' := KeccakBuffer.toHighSpeed_injective (congrArg HighSpeed.Core.bufferIn h)
  cases h
  rfl

theorem clockMain_toHighSpeed (s : Keccak) (i : KeccakIn) :
    s.toHighSpeed.clockMain i = (s.clockMain i).toHighSpeed := by
  have hround : s.toHighSpeed.roundOut = s.roundOut := rfl
  have hcounter : s.toHighSpeed.counterNrRounds = s.counterNrRounds := rfl
  have hcomputed : s.toHighSpeed.permutationComputed = s.permutationComputed := rfl
  have hfull : s.toHighSpeed.bufferIn.bufferFull = s.bufferIn.bufferFull := rfl
  rw [HighSpeed.Core.clockMain, clockMain, hround, hcounter, hcomputed, hfull]
  cases i.start with
  | true => rfl
  | false =>
    rw [if_neg Bool.false_ne_true, if_neg Bool.false_ne_true]
    by_cases habs : (s.bufferIn.bufferFull && s.permutationComputed) = true
    · rw [if_pos habs, if_pos habs]
      rfl
    · rw [if_neg habs, if_neg habs]
      by_cases hlast : s.counterNrRounds = 23
      · rw [if_pos hlast, if_pos hlast]
        split <;> rfl
      · rw [if_neg hlast, if_neg hlast]
        split <;> rfl

section
variable {s s' : Keccak} {i : KeccakIn}

/-- What an edge does to the high-speed core it does to this one. -/
theorem clockMain_eq (h : s.toHighSpeed.clockMain i = s'.toHighSpeed) : s.clockMain i = s' :=
  toHighSpeed_injective ((clockMain_toHighSpeed s i).symm.trans h)

/-- A start pulse clears the state and stops the permutation. -/
theorem clockMain_start (h : i.start = true) :
    s.clockMain i =
      { s with regData := .zero, counterNrRounds := 0, permutationComputed := true } :=
  clockMain_eq (HighSpeed.Core.clockMain_start h)

/-- An idle core with a full buffer absorbs it and applies round 0. -/
theorem clockMain_absorb (h : i.start = false) (hf : s.bufferIn.bufferFull = true)
    (hc : s.permutationComputed = true) :
    s.clockMain i =
      { s with regData := s.roundOut, counterNrRounds := 1, permutationComputed := false } :=
  clockMain_eq (HighSpeed.Core.clockMain_absorb h hf hc)

/-- A running permutation applies the next round. -/
theorem clockMain_round (h : i.start = false) (hc : s.permutationComputed = false)
    (hr : s.counterNrRounds < 23) :
    s.clockMain i =
      { s with regData := s.roundOut, counterNrRounds := s.counterNrRounds + 1 } :=
  clockMain_eq (HighSpeed.Core.clockMain_round h hc hr)

/-- Round 23 completes the permutation. -/
theorem clockMain_last (h : i.start = false) (hc : s.permutationComputed = false)
    (hr : s.counterNrRounds = 23) :
    s.clockMain i =
      { s with regData := s.roundOut, counterNrRounds := 0, permutationComputed := true } :=
  clockMain_eq (HighSpeed.Core.clockMain_last h hc hr)

/-- An idle core without a full buffer keeps its state. -/
theorem clockMain_idle (h : i.start = false) (hc : s.permutationComputed = true)
    (hf : s.bufferIn.bufferFull = false) (hr : s.counterNrRounds = 0) : s.clockMain i = s :=
  clockMain_eq (HighSpeed.Core.clockMain_idle h hc hf hr)

end

/-- The reset state is kept while nothing is offered, whether or not a start pulse comes. -/
theorem clock_reset {i : KeccakIn} (hv : i.dinValid = false) (hl : i.lastBlock = false) :
    reset.clock i = reset := by
  have hbuf : KeccakBuffer.reset.clock (reset.toBuffer i) = KeccakBuffer.reset :=
    KeccakBuffer.clock_hold rfl
      (by rw [show (reset.toBuffer i).lastBlock = i.lastBlock from rfl, hl]; rfl) rfl
      (by rw [show (reset.toBuffer i).dinBufferInValid = i.dinValid from rfl, hv]; rfl)
  rw [Keccak.clock, show reset.bufferIn = KeccakBuffer.reset from rfl, hbuf]
  cases hs : i.start with
  | true => rw [clockMain_start hs]; rfl
  | false => rw [clockMain_idle hs rfl rfl rfl]; rfl

end Keccak

end ShakeAccel
