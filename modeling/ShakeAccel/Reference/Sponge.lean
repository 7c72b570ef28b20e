import Mathlib.Algebra.GroupWithZero.Nat
import ShakeAccel.Reference.Bytes

/-!
# The reference sponge (`KeccakSponge.c`)

A sponge object with a queue of bits. `Absorb` takes a message of any number of bits, in any number
of calls of which only the last may end within a byte; `Squeeze` pads, switches the phase and hands
out bytes. Both return 0, or 1 for a call they refuse. The loops take their fuel as an argument: a
call that runs out of every fuel never returns. A copy that would leave the queue is undefined
behaviour and has no result either.
-/

namespace ShakeAccel.Reference

/-- `spongeState`. -/
structure SpongeState where
  state : ByteState
  /-- `KeccakMaximumRateInBytes` bytes. -/
  dataQueue : Vector Byte 192
  rate : Nat
  capacity : Nat
  bitsInQueue : Nat
  fixedOutputLength : Nat
  squeezing : Bool
  bitsAvailableForSqueezing : Nat

/-- `InitSponge`: the value it returns and the object after. -/
def initSponge (state : SpongeState) (rate capacity : Nat) : Nat × SpongeState :=
  if (rate + capacity) % 2 ^ 32 ≠ 1600 then (1, state)
  else if rate ≤ 0 ∨ rate ≥ 1600 ∨ rate % 64 ≠ 0 then (1, state)
  else
    (0, { state := keccakInitializeState, dataQueue := memzero state.dataQueue 0 192, rate,
          capacity, bitsInQueue := 0, fixedOutputLength := 0, squeezing := false,
          bitsAvailableForSqueezing := 0 })

/-- Absorbing one block: the functions for the rates of `KeccakF-1600-int-set.h`, and `KeccakAbsorb`
for every other rate. -/
def absorbBlock (rate : Nat) (state : ByteState) (data : Ptr) : ByteState :=
  if rate = 576 then keccakAbsorb576bits state data
  else if rate = 832 then keccakAbsorb832bits state data
  else if rate = 1024 then keccakAbsorb1024bits state data
  else if rate = 1088 then keccakAbsorb1088bits state data
  else if rate = 1152 then keccakAbsorb1152bits state data
  else if rate = 1344 then keccakAbsorb1344bits state data
  else keccakAbsorb state data (rate / 64)

/-- `AbsorbQueue`. -/
def absorbQueue (st : SpongeState) : SpongeState :=
  { st with state := absorbBlock st.rate st.state (ptr st.dataQueue), bitsInQueue := 0 }

/-- The copy of whole bytes at the beginning of the queueing branch of `Absorb`, and `AbsorbQueue`
when they fill the queue. -/
def absorbBytes (st : SpongeState) (data : Ptr) (partialBlock : Nat) : SpongeState :=
  let st := { st with
    dataQueue := memcpy st.dataQueue (st.bitsInQueue / 8) data (partialBlock / 8)
    bitsInQueue := st.bitsInQueue + partialBlock }
  if st.bitsInQueue = st.rate then absorbQueue st else st

/-- The partial byte at the end of the queueing branch of `Absorb`. -/
def absorbPartialByte (st : SpongeState) (last : Byte) (partialByte : Nat) : SpongeState :=
  let mask : Byte := ((1 : Byte) <<< partialByte) - 1
  { st with
    dataQueue := st.dataQueue.setIfInBounds (st.bitsInQueue / 8) (last &&& mask)
    bitsInQueue := st.bitsInQueue + partialByte }

/-- One iteration of the loop of `Absorb`, from bit `i` of the data on. `partialBlock` is an
`unsigned int`, so the number of bits left is truncated to 32 bits. -/
def absorbStep (data : Ptr) (databitlen : Nat) (st : SpongeState) (i : Nat) :
    Option (SpongeState × Nat) :=
  if st.bitsInQueue = 0 ∧ databitlen ≥ st.rate ∧ i ≤ databitlen - st.rate then
    let wholeBlocks := (databitlen - i) / st.rate
    let curData : Ptr := fun k => data (i / 8 + k)
    let state := (List.range wholeBlocks).foldl (fun s j =>
      absorbBlock st.rate s fun k => curData (j * (st.rate / 8) + k)) st.state
    some ({ st with state }, i + wholeBlocks * st.rate)
  else
    let left := (databitlen - i) % 2 ^ 32
    let left :=
      if (left + st.bitsInQueue) % 2 ^ 32 > st.rate then st.rate - st.bitsInQueue else left
    let partialByte := left % 8
    let partialBlock := left - partialByte
    if st.bitsInQueue / 8 + partialBlock / 8 > 192 then none
    else
      let st := absorbBytes st (fun k => data (i / 8 + k)) partialBlock
      let i := i + partialBlock
      if partialByte > 0 then
        some (absorbPartialByte st (data (i / 8)) partialByte, i + partialByte)
      else some (st, i)

/-- The loop of `Absorb`. -/
def absorbLoop (data : Ptr) (databitlen : Nat) : (fuel : Nat) → SpongeState → Nat →
    Option SpongeState
  | 0, _, _ => none
  | fuel + 1, st, i =>
    if i < databitlen then
      match absorbStep data databitlen st i with
      | some (st, i) => absorbLoop data databitlen fuel st i
      | none => none
    else some st

/-- `Absorb`: the value it returns and the object after. -/
def absorb (fuel : Nat) (st : SpongeState) (data : Ptr) (databitlen : Nat) :
    Option (Nat × SpongeState) :=
  if st.bitsInQueue % 8 ≠ 0 then some (1, st)
  else if st.squeezing then some (1, st)
  else (absorbLoop data databitlen fuel st 0).map fun st => (0, st)

/-- The extraction of a block into the queue. -/
def extractBlock (st : SpongeState) : SpongeState :=
  if st.rate = 1024 then
    { st with
      dataQueue := keccakExtract1024bits st.state st.dataQueue
      bitsAvailableForSqueezing := 1024 }
  else
    { st with
      dataQueue := keccakExtract st.state st.dataQueue (st.rate / 64)
      bitsAvailableForSqueezing := st.rate }

/-- `PadAndSwitchToSqueezingPhase`. -/
def padAndSwitchToSqueezingPhase (st : SpongeState) : SpongeState :=
  let st :=
    if st.bitsInQueue + 1 = st.rate then
      let st := absorbQueue { st with dataQueue := setBit st.dataQueue st.bitsInQueue }
      { st with dataQueue := memzero st.dataQueue 0 (st.rate / 8) }
    else
      let first := (st.bitsInQueue + 7) / 8
      { st with
        dataQueue :=
          setBit (memzero st.dataQueue first (st.rate / 8 - first)) st.bitsInQueue }
  let st := absorbQueue { st with dataQueue := setBit st.dataQueue (st.rate - 1) }
  { extractBlock st with squeezing := true }

/-- The loop of `Squeeze`: the bytes it writes, and the object after. -/
def squeezeLoop (outputLength : Nat) : (fuel : Nat) → SpongeState → Nat →
    Option (List Byte × SpongeState)
  | 0, _, _ => none
  | fuel + 1, st, i =>
    if i < outputLength then
      let st :=
        if st.bitsAvailableForSqueezing = 0 then
          extractBlock { st with state := keccakPermutation st.state }
        else st
      let partialBlock :=
        if st.bitsAvailableForSqueezing > outputLength - i then outputLength - i
        else st.bitsAvailableForSqueezing
      let src := (st.rate - st.bitsAvailableForSqueezing) / 8
      let out := (List.range (partialBlock / 8)).map fun k => ptr st.dataQueue (src + k)
      let st := { st with
        bitsAvailableForSqueezing := st.bitsAvailableForSqueezing - partialBlock }
      (squeezeLoop outputLength fuel st (i + partialBlock)).map fun r => (out ++ r.1, r.2)
    else some ([], st)

/-- `Squeeze`: the value it returns, the bytes it writes and the object after. -/
def squeeze (fuel : Nat) (st : SpongeState) (outputLength : Nat) :
    Option (Nat × List Byte × SpongeState) :=
  let st := if st.squeezing then st else padAndSwitchToSqueezingPhase st
  if outputLength % 8 ≠ 0 then some (1, [], st)
  else (squeezeLoop outputLength fuel st 0).map fun r => (0, r)

/-! ## Rates -/

/-- A rate that `InitSponge` accepts. -/
structure SpongeRate where
  bits : Nat
  pos : 0 < bits
  lt : bits < 1600
  lanes : bits % 64 = 0

namespace SpongeRate

variable (r : SpongeRate)

theorem le_max : r.bits ≤ 1536 := by
  have := r.lt
  have := r.lanes
  omega

theorem ge_min : 64 ≤ r.bits := by
  have := r.pos
  have := r.lanes
  omega

theorem mod_eight : r.bits % 8 = 0 := by
  have := r.lanes
  omega

end SpongeRate

/-- `InitSponge` accepts exactly the rates of `SpongeRate` with the capacity that is left. -/
theorem initSponge_accepts {rate capacity : Nat} (hr : rate < 2 ^ 32) (hc : capacity < 2 ^ 32)
    (st : SpongeState) :
    (initSponge st rate capacity).1 = 0 ↔
      capacity = 1600 - rate ∧ 0 < rate ∧ rate < 1600 ∧ rate % 64 = 0 := by
  unfold initSponge
  split
  · simp only [Nat.one_ne_zero, false_iff]
    omega
  · split
    · simp only [Nat.one_ne_zero, false_iff]
      omega
    · simp only [true_iff]
      omega

end ShakeAccel.Reference
