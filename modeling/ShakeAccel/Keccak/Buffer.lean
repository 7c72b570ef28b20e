import ShakeAccel.HighSpeed.Core

/-!
# The word buffer of the VHDL core (`keccak_buffer.vhd`)

One vector serves both directions: in input mode it collects 21 words of 64 bits for the core to
absorb, in output mode it takes the first 512 bits of the core's state and shifts them out. The
1344-bit signal `buffer_data` is only ever read and assigned in slices `63+64*i downto 64*i`, so
it is a vector of 21 lanes here. Widths apart this is the buffer of the high-speed core, and what an
edge can do is taken from there (`clock_eq`).
-/

namespace ShakeAccel

/-- The registers of `keccak_buffer`; `countOutWords` is the process variable. `mode` is `true` in
output mode. -/
structure KeccakBuffer where
  mode : Bool
  bufferFull : Bool
  countInWords : Nat
  bufferData : Vector Lane 21
  countOutWords : Nat
  doutBufferOutValid : Bool
deriving DecidableEq

/-- The input ports of `keccak_buffer`. -/
structure BufferIn where
  dinBufferIn : Lane
  dinBufferInValid : Bool
  lastBlock : Bool
  doutBufferIn : Vector Lane 8
  ready : Bool

/-- The ports as those of the buffer of the high-speed core. -/
def BufferIn.toHighSpeed (i : BufferIn) : HighSpeed.BufferIn 8 :=
  ⟨i.dinBufferIn, i.dinBufferInValid, i.lastBlock, i.doutBufferIn, i.ready⟩

namespace KeccakBuffer

/-- The branch `rst_n = '0'` of `p_main`. -/
def reset : KeccakBuffer where
  mode := false
  bufferFull := false
  countInWords := 0
  bufferData := .replicate 21 0
  countOutWords := 0
  doutBufferOutValid := false

/-- Shifts the buffer down by one word and inserts the new word on top. -/
def shiftIn (b : Vector Lane 21) (din : Lane) : Vector Lane 21 :=
  .ofFn fun i => if h : i.val < 20 then b[i.val + 1] else din

/-- `buffer_data(511 downto 0) <= dout_buffer_in`. -/
def loadOut (b : Vector Lane 21) (d : Vector Lane 8) : Vector Lane 21 :=
  .ofFn fun i => if h : i.val < 8 then d[i.val] else b[i.val]

/-- Shifts the low 512 bits down by one word; word 7 keeps its value. -/
def shiftOut (b : Vector Lane 21) : Vector Lane 21 :=
  .ofFn fun i => if h : i.val < 7 then b[i.val + 1] else b[i.val]

/-- The rising edge of `p_main`. Every condition reads the registers as they were before the edge;
a later assignment to a register overrides an earlier one. -/
def clock (s : KeccakBuffer) (i : BufferIn) : KeccakBuffer :=
  let n := if i.lastBlock && i.ready then { s with mode := true } else s
  if !s.mode then
    if s.bufferFull && i.ready then
      { n with bufferFull := false, countInWords := 0 }
    else if i.dinBufferInValid && !s.bufferFull then
      let n := { n with bufferData := shiftIn s.bufferData i.dinBufferIn }
      if s.countInWords = 20 then { n with bufferFull := true, countInWords := 0 }
      else { n with countInWords := (s.countInWords + 1) % 32 }
    else n
  else
    let n := { n with doutBufferOutValid := true }
    if s.countOutWords = 0 then
      { n with bufferData := loadOut s.bufferData i.doutBufferIn, countOutWords := 1 }
    else if s.countOutWords < 8 then
      { n with bufferData := shiftOut s.bufferData, countOutWords := s.countOutWords + 1 }
    else
      { n with doutBufferOutValid := false, countOutWords := 0, mode := false }

/-- The port `dout_buffer_out`. -/
def doutBufferOut (s : KeccakBuffer) : Lane := s.bufferData[0]

/-! ## What one edge can do -/

/-- The registers as those of the buffer of the high-speed core. -/
def toHighSpeed (s : KeccakBuffer) : HighSpeed.Buffer 21 :=
  ⟨s.mode, s.bufferFull, s.countInWords, s.bufferData, s.countOutWords, s.doutBufferOutValid⟩

theorem toHighSpeed_injective : Function.Injective toHighSpeed := by
  rintro ⟨m, f, n, d, k, v⟩ ⟨m', f', n', d', k', v'⟩ h
  cases h
  rfl

theorem shiftIn_eq (b : Vector Lane 21) (din : Lane) :
    HighSpeed.Buffer.shiftIn b din = shiftIn b din := by
  apply Vector.ext
  intro k hk
  rw [HighSpeed.Buffer.shiftIn, shiftIn, Vector.getElem_ofFn, Vector.getElem_ofFn]
  by_cases h : k < 20
  · rw [dif_pos (show k + 1 < 21 by omega), dif_pos h]
  · rw [dif_neg (show ¬k + 1 < 21 by omega), dif_neg h]

theorem shiftOut_eq (b : Vector Lane 21) : HighSpeed.Buffer.shiftOut 8 b = shiftOut b := by
  apply Vector.ext
  intro k hk
  rw [HighSpeed.Buffer.shiftOut, shiftOut, Vector.getElem_ofFn, Vector.getElem_ofFn]
  by_cases h : k < 7
  · rw [dif_pos (show k + 1 < 8 ∧ k + 1 < 21 by omega), dif_pos h]
  · rw [dif_neg (show ¬(k + 1 < 8 ∧ k + 1 < 21) by omega), dif_neg h]

theorem clock_toHighSpeed (s : KeccakBuffer) (i : BufferIn) :
    s.toHighSpeed.clock i.toHighSpeed = (s.clock i).toHighSpeed := by
  obtain ⟨m, f, n, d, k, v⟩ := s
  obtain ⟨w, hv, l, o, r⟩ := i
  simp only [HighSpeed.Buffer.clock, clock, toHighSpeed, BufferIn.toHighSpeed, shiftIn_eq,
    shiftOut_eq]
  -- whether the mode changes, then the branches of the mode
  cases l <;> cases r <;> cases m <;>
    simp only [Bool.and_true, Bool.and_false, Bool.not_true, Bool.not_false, Bool.false_eq_true,
      if_true, if_false] <;>
    split_ifs <;> rfl

section
variable {s s' : KeccakBuffer} {i : BufferIn}

/-- What an edge does to the buffer of the high-speed core it does to this one. -/
theorem clock_eq (h : s.toHighSpeed.clock i.toHighSpeed = s'.toHighSpeed) : s.clock i = s' :=
  toHighSpeed_injective ((clock_toHighSpeed s i).symm.trans h)

/-- Input mode, the core absorbs the full buffer. -/
theorem clock_absorb (hm : s.mode = false) (hl : (i.lastBlock && i.ready) = false)
    (hf : s.bufferFull = true) (hr : i.ready = true) :
    s.clock i = { s with bufferFull := false, countInWords := 0 } :=
  clock_eq (HighSpeed.Buffer.clock_absorb hm hl hf hr)

/-- Input mode, a word is accepted. -/
theorem clock_accept (hm : s.mode = false) (hl : (i.lastBlock && i.ready) = false)
    (hf : s.bufferFull = false) (hv : i.dinBufferInValid = true) (hc : s.countInWords ≤ 20) :
    s.clock i =
      { s with
        bufferData := shiftIn s.bufferData i.dinBufferIn
        bufferFull := decide (s.countInWords = 20)
        countInWords := (s.countInWords + 1) % 21 } := by
  have h := HighSpeed.Buffer.clock_accept (s := s.toHighSpeed) (i := i.toHighSpeed) hm hl hf hv
    (Nat.lt_succ_of_le hc) (by decide)
  rw [shiftIn_eq] at h
  exact clock_eq h

/-- Input mode, nothing happens: no word is offered, or the buffer is full and the core busy. -/
theorem clock_hold (hm : s.mode = false) (hl : (i.lastBlock && i.ready) = false)
    (hf : (s.bufferFull && i.ready) = false) (hv : (i.dinBufferInValid && !s.bufferFull) = false) :
    s.clock i = s :=
  clock_eq (HighSpeed.Buffer.clock_hold hm hl hf hv)

/-- Input mode, `last_block` turns an empty buffer to output mode. -/
theorem clock_turn (hm : s.mode = false) (hl : (i.lastBlock && i.ready) = true)
    (hf : s.bufferFull = false) (hv : i.dinBufferInValid = false) :
    s.clock i = { s with mode := true } :=
  clock_eq (HighSpeed.Buffer.clock_turn hm hl hf hv)

/-- Output mode, the first cycle loads the digest. -/
theorem clock_load (hm : s.mode = true) (hc : s.countOutWords = 0) :
    s.clock i =
      { s with
        bufferData := loadOut s.bufferData i.doutBufferIn
        countOutWords := 1
        doutBufferOutValid := true } :=
  clock_eq (HighSpeed.Buffer.clock_load hm hc)

/-- Output mode, the next seven cycles shift it. -/
theorem clock_shift (hm : s.mode = true) (hc : 0 < s.countOutWords) (h8 : s.countOutWords < 8) :
    s.clock i =
      { s with
        bufferData := shiftOut s.bufferData
        countOutWords := s.countOutWords + 1
        doutBufferOutValid := true } := by
  have h := HighSpeed.Buffer.clock_shift (s := s.toHighSpeed) (i := i.toHighSpeed) hm hc h8
  rw [shiftOut_eq] at h
  exact clock_eq h

/-- Output mode, the ninth cycle returns to input mode; `last_block` does not matter. -/
theorem clock_finish (hm : s.mode = true) (hc : 8 ≤ s.countOutWords) :
    s.clock i = { s with mode := false, countOutWords := 0, doutBufferOutValid := false } :=
  clock_eq (HighSpeed.Buffer.clock_finish hm (Nat.lt_of_lt_of_le (by decide) hc) hc)

/-- Input mode, the data changes only with an offered word. -/
theorem bufferData_clock (hm : s.mode = false) (hv : i.dinBufferInValid = false) :
    (s.clock i).bufferData = s.bufferData := by
  simp only [clock, hm, hv, Bool.not_false, if_true, Bool.false_and, Bool.false_eq_true, if_false]
  split <;> split <;> rfl

end

/-! ## The counters -/

/-- The buffer's counters agree with its flags. -/
structure WellCounted (b : KeccakBuffer) : Prop where
  countIn : b.countInWords ≤ 20
  countOut : b.countOutWords ≤ 8
  idle : b.mode = false → b.countOutWords = 0
  valid : b.doutBufferOutValid = decide (0 < b.countOutWords)

/-- What an edge makes of the data `d`. -/
def nextData (b : KeccakBuffer) (i : BufferIn) (d : Vector Lane 21) : Vector Lane 21 :=
  if !b.mode then
    if b.bufferFull && i.ready then d
    else if i.dinBufferInValid && !b.bufferFull then shiftIn d i.dinBufferIn
    else d
  else if b.countOutWords = 0 then loadOut d i.doutBufferIn
  else if b.countOutWords < 8 then shiftOut d
  else d

section
variable {b : KeccakBuffer}

/-- An edge in input mode: the word counter and the data, and whether the mode changes. -/
theorem clock_input (hm : b.mode = false) (i : BufferIn) :
    b.clock i =
      { b with
        mode := i.lastBlock && i.ready
        bufferFull :=
          if b.bufferFull && i.ready then false
          else if i.dinBufferInValid && !b.bufferFull then decide (b.countInWords = 20)
          else b.bufferFull
        countInWords :=
          if b.bufferFull && i.ready then 0
          else if i.dinBufferInValid && !b.bufferFull then
            if b.countInWords = 20 then 0 else (b.countInWords + 1) % 32
          else b.countInWords
        bufferData := b.nextData i b.bufferData } := by
  obtain ⟨mode, full, cin, data, cout, valid⟩ := b
  obtain rfl : mode = false := hm
  simp only [clock, nextData, Bool.not_false, if_true]
  cases full <;> cases i.ready <;> cases i.lastBlock <;> cases i.dinBufferInValid <;>
    by_cases h20 : cin = 20 <;> simp [h20]

/-- It keeps the readout counter and the word counter's range. -/
theorem clock_input_keeps (hm : b.mode = false) (hc : b.countInWords ≤ 20) (i : BufferIn) :
    (b.clock i).countInWords ≤ 20 ∧ (b.clock i).countOutWords = b.countOutWords ∧
      (b.clock i).doutBufferOutValid = b.doutBufferOutValid := by
  rw [clock_input hm]
  refine ⟨?_, rfl, rfl⟩
  simp only
  repeat' split
  all_goals omega

theorem WellCounted.clock (h : WellCounted b) (i : BufferIn) : WellCounted (b.clock i) := by
  have hin := h.countIn
  cases hm : b.mode with
  | false =>
    obtain ⟨hcin, hcout, hvalid⟩ := clock_input_keeps hm hin i
    exact ⟨hcin, hcout ▸ h.countOut, fun _ => hcout.trans (h.idle hm), by
      rw [hvalid, hcout, h.valid]⟩
  | true =>
    by_cases h0 : b.countOutWords = 0
    · rw [clock_load hm h0]
      exact ⟨hin, (by decide : 1 ≤ 8), fun h => absurd (hm.symm.trans h) (by decide), rfl⟩
    · by_cases h8 : b.countOutWords < 8
      · rw [clock_shift hm (by omega) h8]
        exact ⟨hin, h8, fun h => absurd (hm.symm.trans h) (by decide), by simp⟩
      · rw [clock_finish hm (by omega)]
        exact ⟨hin, Nat.zero_le 8, fun _ => rfl, rfl⟩

/-- Output mode leaves the input side of the buffer alone. -/
theorem clock_output_keeps (hm : b.mode = true) (i : BufferIn) :
    (b.clock i).bufferFull = b.bufferFull ∧ (b.clock i).countInWords = b.countInWords := by
  by_cases h0 : b.countOutWords = 0
  · rw [clock_load hm h0]
    exact ⟨rfl, rfl⟩
  · by_cases h8 : b.countOutWords < 8
    · rw [clock_shift hm (by omega) h8]
      exact ⟨rfl, rfl⟩
    · rw [clock_finish hm (by omega)]
      exact ⟨rfl, rfl⟩

/-- The word counter is back at 0 when the buffer is full. -/
theorem clock_full (h : b.bufferFull = true → b.countInWords = 0) (i : BufferIn) :
    (b.clock i).bufferFull = true → (b.clock i).countInWords = 0 := by
  intro hf
  cases hm : b.mode with
  | true =>
    obtain ⟨hfull, hcount⟩ := clock_output_keeps hm i
    rw [hcount]
    exact h (hfull.symm.trans hf)
  | false =>
    rw [clock_input hm] at hf ⊢
    simp only at hf ⊢
    by_cases hr : (b.bufferFull && i.ready) = true
    · exact if_pos hr
    · rw [if_neg hr] at hf ⊢
      by_cases hv : (i.dinBufferInValid && !b.bufferFull) = true
      · rw [if_pos hv] at hf ⊢
        exact if_pos (of_decide_eq_true hf)
      · rw [if_neg hv] at hf ⊢
        exact h hf

end

theorem toList_shiftIn (b : Vector Lane 21) (din : Lane) :
    (shiftIn b din).toList = b.toList.drop 1 ++ [din] := by
  apply List.ext_getElem
  · simp
  · intro k h1 h2
    simp only [Vector.length_toList] at h1
    simp only [shiftIn, Vector.getElem_toList, Vector.getElem_ofFn]
    split
    next h =>
      rw [List.getElem_append_left (by simp; omega), List.getElem_drop, Vector.getElem_toList]
      simp only [Nat.add_comm 1 k]
    next h =>
      rw [List.getElem_append_right (by simp; omega)]
      simp

end KeccakBuffer

end ShakeAccel
