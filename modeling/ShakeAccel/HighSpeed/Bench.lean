import ShakeAccel.HighSpeed.Core
import ShakeAccel.Keccak.Stream
import ShakeAccel.MidRange.Bench

/-!
# The testbench of the high-speed core (`tb_keccak.vhd` of `high_speed_core`)

The testbench reads the file that the testbench of the mid-range core reads. It offers the words of
a block one cycle each, the last one twice, and waits until the core has taken the buffer; a block
is loaded while the one before it is permuted. A signal that the reset leaves undefined is not
`'1'`.
-/

namespace ShakeAccel.HighSpeed

open MidRange (Line)
open MidRange.Bench (linesOf inputOf hashLines)

/-- `st_type`. -/
inductive BenchSt where
  | INIT | readFirstInput | st0 | st1 | END_HASH1 | END_HASH2 | STOP
deriving DecidableEq, Repr

/-- The registers and variables of `p_main`, the core and the lines of the two files: those that are
still to be read, those that are written. -/
structure Bench where
  st : BenchSt
  counter : Nat
  start : Bool
  din : Lane
  dinVal : Bool
  lastBlock : Bool
  core : Core 16
  filein : List Line
  fileout : List Line
deriving DecidableEq

namespace Bench

/-- The state that the reset leaves, for a file that is to be read: every register of the core has a
reset value. -/
def reset (filein : List Line) : Bench where
  st := .INIT
  counter := 0
  start := false
  din := 0
  dinVal := false
  lastBlock := false
  core := .reset
  filein
  fileout := []

/-- What the testbench drives on the ports of the core. -/
def toCore (b : Bench) : KeccakIn := ⟨b.start, b.din, b.dinVal, b.lastBlock⟩

/-- A rising edge. A line that is not there or not of the kind that is read ends the simulation with
an error. -/
def step (b : Bench) : Option Bench :=
  let b' := { b with core := b.core.clock 4 b.toCore }
  match b.st with
  | .INIT =>
    match b.filein with
    | .number _ :: rest =>
      some { b' with st := .readFirstInput, start := true, dinVal := false, filein := rest }
    | _ => none
  | .readFirstInput =>
    let b' := { b' with start := false }
    match b.filein with
    | .dot :: rest => some { b' with st := .STOP, filein := rest }
    | .dash :: rest => some { b' with st := .END_HASH1, filein := rest }
    | .word temp :: rest =>
      some { b' with dinVal := true, din := temp, st := .st0, counter := 0, filein := rest }
    | _ => none
  | .st0 =>
    if b.counter < 16 then
      if b.counter < 15 then
        match b.filein with
        | .word temp :: rest =>
          some { b' with din := temp, counter := b.counter + 1, dinVal := true, filein := rest }
        | _ => none
      else some { b' with counter := b.counter + 1, dinVal := true }
    else some { b' with st := .st1, dinVal := false }
  | .st1 => if b.core.bufferFull then some b' else some { b' with st := .readFirstInput }
  | .END_HASH1 =>
    if !b.core.ready then some b'
    else some { b' with lastBlock := true, st := .END_HASH2, counter := 0 }
  | .END_HASH2 =>
    let b' := { b' with lastBlock := false }
    if b.core.doutValid then
      if b.counter < 3 then
        some { b' with fileout := b.fileout ++ [.word b.core.dout], counter := b.counter + 1 }
      else
        some { b' with st := .readFirstInput, start := true,
                       fileout := b.fileout ++ [.word b.core.dout, .dash] }
    else some b'
  | .STOP => some b'

/-! ## The core under the testbench -/

/-- The core has `n` rounds of a permutation to go, after which it rests on `A`. -/
def Due (A : State) (n : Nat) (c : Core 16) : Prop :=
  if n = 0 then c.permutationComputed = true ∧ c.counterNrRounds = 0 ∧ c.regData.toWords = A
  else n < 24 ∧ c.permutationComputed = false ∧ c.counterNrRounds = 24 - n ∧
    ∃ X, c.regData = applyRounds (24 - n) X ∧ (permute24 X).toWords = A

/-- A buffer in input mode that holds `k` words of a block. -/
def Collecting (k : Nat) (q : Buffer 16) : Prop :=
  q.mode = false ∧ q.bufferFull = false ∧ q.countInWords = k ∧ q.countOutWords = 0 ∧
    q.doutBufferOutValid = false

/-- A buffer in input mode that holds the block `ws`. -/
def Full (ws : List Lane) (q : Buffer 16) : Prop :=
  q.mode = false ∧ q.bufferFull = true ∧ q.countOutWords = 0 ∧ q.doutBufferOutValid = false ∧
    ∀ k < 16, q.bufferData.getD k 0 = ws.getD k 0

section
variable {A : State} {n : Nat} {c : Core 16} {i : KeccakIn}

/-- A start pulse. -/
theorem due_of_start (h : i.start = true) : Due (.replicate 25 0) 0 (c.clock 4 i) := by
  rw [Due, if_pos rfl, Core.clock, Core.clockMain_start h]
  exact ⟨rfl, rfl, zero_toWords⟩

/-- A round, or nothing for a core at rest that no block waits for. -/
theorem Due.step (h : Due A n c) (hs : i.start = false)
    (hf : n = 0 → c.bufferIn.bufferFull = false) : Due A (n - 1) (c.clock 4 i) := by
  rw [Due] at h
  split at h
  · next h0 =>
    obtain ⟨hc, hr, hA⟩ := h
    rw [Due, if_pos (by omega), Core.clock, Core.clockMain_idle hs hc (hf h0) hr]
    exact ⟨hc, hr, hA⟩
  · next h0 =>
    obtain ⟨hn, hc, hr, X, hX, hA⟩ := h
    have hround : c.roundOut = applyRounds (24 - n + 1) X := by
      rw [Core.roundOut, hc, Bool.and_false, Core.roundIn_false, hX, hr, applyRounds_succ]
    by_cases h1 : n = 1
    · rw [Due, if_pos (by omega), Core.clock, Core.clockMain_last hs hc (by omega)]
      refine ⟨rfl, rfl, ?_⟩
      rw [hround, h1, ← hA]
      rfl
    · rw [Due, if_neg (by omega), Core.clock, Core.clockMain_round hs hc (by omega)]
      refine ⟨by omega, hc, show c.counterNrRounds + 1 = 24 - (n - 1) by omega, X, ?_, hA⟩
      rw [hround, show 24 - n + 1 = 24 - (n - 1) by omega]

/-- The core takes a block. -/
theorem Due.absorb (h : Due A 0 c) (hs : i.start = false) {ws : List Lane}
    (hq : Full ws c.bufferIn) :
    Due (keccakF1600StatePermute (MidRange.Bench.xorBlock A ws)) 23 (c.clock 4 i) := by
  rw [Due, if_pos rfl] at h
  obtain ⟨hc, hr, hA⟩ := h
  obtain ⟨-, hfull, -, -, hws⟩ := hq
  have hwords : (Core.roundIn c.regData c.bufferIn.bufferData true).toWords =
      MidRange.Bench.xorBlock A ws := by
    apply Vec.ext_getD 0
    intro k hk
    have hy : k / 5 < 5 := by omega
    have hx := Nat.mod_lt k (show 0 < 5 by decide)
    rw [MidRange.Bench.getD_xorBlock _ _ hk, ← hA, Vec.getD_of_lt _ _ hk, Vec.getD_of_lt _ _ hk,
      KState.getElem_toWords _ hk, KState.getElem_toWords _ hk, Core.roundIn_true _ _ hy hx,
      Nat.div_add_mod]
    congr 1
    split
    · next h => exact hws k h
    · rfl
  rw [Due, if_neg (by decide), Core.clock, Core.clockMain_absorb hs hfull hc]
  refine ⟨by decide, rfl, rfl, Core.roundIn c.regData c.bufferIn.bufferData true, ?_, ?_⟩
  · rw [Core.roundOut, hfull, hc, hr]
    rfl
  · rw [permute24_toWords, hwords]

theorem Due.ready (h : Due A n c) : c.permutationComputed = decide (n = 0) := by
  rw [Due] at h
  split at h
  · next h0 => rw [h.1, decide_eq_true h0]
  · next h0 => rw [h.2.1, decide_eq_false h0]

/-- A core at rest takes the block in its buffer. -/
theorem Due.take (h : Due A 0 c) (hs : i.start = false) (hl : i.lastBlock = false) {ws : List Lane}
    (hq : Full ws c.bufferIn) :
    Due (keccakF1600StatePermute (MidRange.Bench.xorBlock A ws)) 23 (c.clock 4 i) ∧
      Collecting 0 (c.clock 4 i).bufferIn := by
  refine ⟨h.absorb hs hq, ?_⟩
  obtain ⟨hm, hf, hout, hv, -⟩ := hq
  have hclock : c.bufferIn.clock (c.toBuffer 4 i) = _ := Buffer.clock_absorb hm (c.noLast 4 hl) hf
    h.ready
  rw [Core.clock, hclock]
  exact ⟨hm, rfl, rfl, hout, hv⟩

/-- A core in a permutation leaves the block in its buffer, whatever `din_valid` is. -/
theorem Due.keep (h : Due A (n + 1) c) (hs : i.start = false) (hl : i.lastBlock = false)
    {ws : List Lane} (hq : Full ws c.bufferIn) :
    Due A n (c.clock 4 i) ∧ Full ws (c.clock 4 i).bufferIn := by
  refine ⟨h.step hs fun h0 => absurd h0 (Nat.succ_ne_zero n), ?_⟩
  obtain ⟨hm, hf, hout, hv, hws⟩ := hq
  have hready : (c.toBuffer 4 i).ready = false := h.ready
  have hclock : c.bufferIn.clock (c.toBuffer 4 i) = _ := Buffer.clock_hold hm (c.noLast 4 hl)
    (by rw [hready, Bool.and_false]) (by rw [hf, Bool.not_true, Bool.and_false])
  rw [Core.clock, hclock]
  exact ⟨hm, hf, hout, hv, hws⟩

/-- An empty buffer stays empty. -/
theorem Collecting.hold {k : Nat} (h : Collecting k c.bufferIn) (hl : i.lastBlock = false)
    (hv : i.dinValid = false) : Collecting k (c.clock 4 i).bufferIn := by
  have hclock : c.bufferIn.clock (c.toBuffer 4 i) = _ := Buffer.clock_hold h.1 (c.noLast 4 hl)
    (by rw [h.2.1, Bool.false_and])
    (by rw [show (c.toBuffer 4 i).dinBufferInValid = i.dinValid from rfl, hv, Bool.false_and])
  rw [Core.clock, hclock]
  exact h

end

/-- The testbench is about to read the first line of a block or of the end of a message; in the
cycle of that line the core gets to the last `n` rounds before it rests on `A`. -/
structure Between (A : State) (n : Nat) (b : Bench) : Prop where
  st : b.st = .readFirstInput
  dinVal : b.dinVal = false
  lastBlock : b.lastBlock = false
  buffer : Collecting 0 b.core.bufferIn
  due : Due A n (b.core.clock 4 b.toCore)

/-- The testbench has `15 - b.counter` words of a block to read. -/
structure Loading (A : State) (n : Nat) (b : Bench) : Prop where
  st : b.st = .st0
  start : b.start = false
  dinVal : b.dinVal = true
  lastBlock : b.lastBlock = false
  buffer : Collecting b.counter b.core.bufferIn
  due : Due A n b.core

/-- The core takes a word of a block. -/
theorem Loading.buffer_step {A : State} {n : Nat} {b : Bench} (h : Loading A n b)
    (hc : b.counter ≤ 15) :
    (b.core.clock 4 b.toCore).bufferIn = { b.core.bufferIn with
      bufferData := Buffer.shiftIn b.core.bufferIn.bufferData b.din
      bufferFull := decide (b.counter = 15)
      countInWords := if b.counter = 15 then 0 else b.counter + 1 } := by
  obtain ⟨hm, hf, hn, -, -⟩ := h.buffer
  have hclock := Buffer.clock_accept (i := b.core.toBuffer 4 b.toCore) hm
    (b.core.noLast 4 h.lastBlock) hf h.dinVal (by omega) (by decide)
  rw [hn] at hclock
  rw [Core.clock]
  refine hclock.trans ?_
  congr 1
  split
  · next h15 => rw [h15]
  · next h15 => exact Nat.mod_eq_of_lt (by omega)

theorem Loading.due_step {A : State} {n : Nat} {b : Bench} (h : Loading A n b) :
    Due A (n - 1) (b.core.clock 4 b.toCore) :=
  h.due.step h.start fun _ => h.buffer.2.1

/-- The words of a block after the first. -/
theorem Loading.words {A : State} {n : Nat} {b : Bench} (h : Loading A n b) {ws : List Lane}
    (hc : b.counter + ws.length = 15) {rest : List Line}
    (hf : b.filein = ws.map Line.word ++ rest) :
    ∃ b', Machine.runFor step (ws.length + 1) b = some b' ∧ b'.st = .st0 ∧ b'.counter = 16 ∧
      b'.start = false ∧ b'.dinVal = true ∧ b'.lastBlock = false ∧
      b'.core.bufferIn = { b.core.bufferIn with
        bufferData := (b.din :: ws).foldl Buffer.shiftIn b.core.bufferIn.bufferData
        bufferFull := true
        countInWords := 0 } ∧
      Due A (n - (ws.length + 1)) b'.core ∧ b'.filein = rest ∧ b'.fileout = b.fileout := by
  induction ws generalizing b n with
  | nil =>
    have hbuf := h.buffer_step (by omega)
    have hdue := h.due_step
    have hc15 : b.counter = 15 := hc
    rw [if_pos hc15, decide_eq_true hc15] at hbuf
    have hstep : b.step = some { b with
        core := b.core.clock 4 b.toCore, counter := b.counter + 1, dinVal := true } := by
      simp only [step, h.st, if_pos (show b.counter < 16 by omega),
        if_neg (show ¬b.counter < 15 by omega)]
    exact ⟨_, Machine.runFor_one hstep, h.st, show b.counter + 1 = 16 by omega, h.start, rfl,
      h.lastBlock, hbuf, hdue, hf, rfl⟩
  | cons w ws ih =>
    rw [List.length_cons] at hc
    have hbuf := h.buffer_step (by omega)
    have hc15 : ¬b.counter = 15 := by omega
    rw [if_neg hc15, decide_eq_false hc15] at hbuf
    have hstep : b.step = some { b with
        core := b.core.clock 4 b.toCore, din := w, counter := b.counter + 1, dinVal := true
        filein := ws.map Line.word ++ rest } := by
      simp only [step, h.st, if_pos (show b.counter < 16 by omega),
        if_pos (show b.counter < 15 by omega), hf, List.map_cons, List.cons_append]
    have h' : Loading A (n - 1) { b with
        core := b.core.clock 4 b.toCore, din := w, counter := b.counter + 1, dinVal := true
        filein := ws.map Line.word ++ rest } := by
      obtain ⟨hm, -, -, hout, hv⟩ := h.buffer
      refine ⟨h.st, h.start, rfl, h.lastBlock, ?_, h.due_step⟩
      show Collecting (b.counter + 1) (b.core.clock 4 b.toCore).bufferIn
      rw [hbuf]
      exact ⟨hm, rfl, rfl, hout, hv⟩
    obtain ⟨b', hrun, h1, h2, h3, h4, h5, h6, h7, h8, h9⟩ :=
      ih h' (show b.counter + 1 + ws.length = 15 by omega) rfl
    refine ⟨b', Machine.runFor_succ hstep hrun, h1, h2, h3, h4, h5, ?_, ?_, h8, h9⟩
    · rw [h6]
      simp only [hbuf, List.foldl_cons]
    · rwa [List.length_cons, show n - (ws.length + 1 + 1) = n - 1 - (ws.length + 1) by omega]

/-- The testbench waits for the core to take the block `ws`. -/
structure Waiting (A : State) (n : Nat) (ws : List Lane) (b : Bench) : Prop where
  st : b.st = .st1
  start : b.start = false
  dinVal : b.dinVal = false
  lastBlock : b.lastBlock = false
  buffer : Full ws b.core.bufferIn
  due : Due A n b.core

/-- The core has taken a block, and the testbench will see that. -/
structure Taken (A : State) (b : Bench) : Prop where
  st : b.st = .st1
  start : b.start = false
  dinVal : b.dinVal = false
  lastBlock : b.lastBlock = false
  buffer : Collecting 0 b.core.bufferIn
  due : Due A 23 b.core

/-- The permutation before ends, and the core takes the block. -/
theorem Waiting.run {A : State} {n : Nat} {ws : List Lane} {b : Bench} (h : Waiting A n ws b) :
    ∃ b', Machine.runFor step (n + 1) b = some b' ∧
      Taken (keccakF1600StatePermute (MidRange.Bench.xorBlock A ws)) b' ∧
      b'.filein = b.filein ∧ b'.fileout = b.fileout := by
  have hfull : b.core.bufferFull = true := h.buffer.2.1
  have hstep : b.step = some { b with core := b.core.clock 4 b.toCore } := by
    simp only [step, h.st, hfull, if_true]
  induction n generalizing b with
  | zero =>
    obtain ⟨hdue, hbuffer⟩ := h.due.take (i := b.toCore) h.start h.lastBlock h.buffer
    exact ⟨_, Machine.runFor_one hstep, ⟨h.st, h.start, h.dinVal, h.lastBlock, hbuffer, hdue⟩,
      rfl, rfl⟩
  | succ n ih =>
    obtain ⟨hdue, hbuffer⟩ := h.due.keep (i := b.toCore) h.start h.lastBlock h.buffer
    have h' : Waiting A n ws { b with core := b.core.clock 4 b.toCore } :=
      ⟨h.st, h.start, h.dinVal, h.lastBlock, hbuffer, hdue⟩
    have hfull' : Core.bufferFull (b.core.clock 4 b.toCore) = true := hbuffer.2.1
    obtain ⟨b', hrun, htaken, hin, hout⟩ := ih h' hfull' (by
      simp only [step, h.st, hfull', if_true])
    exact ⟨b', Machine.runFor_succ hstep hrun, htaken, hin, hout⟩

/-- The testbench goes on. -/
theorem Taken.step {A : State} {b : Bench} (h : Taken A b) :
    ∃ b', b.step = some b' ∧ Between A 21 b' ∧ b'.filein = b.filein ∧ b'.fileout = b.fileout := by
  have hfull : b.core.bufferFull = false := h.buffer.2.1
  have hstep : b.step =
      some { b with core := b.core.clock 4 b.toCore, st := .readFirstInput } := by
    simp only [Bench.step, h.st, hfull, Bool.false_eq_true, if_false]
  have hdue : Due A 22 (b.core.clock 4 b.toCore) :=
    h.due.step h.start fun h0 => absurd h0 (by decide)
  refine ⟨_, hstep, ⟨rfl, h.dinVal, h.lastBlock, h.buffer.hold h.lastBlock h.dinVal, ?_⟩, rfl, rfl⟩
  exact hdue.step h.start fun h0 => absurd h0 (by decide)

/-- The words of a block fill the buffer. -/
theorem full_of_shiftIn {q : Buffer 16} (h : Collecting 0 q) {ws : List Lane}
    (hws : ws.length = 16) {q' : Buffer 16}
    (hq' : q' = { q with
      bufferData := ws.foldl Buffer.shiftIn q.bufferData, bufferFull := true, countInWords := 0 }) :
    Full ws q' := by
  subst hq'
  obtain ⟨hm, -, -, hout, hv⟩ := h
  refine ⟨hm, rfl, hout, hv, fun k hk => ?_⟩
  rw [Buffer.getD_foldl_shiftIn _ _ hk, hws, if_neg (by omega), Nat.add_sub_cancel]

/-- The cycles for a block, with `n` rounds to go in the cycle of its first line. -/
def blockCycles (n : Nat) : Nat := if n ≤ 16 then 19 else n + 3

/-- A block. -/
theorem Between.block {A : State} {n : Nat} {b : Bench} (h : Between A n b) {ws : List Lane}
    (hws : ws.length = 16) {rest : List Line} (hf : b.filein = ws.map Line.word ++ rest) :
    ∃ b', Machine.runFor step (blockCycles n) b = some b' ∧
      Between (keccakF1600StatePermute (MidRange.Bench.xorBlock A ws)) 21 b' ∧
      b'.filein = rest ∧ b'.fileout = b.fileout := by
  obtain ⟨w, ws, rfl⟩ := List.exists_cons_of_length_eq_add_one hws
  have hlen : ws.length = 15 := by rw [List.length_cons] at hws; omega
  have hstep : b.step = some { b with
      core := b.core.clock 4 b.toCore, start := false, dinVal := true, din := w, st := .st0
      counter := 0, filein := ws.map Line.word ++ rest } := by
    simp only [step, h.st, hf, List.map_cons, List.cons_append]
  have h₁ : Loading A n { b with
      core := b.core.clock 4 b.toCore, start := false, dinVal := true, din := w, st := .st0
      counter := 0, filein := ws.map Line.word ++ rest } :=
    ⟨rfl, rfl, rfl, h.lastBlock, h.buffer.hold h.lastBlock h.dinVal, h.due⟩
  obtain ⟨b₂, hrun₂, hst₂, hc₂, hstart₂, hval₂, hlast₂, hbuf₂, hdue₂, hin₂, hout₂⟩ :=
    h₁.words (Nat.zero_add _ ▸ hlen) rfl
  have hfull₂ := full_of_shiftIn h₁.buffer hws hbuf₂
  rw [hlen] at hrun₂ hdue₂
  have hstep₂ : b₂.step = some { b₂ with
      core := b₂.core.clock 4 b₂.toCore, st := .st1, dinVal := false } := by
    simp only [step, hst₂, hc₂, Nat.lt_irrefl, if_false]
  by_cases hn : n ≤ 16
  · -- the core rests when the buffer is full
    rw [show n - (15 + 1) = 0 by omega] at hdue₂
    obtain ⟨hdue₃, hbuf₃⟩ := hdue₂.take (i := b₂.toCore) hstart₂ hlast₂ hfull₂
    have h₃ : Taken (keccakF1600StatePermute (MidRange.Bench.xorBlock A (w :: ws))) { b₂ with
        core := b₂.core.clock 4 b₂.toCore, st := .st1, dinVal := false } :=
      ⟨rfl, hstart₂, rfl, hlast₂, hbuf₃, hdue₃⟩
    obtain ⟨b₄, hstep₄, h₄, hin₄, hout₄⟩ := h₃.step
    refine ⟨b₄, ?_, h₄, hin₄.trans hin₂, hout₄.trans hout₂⟩
    rw [blockCycles, if_pos hn]
    exact Machine.runFor_succ hstep (Machine.runFor_trans hrun₂
      (Machine.runFor_succ hstep₂ (Machine.runFor_one hstep₄)))
  · -- the core is still busy with the block before
    obtain ⟨k, rfl⟩ : ∃ k, n = k + 17 := ⟨n - 17, by omega⟩
    rw [show k + 17 - (15 + 1) = k + 1 by omega] at hdue₂
    obtain ⟨hdue₃, hbuf₃⟩ := hdue₂.keep (i := b₂.toCore) hstart₂ hlast₂ hfull₂
    have h₃ : Waiting A k (w :: ws) { b₂ with
        core := b₂.core.clock 4 b₂.toCore, st := .st1, dinVal := false } :=
      ⟨rfl, hstart₂, rfl, hlast₂, hbuf₃, hdue₃⟩
    obtain ⟨b₄, hrun₄, h₄, hin₄, hout₄⟩ := h₃.run
    obtain ⟨b₅, hstep₅, h₅, hin₅, hout₅⟩ := h₄.step
    refine ⟨b₅, ?_, h₅, hin₅.trans (hin₄.trans hin₂), hout₅.trans (hout₄.trans hout₂)⟩
    have hrun := Machine.runFor_succ hstep (Machine.runFor_trans hrun₂
      (Machine.runFor_succ hstep₂ (Machine.runFor_trans hrun₄ (Machine.runFor_one hstep₅))))
    rw [show 15 + 1 + (k + 1 + 1 + 1) + 1 = k + 17 + 3 by omega] at hrun
    rw [blockCycles, if_neg hn]
    exact hrun

/-- The blocks of a message, each loaded while the one before it is permuted. -/
theorem Between.blocks {A : State} {n : Nat} {b : Bench} (h : Between A n b)
    {blocks : List (List Lane)} (hlen : ∀ ws ∈ blocks, ws.length = 16) {rest : List Line}
    (hf : b.filein = blocks.flatten.map Line.word ++ rest) :
    ∃ b', Machine.runFor step
        (if blocks = [] then 0 else blockCycles n + 24 * (blocks.length - 1)) b = some b' ∧
      Between (Sponge.absorb keccakF1600StatePermute MidRange.Bench.xorBlock A blocks)
        (if blocks = [] then n else 21) b' ∧ b'.filein = rest ∧ b'.fileout = b.fileout := by
  induction blocks generalizing A n b with
  | nil => exact ⟨b, rfl, h, hf, rfl⟩
  | cons ws blocks ih =>
    rw [List.flatten_cons, List.map_append, List.append_assoc] at hf
    obtain ⟨b₁, hrun₁, h₁, hin₁, hout₁⟩ := h.block (hlen ws (.head _)) hf
    obtain ⟨b', hrun, h', hin, hout⟩ := ih h₁ (fun ws h => hlen ws (.tail _ h)) hin₁
    refine ⟨b', ?_, ?_, hin, hout.trans hout₁⟩
    · have hrun := Machine.runFor_trans hrun₁ hrun
      rw [if_neg (List.cons_ne_nil ws blocks), List.length_cons]
      cases blocks with
      | nil => exact hrun
      | cons ws' blocks =>
        rw [if_neg (List.cons_ne_nil ws' blocks), List.length_cons,
          show blockCycles 21 = 24 from rfl] at hrun
        rw [List.length_cons]
        exact (show blockCycles n + (24 + 24 * (blocks.length + 1 - 1)) =
          blockCycles n + 24 * (blocks.length + 1 + 1 - 1) by omega) ▸ hrun
    · rw [if_neg (List.cons_ne_nil ws blocks), Sponge.absorb_cons]
      cases blocks with
      | nil => exact h'
      | cons ws' blocks => exact h'

/-! ## The end of a message -/

/-- The testbench waits for the last permutation of a message. -/
structure Ending (A : State) (n : Nat) (b : Bench) : Prop where
  st : b.st = .END_HASH1
  start : b.start = false
  dinVal : b.dinVal = false
  lastBlock : b.lastBlock = false
  buffer : Collecting 0 b.core.bufferIn
  due : Due A n b.core

/-- The permutation ends. -/
theorem Ending.run {A : State} {n : Nat} {b : Bench} (h : Ending A n b) :
    ∃ b', Machine.runFor step n b = some b' ∧ Ending A 0 b' ∧ b'.filein = b.filein ∧
      b'.fileout = b.fileout := by
  induction n generalizing b with
  | zero => exact ⟨b, rfl, h, rfl, rfl⟩
  | succ n ih =>
    have hready : b.core.ready = false := h.due.ready
    have hstep : b.step = some { b with core := b.core.clock 4 b.toCore } := by
      simp only [step, h.st, hready, Bool.not_false, if_true]
    have h' : Ending A n { b with core := b.core.clock 4 b.toCore } :=
      ⟨h.st, h.start, h.dinVal, h.lastBlock, h.buffer.hold h.lastBlock h.dinVal,
        h.due.step h.start fun h0 => absurd h0 (Nat.succ_ne_zero n)⟩
    obtain ⟨b', hrun, hend, hin, hout⟩ := ih h'
    exact ⟨b', Machine.runFor_succ hstep hrun, hend, hin, hout⟩

/-- The testbench asks for the output. -/
structure Asking (A : State) (b : Bench) : Prop where
  st : b.st = .END_HASH2
  start : b.start = false
  dinVal : b.dinVal = false
  lastBlock : b.lastBlock = true
  counter : b.counter = 0
  buffer : Collecting 0 b.core.bufferIn
  due : Due A 0 b.core

/-- The buffer is in output mode and has shown `k` words of the output before this cycle; it shows
the next one, unless it has not yet taken the output (`valid`). -/
structure Writing (A : State) (k : Nat) (valid : Bool) (b : Bench) : Prop where
  st : b.st = .END_HASH2
  start : b.start = false
  dinVal : b.dinVal = false
  lastBlock : b.lastBlock = false
  counter : b.counter = k
  mode : b.core.bufferIn.mode = true
  full : b.core.bufferIn.bufferFull = false
  countIn : b.core.bufferIn.countInWords = 0
  countOut : b.core.bufferIn.countOutWords = if valid then k + 1 else 0
  valid_eq : b.core.bufferIn.doutBufferOutValid = valid
  data : valid = true → ∀ j, k + j < 4 → b.core.bufferIn.bufferData.getD j 0 = A.getD (k + j) 0

/-- The cycle after the permutation. -/
theorem Ending.ask {A : State} {b : Bench} (h : Ending A 0 b) :
    ∃ b', b.step = some b' ∧ Asking A b' ∧ b'.filein = b.filein ∧ b'.fileout = b.fileout := by
  have hready : b.core.ready = true := h.due.ready
  have hstep : b.step = some { b with
      core := b.core.clock 4 b.toCore, lastBlock := true, st := .END_HASH2, counter := 0 } := by
    simp only [step, h.st, hready, Bool.not_true, Bool.false_eq_true, if_false]
  exact ⟨_, hstep, ⟨rfl, h.start, h.dinVal, rfl, rfl, h.buffer.hold h.lastBlock h.dinVal,
    h.due.step h.start fun _ => h.buffer.2.1⟩, rfl, rfl⟩

/-- The buffer turns to output mode. -/
theorem Asking.turn {A : State} {b : Bench} (h : Asking A b) :
    ∃ b', b.step = some b' ∧ Writing A 0 false b' ∧ Due A 0 b'.core ∧ b'.filein = b.filein ∧
      b'.fileout = b.fileout := by
  obtain ⟨hm, hfull, hcount, hout, hval⟩ := h.buffer
  have hvalid : b.core.doutValid = false := hval
  have hstep : b.step = some { b with
      core := b.core.clock 4 b.toCore, lastBlock := false } := by
    simp only [step, h.st, hvalid, Bool.false_eq_true, if_false]
  have hbuf : (b.core.clock 4 b.toCore).bufferIn = { b.core.bufferIn with mode := true } :=
    Buffer.clock_turn hm
      (by
        rw [show (b.core.toBuffer 4 b.toCore).lastBlock = true from h.lastBlock]
        exact h.due.ready)
      hfull h.dinVal
  refine ⟨_, hstep, ⟨h.st, h.start, h.dinVal, rfl, h.counter, ?_, ?_, ?_, ?_, ?_, ?_⟩,
    h.due.step h.start fun _ => hfull, rfl, rfl⟩
  · rw [hbuf]
  · rw [hbuf, hfull]
  · rw [hbuf, hcount]
  · rw [hbuf, hout]
    rfl
  · rw [hbuf, hval]
  · exact fun h0 => absurd h0 (by decide)

/-- The buffer takes the output. -/
theorem Writing.load {A : State} {b : Bench} (h : Writing A 0 false b) (hdue : Due A 0 b.core) :
    ∃ b', b.step = some b' ∧ Writing A 0 true b' ∧ b'.filein = b.filein ∧
      b'.fileout = b.fileout := by
  have hvalid : b.core.doutValid = false := h.valid_eq
  have hstep : b.step = some { b with
      core := b.core.clock 4 b.toCore, lastBlock := false } := by
    simp only [step, h.st, hvalid, Bool.false_eq_true, if_false]
  have hbuf : (b.core.clock 4 b.toCore).bufferIn = { b.core.bufferIn with
      bufferData := Buffer.loadOut b.core.bufferIn.bufferData
        (Core.regDataVector 4 b.core.regData)
      countOutWords := 1
      doutBufferOutValid := true } :=
    Buffer.clock_load h.mode h.countOut
  rw [Due, if_pos rfl] at hdue
  refine ⟨_, hstep, ⟨h.st, h.start, h.dinVal, rfl, h.counter, ?_, ?_, ?_, ?_, ?_, ?_⟩, rfl, rfl⟩
  · rw [hbuf]
    exact h.mode
  · rw [hbuf]
    exact h.full
  · rw [hbuf]
    exact h.countIn
  · rw [hbuf]
    rfl
  · rw [hbuf]
  · intro _ j hj
    rw [hbuf]
    simp only
    rw [Buffer.loadOut, Vec.getD_of_lt _ _ (by omega), Vector.getElem_ofFn,
      dif_pos (show j < 4 by omega), Core.regDataVector, Vector.getElem_ofFn, ← hdue.2.2,
      Vec.getD_of_lt _ _ (by omega), KState.getElem_toWords _ (by omega), Nat.zero_add]

/-- The word that the testbench writes. -/
theorem Writing.dout {A : State} {k : Nat} {b : Bench} (h : Writing A k true b) (hk : k < 4) :
    b.core.dout = A.getD k 0 :=
  h.data rfl 0 hk

/-- A word of the output. -/
theorem Writing.word {A : State} {k : Nat} {b : Bench} (h : Writing A k true b) (hk : k < 3) :
    ∃ b', b.step = some b' ∧ Writing A (k + 1) true b' ∧ b'.filein = b.filein ∧
      b'.fileout = b.fileout ++ [.word (A.getD k 0)] := by
  have hvalid : b.core.doutValid = true := h.valid_eq
  have hstep : b.step = some { b with
      core := b.core.clock 4 b.toCore, lastBlock := false
      fileout := b.fileout ++ [.word (A.getD k 0)], counter := b.counter + 1 } := by
    simp only [step, h.st, hvalid, if_true, h.counter, if_pos hk, h.dout (by omega)]
  have hbuf : (b.core.clock 4 b.toCore).bufferIn = { b.core.bufferIn with
      bufferData := Buffer.shiftOut 4 b.core.bufferIn.bufferData
      countOutWords := b.core.bufferIn.countOutWords + 1
      doutBufferOutValid := true } :=
    Buffer.clock_shift h.mode (by rw [h.countOut]; exact Nat.succ_pos k)
      (by rw [h.countOut]; exact Nat.succ_lt_succ hk)
  refine ⟨_, hstep, ⟨h.st, h.start, h.dinVal, rfl, ?_, ?_, ?_, ?_, ?_, ?_, ?_⟩, rfl, rfl⟩
  · rw [h.counter]
  · rw [hbuf]
    exact h.mode
  · rw [hbuf]
    exact h.full
  · rw [hbuf]
    exact h.countIn
  · rw [hbuf, h.countOut]
    rfl
  · rw [hbuf]
  · intro _ j hj
    rw [hbuf]
    simp only
    rw [Buffer.shiftOut, Vec.getD_of_lt _ _ (by omega), Vector.getElem_ofFn,
      dif_pos (show j + 1 < 4 ∧ j + 1 < 16 by omega), ← Vec.getD_of_lt _ 0,
      h.data rfl (j + 1) (by omega), Nat.add_assoc, Nat.add_comm 1 j]

/-- The last word of the output, and the `start` for the next message. -/
theorem Writing.last {A : State} {b : Bench} (h : Writing A 3 true b) :
    ∃ b', b.step = some b' ∧ Between (.replicate 25 0) 0 b' ∧ b'.filein = b.filein ∧
      b'.fileout = b.fileout ++ [.word (A.getD 3 0), .dash] := by
  have hvalid : b.core.doutValid = true := h.valid_eq
  have hstep : b.step = some { b with
      core := b.core.clock 4 b.toCore, lastBlock := false, st := .readFirstInput, start := true
      fileout := b.fileout ++ [.word (A.getD 3 0), .dash] } := by
    simp only [step, h.st, hvalid, if_true, h.counter, Nat.lt_irrefl, if_false,
      h.dout (show 3 < 4 by decide)]
  have hbuf : (b.core.clock 4 b.toCore).bufferIn = { b.core.bufferIn with
      mode := false, countOutWords := 0, doutBufferOutValid := false } :=
    Buffer.clock_finish h.mode (by rw [h.countOut]; exact Nat.succ_pos 3)
      (Nat.le_of_eq h.countOut.symm)
  refine ⟨_, hstep, ⟨rfl, h.dinVal, rfl, ?_, due_of_start rfl⟩, rfl, rfl⟩
  show Collecting 0 (b.core.clock 4 b.toCore).bufferIn
  rw [hbuf]
  exact ⟨rfl, h.full, h.countIn, rfl, rfl⟩

/-- The end of a message: `n` rounds, two cycles and seven for the output. -/
theorem Between.hash {A : State} {n : Nat} {b : Bench} (h : Between A n b) {rest : List Line}
    (hf : b.filein = .dash :: rest) :
    ∃ b', Machine.runFor step (n + 8) b = some b' ∧ Between (.replicate 25 0) 0 b' ∧
      b'.filein = rest ∧
      b'.fileout =
        b.fileout ++ ((List.range 4).map (fun k => Line.word (A.getD k 0)) ++ [.dash]) := by
  have hstep : b.step = some { b with
      core := b.core.clock 4 b.toCore, start := false, st := .END_HASH1, filein := rest } := by
    simp only [step, h.st, hf]
  have h₁ : Ending A n { b with
      core := b.core.clock 4 b.toCore, start := false, st := .END_HASH1, filein := rest } :=
    ⟨rfl, rfl, h.dinVal, h.lastBlock, h.buffer.hold h.lastBlock h.dinVal, h.due⟩
  obtain ⟨b₂, hrun₂, h₂, hin₂, hout₂⟩ := h₁.run
  obtain ⟨b₃, hstep₃, h₃, hin₃, hout₃⟩ := h₂.ask
  obtain ⟨b₄, hstep₄, h₄, hdue₄, hin₄, hout₄⟩ := h₃.turn
  obtain ⟨b₅, hstep₅, h₅, hin₅, hout₅⟩ := h₄.load hdue₄
  obtain ⟨b₆, hstep₆, h₆, hin₆, hout₆⟩ := h₅.word (by decide)
  obtain ⟨b₇, hstep₇, h₇, hin₇, hout₇⟩ := h₆.word (by decide)
  obtain ⟨b₈, hstep₈, h₈, hin₈, hout₈⟩ := h₇.word (by decide)
  obtain ⟨b₉, hstep₉, h₉, hin₉, hout₉⟩ := h₈.last
  refine ⟨b₉, ?_, h₉, ?_, ?_⟩
  · have hend := Machine.runFor_succ hstep₃ (Machine.runFor_succ hstep₄ (Machine.runFor_succ hstep₅
      (Machine.runFor_succ hstep₆ (Machine.runFor_succ hstep₇ (Machine.runFor_succ hstep₈
        (Machine.runFor_one hstep₉))))))
    exact Machine.runFor_succ hstep (Machine.runFor_trans hrun₂ hend)
  · rw [hin₉, hin₈, hin₇, hin₆, hin₅, hin₄, hin₃, hin₂]
  · rw [hout₉, hout₈, hout₇, hout₆, hout₅, hout₄, hout₃, hout₂]
    simp only [List.append_assoc]
    rfl

/-! ## The run -/

/-- The cycles for a message. -/
def cycles (blocks : List (List Lane)) : Nat :=
  if blocks = [] then 8 else 24 * blocks.length + 24

/-- A message. -/
theorem Between.message {b : Bench} (h : Between (.replicate 25 0) 0 b) {blocks : List (List Lane)}
    (hlen : ∀ ws ∈ blocks, ws.length = 16) {rest : List Line}
    (hf : b.filein = linesOf blocks ++ rest) :
    ∃ b', Machine.runFor step (cycles blocks) b = some b' ∧ Between (.replicate 25 0) 0 b' ∧
      b'.filein = rest ∧ b'.fileout = b.fileout ++ hashLines blocks := by
  rw [linesOf, List.append_assoc] at hf
  obtain ⟨b₁, hrun₁, h₁, hin₁, hout₁⟩ := h.blocks hlen hf
  obtain ⟨b₂, hrun₂, h₂, hin₂, hout₂⟩ := h₁.hash hin₁
  refine ⟨b₂, ?_, h₂, hin₂, by rw [hout₂, hout₁]; rfl⟩
  have hrun := Machine.runFor_trans hrun₁ hrun₂
  rw [cycles]
  cases blocks with
  | nil => exact hrun
  | cons ws blocks =>
    rw [if_neg (List.cons_ne_nil ws blocks), if_neg (List.cons_ne_nil ws blocks), List.length_cons,
      show blockCycles 0 = 19 from rfl] at hrun
    rw [if_neg (List.cons_ne_nil ws blocks), List.length_cons]
    rwa [show 19 + 24 * (blocks.length + 1 - 1) + (21 + 8) = 24 * (blocks.length + 1) + 24 by omega]
      at hrun

/-- The messages of a file. -/
theorem Between.messages {b : Bench} (h : Between (.replicate 25 0) 0 b)
    {messages : List (List (List Lane))} (hlen : ∀ m ∈ messages, ∀ ws ∈ m, ws.length = 16)
    (hf : b.filein = messages.flatMap linesOf ++ [.dot]) :
    ∃ b', Machine.runFor step ((messages.map cycles).sum + 1) b = some b' ∧ b'.st = .STOP ∧
      b'.filein = [] ∧ b'.fileout = b.fileout ++ messages.flatMap hashLines := by
  induction messages generalizing b with
  | nil =>
    have hstep : b.step = some { b with
        core := b.core.clock 4 b.toCore, start := false, st := .STOP, filein := [] } := by
      simp only [step, h.st, hf, List.flatMap_nil, List.nil_append]
    exact ⟨_, Machine.runFor_one hstep, rfl, rfl, (List.append_nil b.fileout).symm⟩
  | cons m messages ih =>
    rw [List.flatMap_cons, List.append_assoc] at hf
    obtain ⟨b₁, hrun₁, h₁, hin₁, hout₁⟩ := h.message (hlen m (.head _)) hf
    obtain ⟨b', hrun, hst, hfin, hout⟩ := ih h₁ (fun m h => hlen m (.tail _ h)) hin₁
    refine ⟨b', ?_, hst, hfin, ?_⟩
    · rw [List.map_cons, List.sum_cons, Nat.add_assoc]
      exact Machine.runFor_trans hrun₁ hrun
    · rw [hout, hout₁, List.append_assoc, List.flatMap_cons]

/-- The first edge reads the number of tests. -/
theorem reset_step (numTest : Nat) (messages : List (List (List Lane))) :
    ∃ b, (reset (inputOf numTest messages)).step = some b ∧ Between (.replicate 25 0) 0 b ∧
      b.filein = messages.flatMap linesOf ++ [.dot] ∧ b.fileout = [] :=
  ⟨_, rfl, ⟨rfl, rfl, rfl, ⟨rfl, rfl, rfl, rfl, rfl⟩, due_of_start rfl⟩, rfl, rfl⟩

/-- **The testbench hashes.** For a file with any number of messages of any number of blocks of
sixteen words, the simulation ends after 24 cycles for each block and 24 for each message that has
blocks, 8 for each other message and two more, and the second file holds the first four words of the
sponge of each message. -/
theorem highSpeed_hashes (numTest : Nat) (messages : List (List (List Lane)))
    (hlen : ∀ m ∈ messages, ∀ ws ∈ m, ws.length = 16) :
    ∃ b', Machine.runFor step ((messages.map cycles).sum + 2)
        (reset (inputOf numTest messages)) = some b' ∧
      b'.st = .STOP ∧ b'.filein = [] ∧ b'.fileout = messages.flatMap hashLines := by
  obtain ⟨b, hstep, h, hin, hout⟩ := reset_step numTest messages
  obtain ⟨b', hrun, hst, hfin, hout'⟩ := h.messages hlen hin
  exact ⟨b', Machine.runFor_succ hstep hrun, hst, hfin, by rw [hout', hout, List.nil_append]⟩

/-- A message of two blocks and an empty one. -/
theorem highSpeed_hashes_two :
    let messages : List (List (List Lane)) := [[List.replicate 16 1, List.replicate 16 2], []]
    ∃ b', Machine.runFor step ((messages.map cycles).sum + 2) (reset (inputOf 2 messages)) =
        some b' ∧
      b'.st = .STOP ∧ b'.filein = [] ∧ b'.fileout = messages.flatMap hashLines :=
  highSpeed_hashes 2 _ (by decide)

end Bench

end ShakeAccel.HighSpeed
