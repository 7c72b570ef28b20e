import ShakeAccel.Lib.Machine
import ShakeAccel.Lib.Sponge
import ShakeAccel.Keccak.RoundAgree
import ShakeAccel.Keccak.Core

/-!
# The core as a sponge

`SpongeCore` is the core without its registers: the state before the running permutation, the
rounds already applied and the words waiting in the buffer. In input mode the core refines it
(`Refines`), in output mode it shifts the lanes of a fixed state out (`Shifting`).
-/

namespace ShakeAccel

open Vec

/-- XORs a block of 21 words into the lanes 0 to 20. -/
def xorBlock (s : KState) (block : List Lane) : KState :=
  .ofLanes fun y x => s.lane y x ^^^ block.getD (5 * y + x) 0

theorem roundIn_false (s : KState) (b : Vector Lane 21) : Keccak.roundIn s b false = s :=
  HighSpeed.Core.roundIn_false s b

theorem roundIn_true (s : KState) (b : Vector Lane 21) :
    Keccak.roundIn s b true = xorBlock s b.toList := by
  apply KState.ext_lane
  intro y hy x hx
  rw [xorBlock, KState.lane_ofLanes hy hx]
  refine (HighSpeed.Core.roundIn_true s b hy hx).trans (congrArg _ ?_)
  split
  · next h => simp [h, Vec.getD_of_lt _ _ h, List.getD_eq_getElem?_getD]
  · next h => simp [h, List.getD_eq_getElem?_getD]

/-- The sponge state after absorbing whole blocks: 24 rounds of the netlist for each. -/
def absorbBlocks (s : KState) (bs : List (List Lane)) : KState :=
  Sponge.absorb permute24 xorBlock s bs

/-- `xorBlock` on the 25 words of a state. -/
def xorWords (t : State) (block : List Lane) : State :=
  .ofFn fun k => t[k] ^^^ block.getD k 0

theorem xorBlock_toWords (s : KState) (block : List Lane) :
    (xorBlock s block).toWords = xorWords s.toWords block := by
  apply Vector.ext
  intro k hk
  rw [KState.getElem_toWords _ hk, xorBlock,
    KState.lane_ofLanes (by omega) (Nat.mod_lt k (by decide)), Nat.div_add_mod k 5, xorWords,
    Vector.getElem_ofFn, Fin.getElem_fin, KState.getElem_toWords _ hk]

theorem zero_toWords : KState.zero.toWords = Vector.replicate 25 0 := by
  apply Vector.ext
  intro k hk
  rw [KState.getElem_toWords _ hk, KState.zero,
    KState.lane_ofLanes (by omega) (Nat.mod_lt k (by decide)), Vector.getElem_replicate]

/-- Absorbing with the netlist's rounds is absorbing with the software permutation. -/
theorem absorbBlocks_toWords (bs : List (List Lane)) :
    (absorbBlocks .zero bs).toWords =
      Sponge.absorb keccakF1600StatePermute xorWords (Vector.replicate 25 0) bs := by
  rw [absorbBlocks, Sponge.absorb_map KState.toWords id permute24_toWords xorBlock_toWords,
    List.map_id, zero_toWords]

/-! ## The abstract core -/

/-- What the core is about in input mode. -/
structure SpongeCore where
  /-- The state that the running permutation started from, or the state itself when idle. -/
  base : KState
  /-- How many rounds of the running permutation have been applied; 0 when idle. -/
  rounds : Nat
  /-- The accepted words that have not been absorbed. -/
  pending : List Lane

namespace SpongeCore

/-- One cycle, with the word that the core accepts in it. -/
def step (a : SpongeCore) (w : Option Lane) : SpongeCore :=
  if a.pending.length = 21 ∧ a.rounds = 0 then ⟨xorBlock a.base a.pending, 1, []⟩
  else
    { base := if a.rounds = 23 then permute24 a.base else a.base
      rounds := if a.rounds = 0 ∨ a.rounds = 23 then 0 else a.rounds + 1
      pending := a.pending ++ w.toList }

/-- The state once the running permutation is complete. -/
def value (a : SpongeCore) : KState := if a.rounds = 0 then a.base else permute24 a.base

/-- The core holds the words `ws`: the first `m` blocks are absorbed, the rest is pending. -/
def Holds (ws : List Lane) (a : SpongeCore) : Prop :=
  ∃ m, 21 * m ≤ ws.length ∧ a.pending = ws.drop (21 * m) ∧
    a.value = absorbBlocks .zero (Sponge.blocks 21 m ws)

/-- No word is lost, duplicated or reordered by a cycle. -/
theorem Holds.step {ws : List Lane} {a : SpongeCore} (h : Holds ws a) {w : Option Lane}
    (hw : a.pending.length = 21 → w = none) : Holds (ws ++ w.toList) (a.step w) := by
  obtain ⟨m, hm, hp, hv⟩ := h
  by_cases hc : a.pending.length = 21 ∧ a.rounds = 0
  · -- the pending block is absorbed
    obtain rfl := hw hc.1
    have hlen : (ws.drop (21 * m)).length = 21 := by rw [← hp, hc.1]
    have hl := hlen
    rw [List.length_drop] at hl
    refine ⟨m + 1, by simp only [Option.toList_none, List.append_nil]; omega, ?_, ?_⟩
    · simp only [SpongeCore.step, if_pos hc, Option.toList_none, List.append_nil]
      exact (List.drop_of_length_le (by omega)).symm
    · rw [SpongeCore.value, if_pos hc.2] at hv
      rw [Option.toList_none, List.append_nil, Sponge.blocks_succ, absorbBlocks,
        Sponge.absorb_concat, List.take_of_length_le (Nat.le_of_eq hlen), ← hp]
      simp only [SpongeCore.value, SpongeCore.step, if_pos hc, Nat.one_ne_zero, if_false, hv,
        absorbBlocks]
  · refine ⟨m, by rw [List.length_append]; omega, ?_, ?_⟩
    · rw [SpongeCore.step, if_neg hc, List.drop_append_of_le_length hm, hp]
    · rw [Sponge.blocks_append hm, ← hv, SpongeCore.step, if_neg hc]
      simp only [value]
      by_cases h0 : a.rounds = 0
      · simp [h0]
      · by_cases h23 : a.rounds = 23
        · simp [h23]
        · simp [h0, h23]

theorem holds_nil : Holds [] ⟨.zero, 0, []⟩ := ⟨0, by decide, rfl, rfl⟩

/-- When the core is idle with less than a block pending, every complete block is absorbed. -/
theorem Holds.idle {ws : List Lane} {a : SpongeCore} (h : Holds ws a) (h0 : a.rounds = 0)
    (hp : a.pending.length < 21) :
    a.base = absorbBlocks .zero (Sponge.blocks 21 (ws.length / 21) ws) := by
  obtain ⟨m, hm, hpend, hv⟩ := h
  have hlen : a.pending.length = ws.length - 21 * m := by rw [hpend, List.length_drop]
  have hdiv : ws.length / 21 = m := by omega
  rw [hdiv, ← hv, value, if_pos h0]

end SpongeCore

/-! ## Input mode -/

/-- The core in input mode holds the abstract core `a` in its registers. -/
structure Refines (a : SpongeCore) (s : Keccak) : Prop where
  mode : s.bufferIn.mode = false
  countOut : s.bufferIn.countOutWords = 0
  valid : s.bufferIn.doutBufferOutValid = false
  full : s.bufferIn.bufferFull = decide (a.pending.length = 21)
  countIn : s.bufferIn.countInWords = a.pending.length % 21
  le : a.pending.length ≤ 21
  data : s.bufferIn.bufferData.toList.drop (21 - a.pending.length) = a.pending
  lt : a.rounds < 24
  counter : s.counterNrRounds = a.rounds
  computed : s.permutationComputed = decide (a.rounds = 0)
  reg : s.regData = applyRounds a.rounds a.base

namespace Refines

variable {a : SpongeCore} {s : Keccak} {i : KeccakIn}

theorem reset : Refines ⟨.zero, 0, []⟩ Keccak.reset where
  mode := rfl
  countOut := rfl
  valid := rfl
  full := rfl
  countIn := rfl
  le := by decide
  data := rfl
  lt := by decide
  counter := rfl
  computed := rfl
  reg := rfl

/-- A full buffer is the pending block. -/
theorem bufferData (h : Refines a s) (h21 : a.pending.length = 21) :
    s.bufferIn.bufferData.toList = a.pending := by
  have hd := h.data
  rwa [h21, Nat.sub_self, List.drop_zero] at hd

/-- The netlist's round while a permutation runs. -/
theorem roundOut_run (h : Refines a s) (h0 : a.rounds ≠ 0) :
    s.roundOut = applyRounds (a.rounds + 1) a.base := by
  rw [Keccak.roundOut, h.computed, decide_eq_false h0, Bool.and_false, roundIn_false, h.counter,
    h.reg, applyRounds_succ]

/-- The netlist's round when a block is absorbed. -/
theorem roundOut_absorb (h : Refines a s) (h0 : a.rounds = 0) (h21 : a.pending.length = 21) :
    s.roundOut = applyRounds 1 (xorBlock a.base a.pending) := by
  rw [Keccak.roundOut, h.full, decide_eq_true h21, h.computed, decide_eq_true h0, Bool.and_self,
    roundIn_true, h.bufferData h21, h.counter, h.reg, h0, applyRounds_succ]
  rfl

/-- The buffer's part of a cycle in which no block is absorbed: an accepted word goes on top. -/
theorem buffer_clock (h : Refines a s) (hl : (i.lastBlock && s.ready) = false)
    (hn : ¬(a.pending.length = 21 ∧ a.rounds = 0)) :
    (s.bufferIn.clock (s.toBuffer i)).mode = false ∧
      (s.bufferIn.clock (s.toBuffer i)).countOutWords = 0 ∧
      (s.bufferIn.clock (s.toBuffer i)).doutBufferOutValid = false ∧
      (a.pending ++ (s.accepted i).toList).length ≤ 21 ∧
      (s.bufferIn.clock (s.toBuffer i)).bufferFull =
        decide ((a.pending ++ (s.accepted i).toList).length = 21) ∧
      (s.bufferIn.clock (s.toBuffer i)).countInWords =
        (a.pending ++ (s.accepted i).toList).length % 21 ∧
      (s.bufferIn.clock (s.toBuffer i)).bufferData.toList.drop
          (21 - (a.pending ++ (s.accepted i).toList).length) =
        a.pending ++ (s.accepted i).toList := by
  have hle := h.le
  by_cases hv : i.dinValid = true ∧ a.pending.length ≠ 21
  · -- a word is accepted
    have hf : s.bufferIn.bufferFull = false := by rw [h.full, decide_eq_false hv.2]
    have hacc : s.accepted i = some i.din := by
      simp [Keccak.accepted, Keccak.bufferFull, hv.1, hf, h.mode]
    have hcount : s.bufferIn.countInWords = a.pending.length := by
      rw [h.countIn, Nat.mod_eq_of_lt (by omega)]
    have hclock := KeccakBuffer.clock_accept (i := s.toBuffer i) h.mode hl hf hv.1 (by omega)
    have hlen : (a.pending ++ [i.din]).length = a.pending.length + 1 := by simp
    rw [hacc, Option.toList_some, hlen, hclock]
    refine ⟨h.mode, h.countOut, h.valid, by omega, ?_, by simp only [hcount], ?_⟩
    · simp only [hcount]
      exact decide_eq_decide.2 (by omega)
    · simp only [KeccakBuffer.toList_shiftIn]
      rw [List.drop_append_of_le_length (by simp), List.drop_drop,
        show 1 + (21 - (a.pending.length + 1)) = 21 - a.pending.length by omega, h.data]
      rfl
  · -- nothing is accepted
    have hfr : (s.bufferIn.bufferFull && (s.toBuffer i).ready) = false := by
      rw [show (s.toBuffer i).ready = s.permutationComputed from rfl, h.full, h.computed]
      by_cases h21 : a.pending.length = 21
      · simp [h21, show a.rounds ≠ 0 from fun h0 => hn ⟨h21, h0⟩]
      · simp [h21]
    have hdv : ((s.toBuffer i).dinBufferInValid && !s.bufferIn.bufferFull) = false := by
      rw [show (s.toBuffer i).dinBufferInValid = i.dinValid from rfl, h.full]
      by_cases h1 : i.dinValid = true
      · have h21 : a.pending.length = 21 := by
          by_contra hne
          exact hv ⟨h1, hne⟩
        simp [h21]
      · simp [h1]
    have hacc : s.accepted i = none := by
      rw [Keccak.accepted, show (i.dinValid && !s.bufferFull) = false from hdv]
      rfl
    rw [hacc, Option.toList_none, List.append_nil, KeccakBuffer.clock_hold h.mode hl hfr hdv]
    exact ⟨h.mode, h.countOut, h.valid, h.le, h.full, h.countIn, h.data⟩

/-- **One cycle in input mode.** Without `start`, and without `last_block` at a ready core, the
core makes the step of the abstract core with the word it accepts. -/
theorem clock (h : Refines a s) (hs : i.start = false) (hl : (i.lastBlock && s.ready) = false) :
    Refines (a.step (s.accepted i)) (s.clock i) := by
  by_cases hn : a.pending.length = 21 ∧ a.rounds = 0
  · -- the full buffer is absorbed with round 0
    obtain ⟨h21, h0⟩ := hn
    have hf : s.bufferIn.bufferFull = true := by rw [h.full, decide_eq_true h21]
    have hc : s.permutationComputed = true := by rw [h.computed, decide_eq_true h0]
    have hbuf := KeccakBuffer.clock_absorb (i := s.toBuffer i) h.mode hl hf hc
    have hstep : a.step (s.accepted i) = ⟨xorBlock a.base a.pending, 1, []⟩ := by
      rw [SpongeCore.step, if_pos ⟨h21, h0⟩]
    rw [hstep, Keccak.clock, Keccak.clockMain_absorb hs hf hc, hbuf]
    exact
      { mode := h.mode
        countOut := h.countOut
        valid := h.valid
        full := rfl
        countIn := rfl
        le := Nat.zero_le _
        data := List.drop_of_length_le (by simp)
        lt := (by decide : 1 < 24)
        counter := rfl
        computed := rfl
        reg := h.roundOut_absorb h0 h21 }
  · obtain ⟨hmode, hout, hvalid, hle, hfull, hin, hdata⟩ := h.buffer_clock hl hn
    have hstep : a.step (s.accepted i) =
        { base := if a.rounds = 23 then permute24 a.base else a.base
          rounds := if a.rounds = 0 ∨ a.rounds = 23 then 0 else a.rounds + 1
          pending := a.pending ++ (s.accepted i).toList } := by
      rw [SpongeCore.step, if_neg hn]
    have hlt := h.lt
    rw [hstep, Keccak.clock]
    by_cases h0 : a.rounds = 0
    · -- the core is idle
      have hc : s.permutationComputed = true := by rw [h.computed, decide_eq_true h0]
      have hf : s.bufferIn.bufferFull = false := by
        rw [h.full, decide_eq_false fun h21 => hn ⟨h21, h0⟩]
      rw [Keccak.clockMain_idle hs hc hf (h.counter.trans h0)]
      have hreg := h.reg
      rw [h0] at hreg
      exact ⟨hmode, hout, hvalid, hfull, hin, hle, hdata, by simp [h0],
        by simp [h0, h.counter], by simp [h0, hc], by simp [h0, hreg]⟩
    · have hc : s.permutationComputed = false := by rw [h.computed, decide_eq_false h0]
      have hro := h.roundOut_run h0
      by_cases h23 : a.rounds = 23
      · -- the last round
        rw [Keccak.clockMain_last hs hc (h.counter.trans h23)]
        rw [h23] at hro
        exact ⟨hmode, hout, hvalid, hfull, hin, hle, hdata, by simp [h23], by simp [h23],
          by simp [h23], by simp [h23, hro, permute24]⟩
      · -- the rounds 1 to 22
        rw [Keccak.clockMain_round hs hc (by rw [h.counter]; omega)]
        exact ⟨hmode, hout, hvalid, hfull, hin, hle, hdata, by simp [h0, h23]; omega,
          by simp [h0, h23, h.counter], by simp [h0, h23, hc], by simp [h0, h23, hro]⟩

/-- A full buffer accepts no word. -/
theorem accepted_none (h : Refines a s) (h21 : a.pending.length = 21) : s.accepted i = none := by
  simp [Keccak.accepted, Keccak.bufferFull, h.full, h21]

/-- A core that is ready with a buffer that is not full has no running permutation. -/
theorem idle_of_ready (h : Refines a s) (hr : s.ready = true) (hf : s.bufferFull = false) :
    a.rounds = 0 ∧ a.pending.length < 21 ∧ s.regData = a.base := by
  have h0 : a.rounds = 0 := by simpa [Keccak.ready, h.computed] using hr
  have h21 : a.pending.length ≠ 21 := by simpa [Keccak.bufferFull, h.full] using hf
  refine ⟨h0, ?_, by rw [h.reg, h0, applyRounds_zero]⟩
  have := h.le
  omega

end Refines

/-! ## Output mode -/

/-- The core in output mode: the state is `H`, `k` cycles of the readout are over, and the buffer
shows word `k-1` of the state in its lowest lane. -/
structure Shifting (H : KState) (k : Nat) (s : Keccak) : Prop where
  mode : s.bufferIn.mode = true
  full : s.bufferIn.bufferFull = false
  countIn : s.bufferIn.countInWords = 0
  countOut : s.bufferIn.countOutWords = k
  le : k ≤ 8
  valid : s.bufferIn.doutBufferOutValid = decide (0 < k)
  data : ∀ n (_ : n < 8) (_ : 0 < k) (_ : k ≤ n + 1),
    s.bufferIn.bufferData[n + 1 - k] = H.toWords[n]
  counter : s.counterNrRounds = 0
  computed : s.permutationComputed = true
  reg : s.regData = H

theorem getElem_regDataVector (H : KState) {n : Nat} (hn : n < 8) :
    (Keccak.regDataVector H)[n] = H.toWords[n] := by
  rw [KState.getElem_toWords, Keccak.regDataVector, Vector.getElem_ofFn]
  interval_cases n <;> simp

/-- **`last_block` at an idle core with an empty buffer turns it to output mode.** -/
theorem Refines.turn {H : KState} {s : Keccak} {i : KeccakIn} (h : Refines ⟨H, 0, []⟩ s)
    (hs : i.start = false) (hl : i.lastBlock = true) (hv : i.dinValid = false) :
    Shifting H 0 (s.clock i) := by
  have hc : s.permutationComputed = true := h.computed
  have hf : s.bufferIn.bufferFull = false := h.full
  have hlr : ((s.toBuffer i).lastBlock && (s.toBuffer i).ready) = true := by
    rw [show (s.toBuffer i).lastBlock = i.lastBlock from rfl, hl,
      show (s.toBuffer i).ready = s.permutationComputed from rfl, hc]
    rfl
  rw [Keccak.clock, Keccak.clockMain_idle hs hc hf h.counter,
    KeccakBuffer.clock_turn h.mode hlr hf hv]
  exact
    { mode := rfl
      full := hf
      countIn := h.countIn
      countOut := h.countOut
      le := Nat.zero_le _
      valid := h.valid
      data := fun _ _ h0 _ => absurd h0 (Nat.lt_irrefl 0)
      counter := h.counter
      computed := hc
      reg := h.reg }

namespace Shifting

variable {H : KState} {k : Nat} {s : Keccak} {i : KeccakIn}

/-- A cycle of the readout: the digest is loaded, then shifted. Neither an offered word nor
`last_block` has an effect. -/
theorem clock (h : Shifting H k s) (hs : i.start = false) (hk : k < 8) :
    Shifting H (k + 1) (s.clock i) := by
  rw [Keccak.clock, Keccak.clockMain_idle hs h.computed h.full h.counter]
  by_cases h0 : k = 0
  · subst h0
    rw [KeccakBuffer.clock_load h.mode h.countOut]
    refine ⟨h.mode, h.full, h.countIn, rfl, by omega, rfl, ?_, h.counter, h.computed, h.reg⟩
    intro n hn _ _
    simp only [KeccakBuffer.loadOut, Vector.getElem_ofFn, Nat.zero_add, Nat.add_sub_cancel, hn,
      dif_pos]
    rw [show (s.toBuffer i).doutBufferIn = Keccak.regDataVector H by rw [← h.reg]; rfl,
      getElem_regDataVector H hn]
  · rw [KeccakBuffer.clock_shift h.mode (by rw [h.countOut]; omega) (by rw [h.countOut]; exact hk)]
    refine ⟨h.mode, h.full, h.countIn, by simp only [h.countOut], by omega, by simp, ?_, h.counter,
      h.computed, h.reg⟩
    intro n hn _ hkn
    have hlt : n + 1 - (k + 1) < 7 := by omega
    simp only [KeccakBuffer.shiftOut, Vector.getElem_ofFn, hlt, dif_pos]
    rw [← h.data n hn (by omega) (by omega)]
    congr 1
    omega

/-- The ninth cycle returns to input mode with an empty buffer. -/
theorem finish (h : Shifting H 8 s) (hs : i.start = false) : Refines ⟨H, 0, []⟩ (s.clock i) := by
  rw [Keccak.clock, Keccak.clockMain_idle hs h.computed h.full h.counter,
    KeccakBuffer.clock_finish h.mode (by rw [h.countOut])]
  exact
    { mode := rfl
      countOut := rfl
      valid := rfl
      full := h.full
      countIn := h.countIn
      le := Nat.zero_le _
      data := List.drop_of_length_le (by simp)
      lt := (by decide : 0 < 24)
      counter := h.counter
      computed := h.computed
      reg := h.reg }

theorem doutValid (h : Shifting H k s) : s.doutValid = decide (0 < k) := h.valid

/-- The word on `dout`. -/
theorem dout (h : Shifting H (k + 1) s) (hk : k < 8) : s.dout = H.toWords[k] := by
  have hd := h.data k hk (by omega) (by omega)
  simpa [Keccak.dout, KeccakBuffer.doutBufferOut] using hd

end Shifting

end ShakeAccel
