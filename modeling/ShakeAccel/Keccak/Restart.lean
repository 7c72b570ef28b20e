import ShakeAccel.Keccak.Session

/-!
# The start pulse

The start input reaches the state and the round counter of the core, but not its buffer. Two cores
that differ in the buffer's data only cannot be told apart as long as no word that is still to be
used differs (`Alike`), so a start pulse makes the core as after a reset exactly if it leaves the
buffer empty and in input mode (`Restartable`).
-/

namespace ShakeAccel

open KeccakBuffer

/-! ## The buffer -/

namespace KeccakBuffer

section
variable {b : KeccakBuffer} {i : BufferIn} {d : Vector Lane 21}

/-- The data have no effect on the other registers. -/
theorem clock_withData (b : KeccakBuffer) (i : BufferIn) (d : Vector Lane 21) :
    { b with bufferData := d }.clock i =
      { b.clock i with bufferData := b.nextData i d } := by
  obtain ⟨mode, full, cin, data, cout, valid⟩ := b
  cases mode <;> cases hl : (i.lastBlock && i.ready) <;>
    simp only [clock, nextData, hl, Bool.not_true, Bool.not_false, Bool.false_eq_true, if_true,
      if_false]
  all_goals
    repeat' split
    all_goals rfl

/-- No later word tells the data `d` from those of the buffer: they agree where the buffer is full,
on the words of a block that is not complete, and on the words that are shown on `dout`. -/
structure Alike (b : KeccakBuffer) (d : Vector Lane 21) : Prop where
  full : b.bufferFull = true → d = b.bufferData
  pending : ∀ j (hj : j < 21), 21 - b.countInWords ≤ j → d[j] = b.bufferData[j]
  shown : b.doutBufferOutValid = true → ∀ j (hj : j < 8), d[j] = b.bufferData[j]

theorem Alike.input (h : Alike b d) (hm : b.mode = false) (hin : b.countInWords ≤ 20)
    (hv : b.doutBufferOutValid = false) (i : BufferIn) :
    Alike (b.clock i) (b.nextData i d) := by
  rw [clock_input hm]
  by_cases hf : (b.bufferFull && i.ready) = true
  · simp only [nextData, hm, hf, Bool.not_false, if_true]
    exact ⟨fun h => absurd h Bool.false_ne_true, fun j hj hle => absurd hle (by simp only; omega),
      fun h' => absurd (hv.symm.trans h') Bool.false_ne_true⟩
  · by_cases hacc : (i.dinBufferInValid && !b.bufferFull) = true
    · have hlane : ∀ j (hj : j < 21), 20 - b.countInWords ≤ j →
          (shiftIn d i.dinBufferIn)[j] = (shiftIn b.bufferData i.dinBufferIn)[j] := by
        intro j hj hle
        simp only [shiftIn, Vector.getElem_ofFn]
        split
        · exact h.pending _ _ (by omega)
        · rfl
      simp only [nextData, hm, hf, hacc, Bool.not_false, Bool.false_eq_true, if_true, if_false]
      refine ⟨fun h20 => ?_, fun j hj hle => hlane j hj ?_,
        fun h' => absurd (hv.symm.trans h') Bool.false_ne_true⟩
      · have h20 : b.countInWords = 20 := of_decide_eq_true h20
        exact Vector.ext fun j hj => hlane j hj (by omega)
      · simp only at hle
        split at hle <;> omega
    · simp only [nextData, hm, hf, hacc, Bool.not_false, Bool.false_eq_true, if_true, if_false]
      exact ⟨h.full, h.pending, fun h' => absurd (hv.symm.trans h') Bool.false_ne_true⟩

theorem Alike.output (h : Alike b d) (hm : b.mode = true)
    (hv : b.doutBufferOutValid = decide (0 < b.countOutWords)) (i : BufferIn) :
    Alike (b.clock i) (b.nextData i d) := by
  by_cases h0 : b.countOutWords = 0
  · have hlane : ∀ j (hj : j < 21), (8 ≤ j → d[j] = b.bufferData[j]) →
        (loadOut d i.doutBufferIn)[j] = (loadOut b.bufferData i.doutBufferIn)[j] := by
      intro j hj hle
      simp only [loadOut, Vector.getElem_ofFn]
      split
      · rfl
      · exact hle (by omega)
    have hnext : b.nextData i d = loadOut d i.doutBufferIn := by simp [nextData, hm, h0]
    rw [clock_load hm h0, hnext]
    refine ⟨fun hf => ?_, fun j hj hle => hlane j hj fun _ => h.pending j hj hle,
      fun _ j hj => hlane j (by omega) fun h8 => absurd h8 (by omega)⟩
    rw [h.full hf]
  · by_cases h8 : b.countOutWords < 8
    · have hlane : ∀ j (hj : j < 21), (∀ (hj' : j + 1 < 8), d[j + 1] = b.bufferData[j + 1]) →
          (7 ≤ j → d[j] = b.bufferData[j]) →
          (shiftOut d)[j] = (shiftOut b.bufferData)[j] := by
        intro j hj hlo hhi
        simp only [shiftOut, Vector.getElem_ofFn]
        split
        · exact hlo (by omega)
        · exact hhi (by omega)
      have hshown := h.shown (hv.trans (decide_eq_true (by omega)))
      have hnext : b.nextData i d = shiftOut d := by simp [nextData, hm, h0, h8]
      rw [clock_shift hm (by omega) h8, hnext]
      refine ⟨fun hf => ?_, fun j hj hle => hlane j hj (fun hj' => hshown _ hj')
        fun _ => h.pending j hj hle, fun _ j hj => hlane j (by omega) (fun hj' => hshown _ hj')
        fun _ => hshown j hj⟩
      rw [h.full hf]
    · have hnext : b.nextData i d = d := by simp [nextData, hm, h0, h8]
      rw [clock_finish hm (by omega), hnext]
      exact ⟨h.full, h.pending, fun h => absurd h Bool.false_ne_true⟩

end

end KeccakBuffer

/-! ## The core -/

namespace Keccak

/-- What a cycle shows: the flags, the word on `dout` while `dout_valid` is high, and the state
while no permutation is running. -/
structure Outputs where
  bufferFull : Bool
  ready : Bool
  doutValid : Bool
  dout : Option Lane
  state : Option KState
deriving DecidableEq

def outputs (s : Keccak) : Outputs where
  bufferFull := s.bufferFull
  ready := s.ready
  doutValid := s.doutValid
  dout := if s.doutValid then some s.dout else none
  state := if s.ready then some s.regData else none

/-- The core with other data in its buffer. -/
def withData (s : Keccak) (d : Vector Lane 21) : Keccak :=
  { s with bufferIn := { s.bufferIn with bufferData := d } }

/-- Two cores that no later inputs tell apart. -/
def Indistinct (s t : Keccak) : Prop :=
  ∃ d, t = s.withData d ∧ s.bufferIn.Alike d ∧ s.bufferIn.WellCounted

section
variable {s t : Keccak} {i : KeccakIn} {d : Vector Lane 21}

/-- The round reads the buffer only when it is full. -/
theorem roundOut_withData (h : s.bufferIn.Alike d) : (s.withData d).roundOut = s.roundOut := by
  cases hf : s.bufferIn.bufferFull with
  | true => rw [h.full hf]; rfl
  | false =>
    simp only [roundOut, withData, hf, Bool.false_and, roundIn_false]

theorem clock_withData (h : s.bufferIn.Alike d) (i : KeccakIn) :
    (s.withData d).clock i =
      (s.clock i).withData (s.bufferIn.nextData (s.toBuffer i) d) := by
  have hbuf := KeccakBuffer.clock_withData s.bufferIn (s.toBuffer i) d
  have hmain : (s.withData d).clockMain i = (s.clockMain i).withData d := by
    simp only [clockMain, roundOut_withData h]
    cases i.start with
    | true => rfl
    | false =>
      cases hf : s.bufferIn.bufferFull <;> cases hp : s.permutationComputed <;>
        by_cases h23 : s.counterNrRounds = 23 <;> by_cases h24 : s.counterNrRounds < 24 <;>
        simp [withData, hf, hp, h23, h24]
  rw [Keccak.clock, Keccak.clock, hmain]
  simp only [withData] at hbuf ⊢
  rw [← hbuf]
  rfl

/-- **A cycle keeps two cores indistinct.** -/
theorem Indistinct.clock (h : Indistinct s t) (i : KeccakIn) :
    Indistinct (s.clock i) (t.clock i) := by
  obtain ⟨d, rfl, hd, hw⟩ := h
  refine ⟨_, clock_withData hd i, ?_, hw.clock (s.toBuffer i)⟩
  cases hm : s.bufferIn.mode with
  | false =>
    have hv : s.bufferIn.doutBufferOutValid = false := by
      rw [hw.valid, hw.idle hm]
      rfl
    exact hd.input hm hw.countIn hv (s.toBuffer i)
  | true => exact hd.output hm hw.valid (s.toBuffer i)

theorem Indistinct.outputs (h : Indistinct s t) : t.outputs = s.outputs := by
  obtain ⟨d, rfl, hd, -⟩ := h
  have hdout : (if s.doutValid then some (s.withData d).dout else none) =
      if s.doutValid then some s.dout else none := by
    cases hv : s.doutValid with
    | false => rfl
    | true => exact congrArg some (hd.shown hv 0 (by decide))
  exact congrArg (fun x => (⟨s.bufferFull, s.ready, s.doutValid, x, _⟩ : Outputs)) hdout

/-! ## After the start pulse -/

/-- The states in which a start pulse re-initialises the core: in output mode the last cycle of the
readout, with nothing waiting in the buffer; in input mode a full buffer that is being absorbed, or
a buffer without a word. -/
def Restartable (s : Keccak) : Prop :=
  if s.bufferIn.mode then
    s.bufferIn.countOutWords = 8 ∧ s.bufferFull = false ∧ s.bufferIn.countInWords = 0
  else if s.bufferFull then s.ready = true
  else s.bufferIn.countInWords = 0

instance (s : Keccak) : Decidable s.Restartable := by
  unfold Restartable
  infer_instance

/-- A start pulse that comes without a word and without `last_block`. -/
structure StartPulse (i : KeccakIn) : Prop where
  start : i.start = true
  dinValid : i.dinValid = false
  lastBlock : i.lastBlock = false

theorem StartPulse.clockMain (hi : StartPulse i) (s : Keccak) :
    s.clockMain i =
      { s with regData := .zero, counterNrRounds := 0, permutationComputed := true } :=
  clockMain_start hi.start

theorem StartPulse.clock (hi : StartPulse i) (s : Keccak) :
    s.clock i =
      { regData := .zero, counterNrRounds := 0, permutationComputed := true
        bufferIn := s.bufferIn.clock (s.toBuffer i) } := by
  rw [Keccak.clock, hi.clockMain]

theorem StartPulse.noLast (hi : StartPulse i) (s : Keccak) :
    ((s.toBuffer i).lastBlock && (s.toBuffer i).ready) = false := by
  rw [show (s.toBuffer i).lastBlock = i.lastBlock from rfl, hi.lastBlock, Bool.false_and]

theorem StartPulse.noWord (hi : StartPulse i) (s : Keccak) :
    ((s.toBuffer i).dinBufferInValid && !s.bufferIn.bufferFull) = false := by
  rw [show (s.toBuffer i).dinBufferInValid = i.dinValid from rfl, hi.dinValid, Bool.false_and]

/-- A core without a running permutation and without a word in the buffer is the reset core, up to
the data in the buffer. -/
theorem Indistinct.of_empty (hreg : s.regData = .zero) (hc : s.counterNrRounds = 0)
    (hr : s.ready = true) (hm : s.bufferIn.mode = false) (hf : s.bufferFull = false)
    (hin : s.bufferIn.countInWords = 0) (hw : s.bufferIn.WellCounted) : Indistinct reset s := by
  have hout := hw.idle hm
  have hv : s.bufferIn.doutBufferOutValid = false := by
    rw [hw.valid, hout]
    rfl
  refine ⟨s.bufferIn.bufferData, ?_,
    ⟨fun h => absurd h Bool.false_ne_true, fun j hj hle => absurd hle (Nat.not_le.2 hj),
      fun h => absurd h Bool.false_ne_true⟩,
    ⟨Nat.zero_le _, Nat.zero_le _, fun _ => rfl, rfl⟩⟩
  obtain ⟨reg, counter, computed, mode, full, cin, data, cout, valid⟩ := s
  simp only [ready, bufferFull] at *
  subst hreg hc hr hm hf hin hout hv
  rfl

/-- A start pulse in a restartable state leaves such a core. -/
theorem Restartable.start (h : s.Restartable) (hw : s.bufferIn.WellCounted) (hi : StartPulse i) :
    Indistinct reset (s.clock i) := by
  have hw' := hw.clock (s.toBuffer i)
  rw [hi.clock]
  unfold Restartable at h
  cases hm : s.bufferIn.mode with
  | true =>
    rw [hm, if_pos rfl] at h
    have hbuf := KeccakBuffer.clock_finish (i := s.toBuffer i) hm (Nat.le_of_eq h.1.symm)
    exact .of_empty rfl rfl rfl (by rw [hbuf]) (by rw [bufferFull, hbuf]; exact h.2.1)
      (by rw [hbuf]; exact h.2.2) hw'
  | false =>
    rw [hm, if_neg Bool.false_ne_true] at h
    cases hf : s.bufferFull with
    | true =>
      rw [hf, if_pos rfl] at h
      have hbuf := KeccakBuffer.clock_absorb (i := s.toBuffer i) hm (hi.noLast s) hf h
      exact .of_empty rfl rfl rfl (by rw [hbuf]; exact hm) (by rw [bufferFull, hbuf])
        (by rw [hbuf]) hw'
    | false =>
      rw [hf, if_neg Bool.false_ne_true] at h
      have hfr : (s.bufferIn.bufferFull && (s.toBuffer i).ready) = false := by
        rw [show s.bufferIn.bufferFull = false from hf, Bool.false_and]
      have hbuf := KeccakBuffer.clock_hold hm (hi.noLast s) hfr (hi.noWord s)
      exact .of_empty rfl rfl rfl (by rw [hbuf]; exact hm) (by rw [bufferFull, hbuf]; exact hf)
        (by rw [hbuf]; exact h) hw'

/-! ## What a start pulse leaves behind -/

/-- A cycle that offers a word. -/
def offer : KeccakIn := ⟨false, 0, true, false⟩

/-- Words that do not overfill the buffer are all accepted. -/
theorem run_offer {ws : List Lane} (h : Refines ⟨.zero, 0, ws⟩ s) {n : Nat}
    (hn : ws.length + n ≤ 21) :
    Refines ⟨.zero, 0, ws ++ List.replicate n 0⟩
      (Machine.run clock s (List.replicate n offer)) := by
  induction n generalizing s ws with
  | zero => simpa using h
  | succ n ih =>
    have hne : ¬(ws.length = 21 ∧ (0 : Nat) = 0) := by omega
    have hfull : s.bufferFull = false := by
      rw [bufferFull, h.full]
      exact decide_eq_false (by simp only; omega)
    have hacc : s.accepted offer = some 0 := by
      simp [accepted, offer, hfull, h.mode]
    have hstep := h.clock (i := offer) rfl rfl
    rw [hacc, SpongeCore.step, if_neg hne] at hstep
    have hlen : (ws ++ [0]).length + n ≤ 21 := by
      rw [List.length_append, List.length_singleton]
      omega
    have hnext : Refines ⟨.zero, 0, ws ++ [0]⟩ (s.clock offer) := hstep
    have hrun := ih hnext hlen
    rwa [List.append_assoc, List.singleton_append, ← List.replicate_succ] at hrun

/-- The words of a block that is not complete, in an idle core. -/
theorem refines_partial (hreg : s.regData = .zero) (hc : s.counterNrRounds = 0)
    (hr : s.ready = true) (hm : s.bufferIn.mode = false) (hf : s.bufferFull = false)
    (hw : s.bufferIn.WellCounted) :
    Refines ⟨.zero, 0, s.bufferIn.bufferData.toList.drop (21 - s.bufferIn.countInWords)⟩ s := by
  have hin := hw.countIn
  have hlen : (s.bufferIn.bufferData.toList.drop (21 - s.bufferIn.countInWords)).length =
      s.bufferIn.countInWords := by
    rw [List.length_drop, Vector.length_toList]
    omega
  have hout := hw.idle hm
  exact
    { mode := hm
      countOut := hout
      valid := by rw [hw.valid, hout]; rfl
      full := by
        simp only [hlen]
        exact hf.trans (decide_eq_false (by omega)).symm
      countIn := by
        simp only [hlen]
        omega
      le := by simp only [hlen]; omega
      data := by simp only [hlen]
      lt := (by decide : 0 < 24)
      counter := hc
      computed := hr
      reg := hreg }

/-- Words that are left in the buffer complete a block too early. -/
theorem countIn_of_outputs (hreg : s.regData = .zero) (hc : s.counterNrRounds = 0)
    (hr : s.ready = true) (hm : s.bufferIn.mode = false) (hf : s.bufferFull = false)
    (hw : s.bufferIn.WellCounted)
    (hobs : ∀ ins, (Machine.run Keccak.clock s ins).outputs =
      (Machine.run Keccak.clock reset ins).outputs) : s.bufferIn.countInWords = 0 := by
  by_contra hne
  have hin := hw.countIn
  have hrefines := refines_partial hreg hc hr hm hf hw
  have hlen : (s.bufferIn.bufferData.toList.drop (21 - s.bufferIn.countInWords)).length =
      s.bufferIn.countInWords := by
    rw [List.length_drop, Vector.length_toList]
    omega
  have hs := (run_offer hrefines (n := 21 - s.bufferIn.countInWords) (by rw [hlen]; omega)).full
  have ht := (run_offer Refines.reset (n := 21 - s.bufferIn.countInWords) (by simp)).full
  have hfull := congrArg Outputs.bufferFull
    (hobs (List.replicate (21 - s.bufferIn.countInWords) offer))
  simp only [outputs, bufferFull, hs, ht, List.length_append, hlen, List.length_replicate,
    List.length_nil] at hfull
  have := decide_eq_decide.1 hfull
  omega

/-- If a start pulse re-initialises the core, the state was restartable. -/
theorem restartable_of_outputs (hw : s.bufferIn.WellCounted) (hi : StartPulse i)
    (hobs : ∀ ins, (Machine.run Keccak.clock (s.clock i) ins).outputs =
      (Machine.run Keccak.clock reset ins).outputs) : s.Restartable := by
  have hw' := hw.clock (s.toBuffer i)
  rw [hi.clock] at hobs
  have hfull : (s.bufferIn.clock (s.toBuffer i)).bufferFull = false :=
    congrArg Outputs.bufferFull (hobs [])
  have hvalid : (s.bufferIn.clock (s.toBuffer i)).doutBufferOutValid = false :=
    congrArg Outputs.doutValid (hobs [])
  have hcount : (s.bufferIn.clock (s.toBuffer i)).mode = false →
      (s.bufferIn.clock (s.toBuffer i)).countInWords = 0 := by
    intro hm'
    exact countIn_of_outputs (s := ⟨.zero, 0, true, s.bufferIn.clock (s.toBuffer i)⟩) rfl rfl rfl
      hm' hfull hw' hobs
  unfold Restartable
  cases hm : s.bufferIn.mode with
  | true =>
    rw [if_pos rfl]
    by_cases h8 : 8 ≤ s.bufferIn.countOutWords
    · have hbuf := KeccakBuffer.clock_finish (i := s.toBuffer i) hm h8
      rw [hbuf] at hfull hcount
      exact ⟨Nat.le_antisymm hw.countOut h8, hfull, hcount rfl⟩
    · by_cases h0 : s.bufferIn.countOutWords = 0
      · rw [KeccakBuffer.clock_load hm h0] at hvalid
        exact absurd hvalid.symm Bool.false_ne_true
      · rw [KeccakBuffer.clock_shift hm (by omega) (by omega)] at hvalid
        exact absurd hvalid.symm Bool.false_ne_true
  | false =>
    rw [if_neg Bool.false_ne_true]
    have hhold : (s.bufferIn.bufferFull && (s.toBuffer i).ready) = false →
        s.bufferIn.clock (s.toBuffer i) = s.bufferIn := fun hfr =>
      KeccakBuffer.clock_hold hm (hi.noLast s) hfr (hi.noWord s)
    cases hf : s.bufferFull with
    | true =>
      rw [if_pos rfl]
      by_contra hr
      rw [hhold (by rw [show (s.toBuffer i).ready = s.ready from rfl,
        Bool.eq_false_iff.2 hr, Bool.and_false])] at hfull
      exact absurd (hf.symm.trans hfull) (by decide)
    | false =>
      rw [if_neg Bool.false_ne_true]
      rw [hhold (by rw [show s.bufferIn.bufferFull = false from hf, Bool.false_and])] at hcount
      exact hcount hm

/-- **When a start pulse re-initialises the core.** After a start pulse in a reachable state the
core shows what it would show after reset, under all later inputs, if and only if the state was
restartable. -/
theorem start_reinitialises_iff (h : s.Reachable) (hi : StartPulse i) :
    (∀ ins, (Machine.run Keccak.clock (s.clock i) ins).outputs =
      (Machine.run Keccak.clock reset ins).outputs) ↔ s.Restartable := by
  constructor
  · exact restartable_of_outputs h.wellCounted hi
  · intro hrestart ins
    exact (Machine.run_related (fun _ _ i h => h.clock i)
      (hrestart.start h.wellCounted hi) ins).outputs

end

/-- A start pulse after a block, while the buffer is empty. -/
theorem start_reinitialises_iff_one_block :
    (Machine.run clock ((Machine.run clock reset KeccakIn.oneBlock).clock ⟨true, 0, false, false⟩)
        KeccakIn.oneBlock).outputs =
      (Machine.run clock reset KeccakIn.oneBlock).outputs :=
  (start_reinitialises_iff ⟨KeccakIn.oneBlock, rfl⟩ ⟨rfl, rfl, rfl⟩).2 (by decide +kernel)
    KeccakIn.oneBlock

/-- A word that is in the buffer at the start pulse completes the next block one word early. -/
theorem start_does_not_reinitialise :
    (Machine.run clock ((reset.clock offer).clock ⟨true, 0, false, false⟩)
        (List.replicate 20 offer)).outputs ≠
      (Machine.run clock reset (List.replicate 20 offer)).outputs :=
  fun h => absurd (congrArg Outputs.bufferFull h) (by decide +kernel)

end Keccak

end ShakeAccel
