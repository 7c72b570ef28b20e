import ShakeAccel.Keccak.Session

/-!
# The control registers of the core

Whatever the inputs do, the round counter, the word counters and the flags stay consistent
(`Controlled`). `permutation_computed` and the round counter say the same thing, so a block that is
absorbed gets its 24 rounds (`Permuting`) unless a start pulse comes in between.
-/

namespace ShakeAccel

namespace Keccak

/-- The control registers of both processes are consistent. -/
structure Controlled (s : Keccak) : Prop where
  computed : s.permutationComputed = true ↔ s.counterNrRounds = 0
  rounds : s.counterNrRounds ≤ 23
  buffer : s.bufferIn.WellCounted
  full : s.bufferFull = true → s.bufferIn.countInWords = 0

/-- What a rising edge of `p_main` can do to a controlled core. -/
inductive Edge (s : Keccak) (i : KeccakIn) : Keccak → Prop
  | start : i.start = true →
      Edge s i { s with regData := .zero, counterNrRounds := 0, permutationComputed := true }
  | absorb : i.start = false → s.bufferFull = true → s.ready = true → s.counterNrRounds = 0 →
      Edge s i { s with regData := s.roundOut, counterNrRounds := 1, permutationComputed := false }
  | round : i.start = false → s.ready = false → 0 < s.counterNrRounds → s.counterNrRounds < 23 →
      Edge s i { s with regData := s.roundOut, counterNrRounds := s.counterNrRounds + 1 }
  | last : i.start = false → s.ready = false → s.counterNrRounds = 23 →
      Edge s i { s with regData := s.roundOut, counterNrRounds := 0, permutationComputed := true }
  | idle : i.start = false → s.bufferFull = false → s.ready = true → s.counterNrRounds = 0 →
      Edge s i s

variable {s : Keccak} {i : KeccakIn}

theorem Controlled.edge (h : s.Controlled) (i : KeccakIn) : Edge s i (s.clockMain i) := by
  have h23 := h.rounds
  cases hs : i.start with
  | true =>
    rw [clockMain_start hs]
    exact .start hs
  | false =>
    cases hc : s.permutationComputed with
    | true =>
      have h0 := h.computed.1 hc
      cases hf : s.bufferIn.bufferFull with
      | true =>
        rw [clockMain_absorb hs hf hc]
        exact .absorb hs hf hc h0
      | false =>
        rw [clockMain_idle hs hc hf h0]
        exact .idle hs hf hc h0
    | false =>
      have h0 : s.counterNrRounds ≠ 0 := fun h0 =>
        absurd (h.computed.2 h0) (Bool.eq_false_iff.1 hc)
      by_cases hlast : s.counterNrRounds = 23
      · rw [clockMain_last hs hc hlast]
        exact .last hs hc hlast
      · rw [clockMain_round hs hc (by omega)]
        exact .round hs hc (by omega) (by omega)

theorem Edge.consistent {t : Keccak} (e : Edge s i t) (h : s.Controlled) :
    (t.permutationComputed = true ↔ t.counterNrRounds = 0) ∧ t.counterNrRounds ≤ 23 := by
  cases e with
  | start => exact ⟨iff_of_true rfl rfl, Nat.zero_le _⟩
  | absorb => exact ⟨iff_of_false Bool.false_ne_true Nat.one_ne_zero, (by decide : 1 ≤ 23)⟩
  | round _ hr _ hlt =>
    exact ⟨iff_of_false (Bool.eq_false_iff.1 hr) (Nat.succ_ne_zero _), hlt⟩
  | last => exact ⟨iff_of_true rfl rfl, Nat.zero_le _⟩
  | idle => exact ⟨h.computed, h.rounds⟩

theorem Controlled.clock (h : s.Controlled) (i : KeccakIn) : (s.clock i).Controlled := by
  obtain ⟨hcomputed, hrounds⟩ := (h.edge i).consistent h
  exact ⟨hcomputed, hrounds, h.buffer.clock (s.toBuffer i),
    KeccakBuffer.clock_full h.full (s.toBuffer i)⟩

theorem Controlled.reset : Controlled .reset where
  computed := iff_of_true rfl rfl
  rounds := Nat.zero_le _
  buffer := Reachable.wellCounted ⟨[], rfl⟩
  full := fun _ => rfl

theorem Reachable.controlled (h : s.Reachable) : s.Controlled := by
  obtain ⟨ins, rfl⟩ := h
  exact Machine.run_invariant (A := fun _ => True) (fun _ i _ h => h.clock i) .reset
    fun _ _ => trivial

/-! ## The rounds of a block -/

/-- The number of the round constant with which a cycle assigns `round_out` to the state, if it
does. -/
def roundApplied (s : Keccak) (i : KeccakIn) : Option Nat :=
  if i.start then none
  else if s.bufferIn.bufferFull && s.permutationComputed then some s.counterNrRounds
  else if s.counterNrRounds < 24 ∧ !s.permutationComputed then some s.counterNrRounds
  else none

/-- A cycle assigns the round that it applies to the state; one that applies none keeps the state or
clears it. -/
theorem regData_clock (s : Keccak) (i : KeccakIn) :
    (s.clock i).regData =
      match s.roundApplied i with
      | some n =>
        keccakRound
          (roundIn s.regData s.bufferIn.bufferData
            (s.bufferIn.bufferFull && s.permutationComputed))
          (keccakRoundConstantsGen n)
      | none => if i.start then .zero else s.regData := by
  simp only [Keccak.clock, clockMain, roundApplied]
  by_cases hs : i.start = true
  · simp only [if_pos hs]
  · simp only [if_neg hs]
    by_cases hf : (s.bufferIn.bufferFull && s.permutationComputed) = true
    · simp only [if_pos hf, roundOut]
    · simp only [if_neg hf]
      by_cases hr : s.counterNrRounds < 24 ∧ (!s.permutationComputed) = true
      · simp only [if_pos hr, roundOut]
        split <;> rfl
      · simp only [if_neg hr]
        split <;> rfl

/-- The round constants that the cycles of a run use, in order. -/
def appliedRounds (s : Keccak) (ins : List KeccakIn) : List Nat :=
  Machine.collect clock (fun s i => (s.roundApplied i).toList) s ins

/-- The core `t` cycles after the one that absorbs a block into the state `base` to be permuted:
before that cycle for `t = 0`, with `t` rounds applied after it. -/
structure Permuting (base : KState) (t : Nat) (s : Keccak) : Prop where
  counter : s.counterNrRounds = t % 24
  computed : s.permutationComputed = decide (t % 24 = 0)
  absorbing : t = 0 → s.bufferFull = true ∧ xorBlock s.regData s.bufferIn.bufferData.toList = base
  reg : 0 < t → s.regData = applyRounds t base

section
variable {base : KState} {t : Nat}

theorem Controlled.permuting (h : s.Controlled) (hf : s.bufferFull = true)
    (hr : s.ready = true) :
    Permuting (xorBlock s.regData s.bufferIn.bufferData.toList) 0 s where
  counter := h.computed.1 hr
  computed := hr
  absorbing := fun _ => ⟨hf, rfl⟩
  reg := fun h0 => absurd h0 (Nat.lt_irrefl 0)

/-- The round that the next cycle applies. -/
theorem Permuting.roundApplied (h : Permuting base t s) (ht : t < 24) (hi : i.start = false) :
    s.roundApplied i = some t := by
  have hcounter : s.counterNrRounds = t := h.counter.trans (Nat.mod_eq_of_lt ht)
  have hcomputed := h.computed
  rw [Nat.mod_eq_of_lt ht] at hcomputed
  rw [Keccak.roundApplied, if_neg (Bool.eq_false_iff.1 hi), hcomputed, hcounter]
  by_cases h0 : t = 0
  · rw [if_pos]
    rw [decide_eq_true h0, Bool.and_true]
    exact (h.absorbing h0).1
  · rw [decide_eq_false h0, Bool.and_false, if_neg Bool.false_ne_true, if_pos ⟨ht, rfl⟩]

/-- The state that the next cycle stores. -/
theorem Permuting.roundOut (h : Permuting base t s) (ht : t < 24) :
    s.roundOut = applyRounds (t + 1) base := by
  have hcounter : s.counterNrRounds = t := h.counter.trans (Nat.mod_eq_of_lt ht)
  have hcomputed := h.computed
  rw [Nat.mod_eq_of_lt ht] at hcomputed
  rw [Keccak.roundOut, hcomputed, hcounter, applyRounds_succ]
  cases t with
  | zero =>
    obtain ⟨hf, hbase⟩ := h.absorbing rfl
    rw [show s.bufferIn.bufferFull = true from hf, decide_eq_true rfl, Bool.and_self,
      roundIn_true, hbase, applyRounds_zero]
  | succ t =>
    rw [decide_eq_false (Nat.succ_ne_zero t), Bool.and_false, roundIn_false,
      h.reg (Nat.succ_pos t)]

/-- **One cycle of a permutation.** -/
theorem Permuting.clock (h : Permuting base t s) (ht : t < 24) (hi : i.start = false) :
    Permuting base (t + 1) (s.clock i) := by
  have hcounter : s.counterNrRounds = t := h.counter.trans (Nat.mod_eq_of_lt ht)
  have hcomputed := h.computed
  have hround := h.roundOut ht
  rw [Nat.mod_eq_of_lt ht] at hcomputed
  rw [Keccak.clock]
  by_cases h0 : t = 0
  · subst h0
    rw [clockMain_absorb hi (h.absorbing rfl).1 hcomputed]
    exact ⟨rfl, rfl, fun h => absurd h Nat.one_ne_zero, fun _ => hround⟩
  · rw [decide_eq_false h0] at hcomputed
    by_cases h23 : t = 23
    · subst h23
      rw [clockMain_last hi hcomputed hcounter]
      exact ⟨rfl, rfl, fun h => absurd h (by decide), fun _ => hround⟩
    · have hmod : (t + 1) % 24 = t + 1 := Nat.mod_eq_of_lt (by omega)
      rw [clockMain_round hi hcomputed (by omega)]
      exact
        { counter := by rw [hmod]; exact congrArg (· + 1) hcounter
          computed := by
            rw [hmod, decide_eq_false (Nat.succ_ne_zero t)]
            exact hcomputed
          absorbing := fun h => absurd h (Nat.succ_ne_zero t)
          reg := fun _ => hround }

/-- The cycles of a permutation, from the one that absorbs the block on. -/
theorem Permuting.run (h : Permuting base 0 s) {ins : List KeccakIn}
    (hins : ∀ i ∈ ins, i.start = false) (hlen : ins.length ≤ 24) :
    s.appliedRounds ins = List.range ins.length ∧
      Permuting base ins.length (Machine.run Keccak.clock s ins) := by
  have hstep : ∀ t s i, t < 24 → KeccakIn.start i = false → Permuting base t s →
      Permuting base (t + 1) (s.clock i) := fun t s i ht hi h => h.clock ht hi
  have hout : ∀ t s i, t < 24 → KeccakIn.start i = false → Permuting base t s →
      (s.roundApplied i).toList = [t] := fun t s i ht hi h => by
    rw [h.roundApplied ht hi, Option.toList_some]
  constructor
  · rw [appliedRounds, Machine.collect_schedule hstep hout h hins (by omega),
      List.flatMap_singleton', List.range_eq_range']
  · have hrun := Machine.run_schedule hstep h hins (by omega)
    rwa [Nat.zero_add] at hrun

end

/-- An idle core without a full buffer applies no round. -/
theorem roundApplied_idle (hf : s.bufferFull = false) (hr : s.ready = true) :
    s.roundApplied i = none := by
  rw [roundApplied, show s.bufferIn.bufferFull = false from hf,
    show s.permutationComputed = true from hr]
  simp

/-- **The control invariant.** In every reachable state the round counter, the word counters and
the flags are consistent. From a cycle that absorbs a block on, with `start` low, the cycles apply
the rounds 0, 1, 2, ... of this block, and `ready` is low until all 24 are done; then a further
round is applied only if the next block is absorbed, and without one the state is kept until a start
pulse clears it. -/
theorem control_invariant (h : s.Reachable) :
    ((s.permutationComputed = true ↔ s.counterNrRounds = 0) ∧ s.counterNrRounds ≤ 23) ∧
    (s.bufferIn.countInWords ≤ 20 ∧ (s.bufferFull = true → s.bufferIn.countInWords = 0)) ∧
    (s.bufferIn.countOutWords ≤ 8 ∧
      (s.bufferIn.countOutWords ≠ 0 → s.bufferIn.mode = true) ∧
      (s.doutValid = true ↔ s.bufferIn.countOutWords ≠ 0)) ∧
    (s.bufferFull = true → s.ready = true → ∀ ins : List KeccakIn,
      (∀ i ∈ ins, i.start = false) → 1 ≤ ins.length → ins.length ≤ 24 →
      s.appliedRounds ins = List.range ins.length ∧
        (Machine.run clock s ins).regData =
          applyRounds ins.length (xorBlock s.regData s.bufferIn.bufferData.toList) ∧
        (Machine.run clock s ins).ready = decide (ins.length = 24) ∧
        (ins.length = 24 → (Machine.run clock s ins).bufferFull = false →
          ∀ i, (Machine.run clock s ins).roundApplied i = none ∧
            ((Machine.run clock s ins).clock i).regData =
              if i.start then .zero else (Machine.run clock s ins).regData)) := by
  have hc := h.controlled
  have hb := hc.buffer
  refine ⟨⟨hc.computed, hc.rounds⟩, ⟨hb.countIn, hc.full⟩, ⟨hb.countOut, ?_, ?_⟩, ?_⟩
  · intro hne
    by_contra hm
    exact hne (hb.idle (Bool.eq_false_iff.2 hm))
  · rw [doutValid, hb.valid, decide_eq_true_iff, Nat.pos_iff_ne_zero]
  · intro hf hr ins hins hpos hlen
    obtain ⟨hrounds, hrun⟩ := (hc.permuting hf hr).run hins hlen
    have hready : (Machine.run clock s ins).ready = decide (ins.length = 24) := by
      rw [ready, hrun.computed]
      exact decide_eq_decide.2 (by omega)
    refine ⟨hrounds, hrun.reg hpos, hready, fun h24 hempty i => ?_⟩
    have hidle := roundApplied_idle (i := i) hempty (hready.trans (decide_eq_true h24))
    refine ⟨hidle, ?_⟩
    rw [regData_clock, hidle]

/-- A block from reset, and the 24 cycles after its last word. -/
theorem control_invariant_one_block :
    (Machine.run clock reset (KeccakIn.oneBlock.take 21)).appliedRounds
        ((KeccakIn.oneBlock.drop 21).take 24) = List.range 24 ∧
      (Machine.run clock (Machine.run clock reset (KeccakIn.oneBlock.take 21))
        ((KeccakIn.oneBlock.drop 21).take 24)).ready = true := by
  obtain ⟨h, -, hr, -⟩ := (control_invariant ⟨KeccakIn.oneBlock.take 21, rfl⟩).2.2.2
    (by decide +kernel) (by decide +kernel) ((KeccakIn.oneBlock.drop 21).take 24)
    (by decide) (by decide) (by decide)
  exact ⟨h, hr⟩

end Keccak

end ShakeAccel
