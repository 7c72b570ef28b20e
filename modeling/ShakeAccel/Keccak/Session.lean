import ShakeAccel.Keccak.Stream

/-!
# Sessions of the core

A session begins with a reset or a start pulse, offers words in any schedule and ends with
`last_block`. `core_implements_sponge` is the core's contract over a whole session: the state is
the sponge state of the accepted words, and the digest comes out in eight consecutive cycles.
-/

namespace ShakeAccel

namespace Keccak

/-- The words accepted over a run, in order. -/
def acceptedWords (s : Keccak) (ins : List KeccakIn) : List Lane :=
  Machine.collect clock (fun s i => (s.accepted i).toList) s ins

/-- A state that the core reaches from reset under some inputs. -/
def Reachable (s : Keccak) : Prop := ∃ ins, s = Machine.run clock reset ins

/-- In input mode the readout counter is back at 0 and `dout_valid` is low. -/
def OutputIdle (s : Keccak) : Prop :=
  s.bufferIn.mode = false →
    s.bufferIn.countOutWords = 0 ∧ s.bufferIn.doutBufferOutValid = false

theorem Reachable.wellCounted {s : Keccak} (h : s.Reachable) : s.bufferIn.WellCounted := by
  obtain ⟨ins, rfl⟩ := h
  exact Machine.run_invariant (I := fun s : Keccak => s.bufferIn.WellCounted)
    (A := fun _ => True) (fun s i _ h => h.clock (s.toBuffer i))
    ⟨Nat.zero_le _, Nat.zero_le _, fun _ => rfl, rfl⟩ fun _ _ => trivial

theorem Reachable.outputIdle {s : Keccak} (h : s.Reachable) : s.OutputIdle := by
  intro hm
  have hout := h.wellCounted.idle hm
  refine ⟨hout, ?_⟩
  rw [h.wellCounted.valid, hout]
  rfl

/-- The states that a session starts from, with the words they already hold: the reset state, or
the state after a start pulse at a reachable core in input mode with an empty buffer. -/
def Begins (s : Keccak) (ws : List Lane) : Prop :=
  s = reset ∧ ws = [] ∨
    ∃ s' i, Reachable s' ∧ s'.bufferIn.mode = false ∧ s'.bufferFull = false ∧
      s'.bufferIn.countInWords = 0 ∧ i.start = true ∧ i.lastBlock = false ∧ s = s'.clock i ∧
      ws = (s'.accepted i).toList

end Keccak

open Keccak

/-- A start pulse at an empty buffer in input mode leaves the core of an empty message; a word
offered in the same cycle is accepted. -/
theorem Refines.of_start {s : Keccak} {i : KeccakIn} (h : s.OutputIdle)
    (hm : s.bufferIn.mode = false) (hf : s.bufferFull = false)
    (hc : s.bufferIn.countInWords = 0) (hs : i.start = true) (hl : i.lastBlock = false) :
    Refines ⟨.zero, 0, (s.accepted i).toList⟩ (s.clock i) := by
  obtain ⟨hout, hvalid⟩ := h hm
  have hlr : ((s.toBuffer i).lastBlock && (s.toBuffer i).ready) = false := by
    rw [show (s.toBuffer i).lastBlock = i.lastBlock from rfl, hl, Bool.false_and]
  rw [Keccak.clock, Keccak.clockMain_start hs]
  cases hv : i.dinValid with
  | true =>
    have hacc : s.accepted i = some i.din := by simp [accepted, hv, hf, hm]
    rw [hacc, KeccakBuffer.clock_accept hm hlr hf hv (by omega)]
    refine ⟨hm, hout, hvalid, by simp [hc], by simp [hc], by simp, ?_, (by decide : 0 < 24), rfl,
      rfl, rfl⟩
    simp only [KeccakBuffer.toList_shiftIn, Option.toList_some, List.length_cons, List.length_nil]
    rw [List.drop_append_of_le_length (by simp), List.drop_of_length_le (by simp)]
    rfl
  | false =>
    have hacc : s.accepted i = none := by simp [accepted, hv]
    have hdv : ((s.toBuffer i).dinBufferInValid && !s.bufferIn.bufferFull) = false := by
      rw [show (s.toBuffer i).dinBufferInValid = i.dinValid from rfl, hv, Bool.false_and]
    have hfr : (s.bufferIn.bufferFull && (s.toBuffer i).ready) = false := by
      rw [show s.bufferIn.bufferFull = false from hf, Bool.false_and]
    rw [hacc, KeccakBuffer.clock_hold hm hlr hfr hdv]
    exact ⟨hm, hout, hvalid, hf, hc, Nat.zero_le _, List.drop_of_length_le (by simp),
      (by decide : 0 < 24), rfl, rfl, rfl⟩

/-- A session starts with an abstract core that holds the words accepted so far. -/
theorem Keccak.Begins.refines {s : Keccak} {ws : List Lane} (h : s.Begins ws) :
    ∃ a, Refines a s ∧ a.Holds ws := by
  rcases h with ⟨rfl, rfl⟩ | ⟨s', i, hr, hm, hf, hc, hs, hl, rfl, rfl⟩
  · exact ⟨_, .reset, SpongeCore.holds_nil⟩
  · exact ⟨_, .of_start hr.outputIdle hm hf hc hs hl, 0, Nat.zero_le _, rfl, rfl⟩

/-- The inputs of a session before `last_block`, and after it. -/
def Feeding (i : KeccakIn) : Prop := i.start = false ∧ i.lastBlock = false

/-- **The stream invariant.** Over any schedule of offered words the core refines an abstract core
that holds exactly the accepted words. -/
theorem run_holds {s : Keccak} {a : SpongeCore} {ws : List Lane} (h : Refines a s)
    (hw : a.Holds ws) {ins : List KeccakIn} (hins : ∀ i ∈ ins, Feeding i) :
    ∃ a', Refines a' (Machine.run clock s ins) ∧ a'.Holds (ws ++ s.acceptedWords ins) := by
  induction ins generalizing s a ws with
  | nil => exact ⟨a, h, by simpa [acceptedWords, Machine.collect] using hw⟩
  | cons i ins ih =>
    obtain ⟨hs, hl⟩ := hins i (.head _)
    have hlr : (i.lastBlock && s.ready) = false := by rw [hl, Bool.false_and]
    obtain ⟨a', hr, hh⟩ := ih (h.clock hs hlr)
      (hw.step (w := s.accepted i) h.accepted_none) fun j hj => hins j (.tail _ hj)
    refine ⟨a', hr, ?_⟩
    rwa [List.append_assoc] at hh

/-- The readout: `k` cycles after `last_block` the core shifts out word `k-1`, and from the ninth
cycle on it is back in input mode. -/
theorem run_readout {H : KState} {s : Keccak} (h : Shifting H 0 s) {out : List KeccakIn}
    (hout : ∀ i ∈ out, Feeding i) {k : Nat} (hk : k ≤ out.length) :
    if k ≤ 8 then Shifting H k (Machine.run clock s (out.take k))
    else ∃ a, Refines a (Machine.run clock s (out.take k)) := by
  induction k with
  | zero => exact h
  | succ k ih =>
    have hi := hout out[k] (List.getElem_mem _)
    have hprev := ih (by omega)
    rw [List.take_succ_eq_append_getElem (by omega), Machine.run_append, Machine.run_cons,
      Machine.run_nil]
    by_cases h8 : k ≤ 8
    · rw [if_pos h8] at hprev
      by_cases h7 : k + 1 ≤ 8
      · rw [if_pos h7]
        exact hprev.clock hi.1 (by omega)
      · obtain rfl : k = 8 := by omega
        rw [if_neg h7]
        exact ⟨_, hprev.finish hi.1⟩
    · rw [if_neg h8] at hprev
      rw [if_neg (by omega)]
      obtain ⟨a, ha⟩ := hprev
      exact ⟨_, ha.clock hi.1 (by rw [hi.2, Bool.false_and])⟩

/-- **The core implements the sponge of rate 1344.** A session over any schedule of offered words:
whenever the core is idle, its state has absorbed every complete block of accepted words exactly
once and in order; at `last_block` that is the sponge state of all `n` blocks (24 rounds of the
netlist each, which is the software permutation); then `dout_valid` is high in exactly eight
consecutive cycles, in which `dout` shows the lanes 0 to 7 of that state. -/
theorem core_implements_sponge {s : Keccak} {ws : List Lane} (hbegin : s.Begins ws) {n : Nat}
    (_hn : 1 ≤ n) (ins : List KeccakIn) (hins : ∀ i ∈ ins, Feeding i)
    (hlen : (ws ++ s.acceptedWords ins).length = 21 * n) (last : KeccakIn)
    (hstart : last.start = false) (hlast : last.lastBlock = true) (hvalid : last.dinValid = false)
    (hready : (Machine.run clock s ins).ready = true)
    (hfull : (Machine.run clock s ins).bufferFull = false) (out : List KeccakIn)
    (hout : ∀ i ∈ out, Feeding i) :
    (∀ pre, pre <+: ins →
      (Machine.run clock s pre).doutValid = false ∧
      ((Machine.run clock s pre).ready = true → (Machine.run clock s pre).bufferFull = false →
        (Machine.run clock s pre).regData =
          absorbBlocks .zero (Sponge.blocks 21 ((ws ++ s.acceptedWords pre).length / 21)
            (ws ++ s.acceptedWords pre)))) ∧
    (Machine.run clock s ins).regData =
      absorbBlocks .zero (Sponge.blocks 21 n (ws ++ s.acceptedWords ins)) ∧
    (Machine.run clock s ins).regData.toWords =
      Sponge.absorb keccakF1600StatePermute xorWords (Vector.replicate 25 0)
        (Sponge.blocks 21 n (ws ++ s.acceptedWords ins)) ∧
    ∀ k ≤ out.length,
      (Machine.run clock ((Machine.run clock s ins).clock last) (out.take k)).doutValid =
          decide (1 ≤ k ∧ k ≤ 8) ∧
        ∀ j, (hj : j < 8) → k = j + 1 →
          (Machine.run clock ((Machine.run clock s ins).clock last) (out.take k)).dout =
            (Machine.run clock s ins).regData.toWords[j] := by
  obtain ⟨a, ha, hw⟩ := hbegin.refines
  have hpre : ∀ pre, pre <+: ins →
      (Machine.run clock s pre).doutValid = false ∧
      ((Machine.run clock s pre).ready = true → (Machine.run clock s pre).bufferFull = false →
        (Machine.run clock s pre).regData =
          absorbBlocks .zero (Sponge.blocks 21 ((ws ++ s.acceptedWords pre).length / 21)
            (ws ++ s.acceptedWords pre))) := by
    intro pre hpre
    obtain ⟨a', ha', hw'⟩ := run_holds ha hw fun i hi => hins i (hpre.subset hi)
    refine ⟨ha'.valid, fun hr hf => ?_⟩
    obtain ⟨h0, hp, hreg⟩ := ha'.idle_of_ready hr hf
    rw [hreg, hw'.idle h0 hp]
  have hdiv : (ws ++ s.acceptedWords ins).length / 21 = n := by omega
  have hreg := (hpre ins List.prefix_rfl).2 hready hfull
  rw [hdiv] at hreg
  refine ⟨hpre, hreg, by rw [hreg, absorbBlocks_toWords], fun k hk => ?_⟩
  -- at `last_block` the abstract core is idle with nothing pending
  obtain ⟨a', ha', m, hm, hpend, -⟩ := run_holds ha hw hins
  obtain ⟨h0, hp, hbase⟩ := ha'.idle_of_ready hready hfull
  have hnil : a'.pending = [] := by
    rw [hpend] at hp ⊢
    rw [List.length_drop] at hp
    exact List.drop_of_length_le (by omega)
  have hidle : Refines ⟨(Machine.run clock s ins).regData, 0, []⟩ (Machine.run clock s ins) := by
    obtain ⟨base, rounds, pending⟩ := a'
    obtain rfl : rounds = 0 := h0
    obtain rfl : pending = [] := hnil
    rw [hbase]
    exact ha'
  have hk' := run_readout (hidle.turn hstart hlast hvalid) hout hk
  by_cases h8 : k ≤ 8
  · rw [if_pos h8] at hk'
    refine ⟨?_, ?_⟩
    · rw [hk'.doutValid]
      exact decide_eq_decide.2 (by omega)
    · rintro j hj rfl
      exact hk'.dout hj
  · rw [if_neg h8] at hk'
    obtain ⟨b, hb⟩ := hk'
    refine ⟨?_, by omega⟩
    rw [decide_eq_false (by omega)]
    exact hb.valid

/-- 21 words back to back, then 25 cycles that offer nothing. -/
def KeccakIn.oneBlock : List KeccakIn :=
  (List.range 21).map (fun k => ⟨false, BitVec.ofNat 64 k, true, false⟩) ++
    List.replicate 25 ⟨false, 0, false, false⟩

/-- One block from reset: `dout_valid` is high from the first to the eighth of ten cycles. -/
theorem core_implements_sponge_one_block :
    (Machine.run clock reset KeccakIn.oneBlock).regData.toWords =
        Sponge.absorb keccakF1600StatePermute xorWords (Vector.replicate 25 0)
          (Sponge.blocks 21 1 ([] ++ reset.acceptedWords KeccakIn.oneBlock)) ∧
      ∀ k ≤ 10,
        (Machine.run clock
            ((Machine.run clock reset KeccakIn.oneBlock).clock ⟨false, 0, false, true⟩)
            ((List.replicate 10 ⟨false, 0, false, false⟩).take k)).doutValid =
          decide (1 ≤ k ∧ k ≤ 8) := by
  have h := core_implements_sponge (.inl ⟨rfl, rfl⟩) (Nat.le_refl 1) KeccakIn.oneBlock
    (by simp [KeccakIn.oneBlock, Feeding]; rintro i (⟨k, -, rfl⟩ | rfl) <;> exact ⟨rfl, rfl⟩)
    (by decide +kernel) ⟨false, 0, false, true⟩ rfl rfl rfl (by decide +kernel)
    (by decide +kernel) (List.replicate 10 ⟨false, 0, false, false⟩)
    (fun i hi => by rw [List.eq_of_mem_replicate hi]; exact ⟨rfl, rfl⟩)
  exact ⟨h.2.2.1, fun k hk => (h.2.2.2 k (by simpa using hk)).1⟩

end ShakeAccel
