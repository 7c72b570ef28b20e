import ShakeAccel.MidRange.Core

/-!
# Absorbing and squeezing on the mid-range core

In a cycle of `absorb` or `squeeze` the first fifteen lanes, `tmp` and lane `(3)(0)` form a ring:
the first lane moves to `(3)(0)`, XORed with the input when it is absorbed. A block has sixteen
words but the ring seventeen places, so a block takes seventeen cycles.
-/

namespace ShakeAccel.MidRange

/-- The inputs of a cycle that turns the ring. -/
def CoreIn.Turns (i : CoreIn) : Prop :=
  i.init = false ∧ i.go = false ∧ (i.absorb || i.squeeze) = true

/-- The word that enters the ring. -/
def CoreIn.word (i : CoreIn) : Lane := if i.absorb then i.din else 0

namespace Core

/-- The places of the ring. -/
def ring (c : Core) (k : Nat) : Lane :=
  if k < 15 then c.regData.lane (k / 5) (k % 5)
  else if k = 15 then c.tmp else c.regData.lane 3 0

/-- What a turn of the ring leaves as it is: the other lanes, the counters and the flags. The
parities in `theta_parity_reg`, which every edge clocks, are not compared. -/
def Rest (c c' : Core) : Prop :=
  (∀ y < 5, ∀ x < 5, 15 < 5 * y + x → c'.regData.lane y x = c.regData.lane y x) ∧
    c'.counterNrRounds = c.counterNrRounds ∧ c'.counterBlock = c.counterBlock ∧
    c'.permutationComputed = c.permutationComputed ∧ c'.firstRound = c.firstRound ∧
    c'.firstBlock = c.firstBlock

theorem Rest.trans {a b c : Core} (h : Rest a b) (h' : Rest b c) : Rest a c := by
  obtain ⟨h0, h1, h2, h3, h4, h5⟩ := h
  obtain ⟨h0', h1', h2', h3', h4', h5'⟩ := h'
  exact ⟨fun y hy x hx hk => (h0' y hy x hx hk).trans (h0 y hy x hx hk), h1'.trans h1,
    h2'.trans h2, h3'.trans h3, h4'.trans h4, h5'.trans h5⟩

theorem step_turn (c : Core) {i : CoreIn} (hi : i.Turns) : c.step i =
    { c with
      thetaParityReg := Bits.ofBits 5 c.chiIotaTheta.thetaParityOutp
      tmp := c.regData.lane 3 0
      regData := c.shiftLanes i } := by
  obtain ⟨h1, h2, h3⟩ := hi
  simp only [step, h1, h2, h3, Bool.false_eq_true, if_false, if_true]

/-- A turn moves every place on by one. -/
theorem ring_step (c : Core) {i : CoreIn} (hi : i.Turns) {k : Nat} (hk : k ≤ 16) :
    (c.step i).ring k = if k < 16 then c.ring (k + 1) else c.ring 0 ^^^ i.word := by
  rw [step_turn c hi]
  interval_cases k <;> rfl

theorem rest_step (c : Core) {i : CoreIn} (hi : i.Turns) : Rest c (c.step i) := by
  rw [step_turn c hi]
  refine ⟨fun y hy x hx hk => ?_, rfl, rfl, rfl, rfl, rfl⟩
  rw [shiftLanes, KState.lane_ofLanes hy hx, if_neg (by omega), if_neg (by omega),
    if_neg (by omega)]

/-- The ring after up to seventeen turns. -/
theorem ring_run (c : Core) {ins : List CoreIn} (hi : ∀ i ∈ ins, i.Turns)
    (hlen : ins.length ≤ 17) {k : Nat} (hk : k ≤ 16) :
    (Machine.run step c ins).ring k =
      if k + ins.length < 17 then c.ring (k + ins.length)
      else c.ring (k + ins.length - 17) ^^^ (ins.map CoreIn.word).getD (k + ins.length - 17) 0 := by
  induction ins generalizing c with
  | nil => rw [Machine.run_nil, List.length_nil, if_pos (by omega), Nat.add_zero]
  | cons i ins ih =>
    rw [List.length_cons] at hlen ⊢
    have hi0 := hi i (.head _)
    rw [Machine.run_cons, ih (c.step i) (fun j hj => hi j (.tail _ hj)) (by omega)]
    by_cases h16 : k + ins.length < 16
    · rw [if_pos (by omega), if_pos (by omega), ring_step c hi0 (by omega), if_pos h16,
        Nat.add_assoc]
    · rw [if_neg (show ¬k + (ins.length + 1) < 17 by omega)]
      by_cases heq : k + ins.length = 16
      · rw [if_pos (by omega), ring_step c hi0 (by omega), if_neg (by omega),
          show k + (ins.length + 1) - 17 = 0 by omega]
        rfl
      · rw [if_neg (by omega), ring_step c hi0 (by omega), if_pos (by omega),
          show k + (ins.length + 1) - 17 = k + ins.length - 17 + 1 by omega]
        rfl

theorem rest_run (c : Core) {ins : List CoreIn} (hi : ∀ i ∈ ins, i.Turns) :
    Rest c (Machine.run step c ins) := by
  induction ins generalizing c with
  | nil => exact ⟨fun _ _ _ _ _ => rfl, rfl, rfl, rfl, rfl, rfl⟩
  | cons i ins ih =>
    exact (rest_step c (hi i (.head _))).trans (ih _ fun j hj => hi j (.tail _ hj))

/-- The lanes after seventeen turns: every place is back, XORed with the word that came when it was
the first. -/
theorem lane_run (c : Core) {ins : List CoreIn} (hi : ∀ i ∈ ins, i.Turns) (hlen : ins.length = 17)
    {y x : Nat} (hy : y < 5) (hx : x < 5) :
    (Machine.run step c ins).regData.lane y x = c.regData.lane y x ^^^
      if 5 * y + x < 15 then (ins.map CoreIn.word).getD (5 * y + x) 0
      else if 5 * y + x = 15 then (ins.map CoreIn.word).getD 16 0 else 0 := by
  have hring := fun {k} hk => ring_run c hi (Nat.le_of_eq hlen) (k := k) hk
  by_cases hlt : 5 * y + x < 15
  · have h := hring (k := 5 * y + x) (by omega)
    rw [hlen, if_neg (by omega), Nat.add_sub_cancel, ring, if_pos hlt, ring, if_pos hlt,
      show (5 * y + x) / 5 = y by omega, show (5 * y + x) % 5 = x by omega] at h
    rw [h, if_pos hlt]
  · rw [if_neg hlt]
    by_cases heq : 5 * y + x = 15
    · obtain rfl : y = 3 := by omega
      obtain rfl : x = 0 := by omega
      have h := hring (k := 16) (Nat.le_refl 16)
      rw [hlen, if_neg (by decide), ring, if_neg (by decide), if_neg (by decide), ring,
        if_neg (by decide), if_neg (by decide)] at h
      rw [h, if_pos rfl]
    · rw [if_neg heq, (rest_run c hi).1 y hy x hx (by omega)]
      exact BitVec.xor_zero.symm

/-- The first lane after some turns is the lane that many places on. -/
theorem dout_run (c : Core) {ins : List CoreIn} (hi : ∀ i ∈ ins, i.Turns) (hlen : ins.length < 15) :
    (Machine.run step c ins).dout = c.regData.lane (ins.length / 5) (ins.length % 5) := by
  have h := ring_run c hi (by omega) (Nat.zero_le 16)
  rw [Nat.zero_add, if_pos (by omega), ring, if_pos (by decide), ring, if_pos hlen] at h
  exact h

/-- **Seventeen turns are an XOR.** Whatever mixture of `absorb` and `squeeze` they are, and
whatever `tmp` held, after seventeen turns the lanes below 15 are XORed with the first fifteen
words, lane 15 with the last, `tmp` with the one in between; the other lanes, the counters and the
flags are what they were (`Rest`), and in between `dout` shows the lanes in their order. -/
theorem turns_seventeen (c : Core) (ins : List CoreIn) (hi : ∀ i ∈ ins, i.Turns)
    (hlen : ins.length = 17) :
    let c' := Machine.run step c ins
    let w := fun k => (ins.map CoreIn.word).getD k 0
    (∀ y < 5, ∀ x < 5, c'.regData.lane y x = c.regData.lane y x ^^^
      if 5 * y + x < 15 then w (5 * y + x) else if 5 * y + x = 15 then w 16 else 0) ∧
      c'.tmp = c.tmp ^^^ w 15 ∧ Rest c c' ∧
      ∀ n < 15, (Machine.run step c (ins.take n)).dout = c.regData.lane (n / 5) (n % 5) := by
  refine ⟨fun y hy x hx => lane_run c hi hlen hy hx, ?_, rest_run c hi, fun n hn => ?_⟩
  · have h := ring_run c hi (Nat.le_of_eq hlen) (show 15 ≤ 16 by decide)
    rw [hlen, if_neg (by decide), ring, if_neg (by decide), if_pos rfl, ring,
      if_neg (by decide), if_pos rfl] at h
    exact h
  · have hn' : (ins.take n).length = n := by
      rw [List.length_take, hlen]
      omega
    have h := dout_run c (fun i h => hi i (List.mem_of_mem_take h))
      (by omega : (ins.take n).length < 15)
    rwa [hn'] at h

/-- Squeezing all the way round gives the state back. -/
theorem turns_seventeen_squeeze :
    let c : Core := ⟨.ofLanes fun y x => BitVec.ofNat 64 (5 * y + x), 0, 0, 0, true, false, false, 9⟩
    let ins : List CoreIn := List.replicate 17 ⟨false, false, false, true, 1⟩
    let c' := Machine.run step c ins
    let w := fun k => (ins.map CoreIn.word).getD k 0
    (∀ y < 5, ∀ x < 5, c'.regData.lane y x = c.regData.lane y x ^^^
      if 5 * y + x < 15 then w (5 * y + x) else if 5 * y + x = 15 then w 16 else 0) ∧
      c'.tmp = c.tmp ^^^ w 15 ∧ Rest c c' ∧
      ∀ n < 15, (Machine.run step c (ins.take n)).dout = c.regData.lane (n / 5) (n % 5) :=
  turns_seventeen _ _ (fun _ hi => (List.eq_of_mem_replicate hi) ▸ ⟨rfl, rfl, rfl⟩) rfl

end Core

end ShakeAccel.MidRange
