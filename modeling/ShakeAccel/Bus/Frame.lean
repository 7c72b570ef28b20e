import ShakeAccel.Bus.Job

/-!
# What a job leaves alone

A job of output length `L` stores the first `lanesStored (L - 1)` lanes of the digest, so the RAM
words from `2 * ceil(L / 8)` on keep what they held (`Frame.ram`). The control words are as the CPU
has set them until `done` has been high for a cycle; then byte 0 of word 0 is 0, and nothing else
changes.
-/

namespace ShakeAccel

open Vec AccelTopWrapper

section
variable {P : TopParams} {s : AccelTopWrapper P} {c : Cycle} {ctrl : Vector Word P.ctrlWords}
  {mem : Vector Word 42} {k : Nat}

/-! ## From reset to the start -/

/-- Cycles from reset to the one in which the start bit is first 1, with any accesses. -/
structure StartedFromReset (s0 : AccelTopWrapper P) (rst pre : List Cycle) : Prop where
  reset_ne : rst ≠ []
  reset : ∀ c ∈ rst, c.rstN = false
  high : ∀ c ∈ pre, c.rstN = true
  low : ∀ k < pre.length, (Machine.run step s0 (rst ++ pre.take k)).startInt = false
  start : (Machine.run step s0 (rst ++ pre)).startInt = true

/-- While the start bit is 0 the accelerator stands by, whatever the CPU accesses. -/
theorem Standby.run_low {pre : List Cycle} (h : Standby ctrl mem s) (hr : ∀ c ∈ pre, c.rstN = true)
    (hlow : ∀ k < pre.length, (Machine.run step s (pre.take k)).startInt = false) :
    Standby (Machine.run step s pre).configRegInst.ctrlReg (Machine.run step s pre).ram
      (Machine.run step s pre) := by
  induction pre generalizing s ctrl mem with
  | nil => exact { h with ctrlReg := rfl, ram := rfl }
  | cons c pre ih =>
    have h0 : ctrlStart ctrl = false := by
      have hs := hlow 0 (by simp)
      rwa [List.take_zero, Machine.run_nil, startInt_eq h.ctrlReg] at hs
    refine ih (h.access h0 (hr c (.head _))) (fun d hd => hr d (.tail _ hd)) fun k hk => ?_
    have hs := hlow (k + 1) (by rw [List.length_cons]; omega)
    rwa [List.take_succ_cons, Machine.run_cons] at hs

theorem StartedFromReset.jobTime {s0 : AccelTopWrapper P} {rst pre : List Cycle}
    (h : StartedFromReset s0 rst pre) :
    JobTime (Machine.run step s0 (rst ++ pre)).configRegInst.ctrlReg
      (Machine.run step s0 (rst ++ pre)).ram 0 (Machine.run step s0 (rst ++ pre)) := by
  have hlow := h.low
  have hstart := h.start
  simp only [Machine.run_append] at hlow hstart ⊢
  exact ((standby_of_resets s0 h.reset_ne h.reset).run_low h.high hlow).jobTime hstart

/-! ## The frame -/

/-- Clearing byte 0 of word 0 keeps the other words. -/
theorem get_clearStart (ctrl : Vector Word P.ctrlWords) {i : Nat} (hi : i < P.ctrlWords)
    (h0 : i ≠ 0) : (clearStart ctrl).get ⟨i, hi⟩ = ctrl.get ⟨i, hi⟩ :=
  Vector.getElem_set_ne P.ctrlWords_pos hi h0.symm

theorem byteAt_clearStart (ctrl : Vector Word P.ctrlWords) {b : Nat} (hb : b < 4) :
    Bits.byteAt ((clearStart ctrl).get ⟨0, P.ctrlWords_pos⟩) b =
      if b = 0 then 0 else Bits.byteAt (ctrl.get ⟨0, P.ctrlWords_pos⟩) b := by
  have hbe : (1 : BitVec 4).getLsbD b = decide (b = 0) := by
    revert hb b
    decide
  rw [clearStart, get_set_self, Bits.byteAt_mergeBytes (n := 4) rfl _ _ _ hb, hbe,
    Bits.byteAt_zero]
  simp only [decide_eq_true_eq]

/-- The RAM in a cycle of a job: some first lanes of the digest are stored. -/
theorem JobTime.ram_storeLanes (h : JobTime ctrl mem k s) :
    ∃ n ≤ lanesStored (ctrlLength ctrl), s.ram = storeLanes (digestState mem) n mem := by
  by_cases h0 : k = 0
  · have hphase := h.phase
    rw [if_pos h0] at hphase
    exact ⟨0, Nat.zero_le _, hphase.ram⟩
  · by_cases hk : k ≤ doneCycle (ctrlLength ctrl) + 1
    · exact (h.running (by omega) hk).job.ram_storeLanes
    · exact ⟨_, Nat.le_refl _, (h.final (by omega)).2⟩

/-- Cycle `k` of a job with the control words: byte 0 of word 0 is cleared once `done` has been high
for a cycle. -/
structure FrameTime (ctrl : Vector Word P.ctrlWords) (mem : Vector Word 42) (k : Nat)
    (s : AccelTopWrapper P) : Prop where
  job : JobTime ctrl mem k s
  ctrlReg : s.configRegInst.ctrlReg =
    if k ≤ doneCycle (ctrlLength ctrl) + 2 then ctrl else clearStart ctrl

theorem FrameTime.stand (h : FrameTime ctrl mem k s) (hc : Bystander ctrl c) :
    FrameTime ctrl mem (k + 1) (s.step c) := by
  refine ⟨h.job.stand hc, ?_⟩
  have hctrl := h.ctrlReg
  have hdone := h.job.done
  by_cases hk : k ≤ doneCycle (ctrlLength ctrl) + 1
  · rw [decide_eq_false (by omega)] at hdone
    rw [if_pos (by omega)] at hctrl
    rw [if_pos (by omega), step_ctrlReg hc.keepsCtrl.1 hdone, hctrl, hc.keepsCtrl.2]
  · rw [decide_eq_true (by omega)] at hdone
    rw [if_neg (by omega), step_ctrlReg_done hc.keepsCtrl.1 hdone, hctrl]
    by_cases hlast : k ≤ doneCycle (ctrlLength ctrl) + 2
    · rw [if_pos hlast]
    · rw [if_neg hlast, clearStart_idem]

theorem FrameTime.run (h : FrameTime ctrl mem k s) {cs : List Cycle}
    (hcs : ∀ c ∈ cs, Bystander ctrl c) :
    FrameTime ctrl mem (k + cs.length) (Machine.run AccelTopWrapper.step s cs) :=
  Machine.run_schedule (R := FrameTime ctrl mem) (A := Bystander ctrl) (T := k + cs.length)
    (fun _ _ _ _ hc h => h.stand hc) h hcs (Nat.le_refl _)

/-- What `s'` has in common with `s`: all but the pairs of the digest in the RAM, and all but byte 0
of control word 0, which is kept as well unless `cleared`. -/
structure Frame (L : Nat) (cleared : Prop) (s s' : AccelTopWrapper P) : Prop where
  ram : ∀ w, 2 * ((L + 7) / 8) ≤ w → s'.ram.getD w 0 = s.ram.getD w 0
  byte0 : cleared → Bits.byteAt s'.controlWord0 0 = 0
  kept : ¬cleared → s'.controlWord0 = s.controlWord0
  bytes : ∀ b < 4, b ≠ 0 → Bits.byteAt s'.controlWord0 b = Bits.byteAt s.controlWord0 b
  words : ∀ i (hi : i < P.ctrlWords), i ≠ 0 →
    s'.configRegInst.ctrlReg.get ⟨i, hi⟩ = s.configRegInst.ctrlReg.get ⟨i, hi⟩

/-- The frame in cycle `k` of a job. -/
theorem FrameTime.frame {s' : AccelTopWrapper P} {L : Nat}
    (h : FrameTime s.configRegInst.ctrlReg s.ram k s') (h1 : 1 ≤ L)
    (hlen : s.outputLengthByte.toNat = L - 1) :
    Frame L (doneCycle (L - 1) + 3 ≤ k) s s' := by
  have hl : ctrlLength s.configRegInst.ctrlReg = L - 1 := hlen
  have hctrl := h.ctrlReg
  rw [hl] at hctrl
  refine ⟨fun w hw => ?_, fun hk => ?_, fun hk => ?_, fun b hb h0 => ?_, fun i hi h0 => ?_⟩
  · obtain ⟨n, hn, hram⟩ := h.job.ram_storeLanes
    rw [hram, getD_storeLanes]
    rw [hl, lanesStored] at hn
    split at hn <;> omega
  · rw [controlWord0, hctrl, if_neg (by omega), byteAt_clearStart _ (by decide), if_pos rfl]
  · rw [controlWord0, hctrl, if_pos (by omega)]
    rfl
  · rw [controlWord0, hctrl]
    split
    · rfl
    · rw [byteAt_clearStart _ hb, if_neg h0]
      rfl
  · rw [hctrl]
    split
    · rfl
    · exact get_clearStart _ hi h0

/-- What holds from `T` on has held before `n` just if `n` is beyond `T`. -/
theorem exists_lt_iff_of_from {p : Nat → Prop} {T N : Nat} (hp : ∀ n ≤ N, (p n ↔ T ≤ n)) {n : Nat}
    (hn : n ≤ N) : (∃ m < n, p m) ↔ T + 1 ≤ n := by
  constructor
  · rintro ⟨m, hm, h⟩
    exact Nat.lt_of_le_of_lt ((hp m (by omega)).1 h) hm
  · intro h
    exact ⟨T, h, (hp T (by omega)).2 (Nat.le_refl T)⟩

/-- **The frame of a job.** From a reset, with the length register at `L - 1` when the start bit is
set: up to any cycle of the job and behind it, the RAM words from `2 * ceil(L / 8)` on and the
control words are what they were, except that byte 0 of control word 0 is cleared once `done` has
been high for a cycle; and `done` does get high. -/
theorem job_frame (s0 : AccelTopWrapper P) {rst pre job : List Cycle}
    (h : StartedFromReset s0 rst pre) {L : Nat} (h1 : 1 ≤ L)
    (hlen : (Machine.run step s0 (rst ++ pre)).outputLengthByte.toNat = L - 1)
    (hjob : ∀ c ∈ job, Bystander (Machine.run step s0 (rst ++ pre)).configRegInst.ctrlReg c) :
    (∀ n ≤ job.length,
        Frame L (∃ m < n, (Machine.run step s0 (rst ++ pre ++ job.take m)).done = true)
          (Machine.run step s0 (rst ++ pre)) (Machine.run step s0 (rst ++ pre ++ job.take n))) ∧
      (60 ≤ job.length →
        ∃ m < job.length, (Machine.run step s0 (rst ++ pre ++ job.take m)).done = true) := by
  generalize hs : Machine.run step s0 (rst ++ pre) = s at hlen hjob ⊢
  have hstart : FrameTime s.configRegInst.ctrlReg s.ram 0 s := by
    refine ⟨?_, (if_pos (Nat.zero_le _)).symm⟩
    rw [← hs]
    exact h.jobTime
  have htime : ∀ n ≤ job.length,
      FrameTime s.configRegInst.ctrlReg s.ram n (Machine.run step s (job.take n)) := by
    intro n hn
    have hrun := hstart.run fun c (hc : c ∈ job.take n) => hjob c (List.mem_of_mem_take hc)
    rwa [Nat.zero_add, List.length_take, Nat.min_eq_left hn] at hrun
  have hdone : ∀ n ≤ job.length,
      ((Machine.run step s (job.take n)).done = true ↔ doneCycle (L - 1) + 2 ≤ n) := by
    intro n hn
    rw [(htime n hn).job.done, decide_eq_true_iff, show ctrlLength s.configRegInst.ctrlReg = L - 1
      from hlen]
  simp only [Machine.run_append step s0 (rst ++ pre), hs]
  refine ⟨fun n hn => ?_, fun h60 => ?_⟩
  · rw [exists_lt_iff_of_from hdone hn]
    exact (htime n hn).frame h1 hlen
  · have h64 := s.outputLengthByte.isLt
    have hlanes : lanesStored (L - 1) ≤ 8 := by
      rw [lanesStored]
      split <;> omega
    have hlt : doneCycle (L - 1) + 2 + 1 ≤ job.length := by
      rw [doneCycle]
      omega
    exact (exists_lt_iff_of_from hdone (Nat.le_refl job.length)).2 hlt

end

/-- The store that sets the length register to 15 and the start bit. -/
def startSixteen : Cycle := ⟨true, ⟨true, 0, true, 0xf, 0x0F01⟩, .zero⟩

theorem startedFromReset_sixteen :
    StartedFromReset (.blank : AccelTopWrapper pulpinoTop) [⟨false, .none, .zero⟩]
      [startSixteen] where
  reset_ne := by simp
  reset := by simp
  high := by simp [startSixteen]
  low := by decide
  start := by decide

/-- The frame of a job of 16 bytes: `done` is first high in cycle 53, so in cycle 54 byte 0 of
control word 0 is cleared. -/
theorem job_frame_sixteen :
    let s := Machine.run step (.blank : AccelTopWrapper pulpinoTop)
      ([⟨false, .none, .zero⟩] ++ [startSixteen])
    let t := Machine.run step (.blank : AccelTopWrapper pulpinoTop)
      ([⟨false, .none, .zero⟩] ++ [startSixteen] ++
        (List.replicate 60 ⟨true, .none, .zero⟩).take 54)
    Frame 16 (∃ m < 54, (Machine.run step (.blank : AccelTopWrapper pulpinoTop)
        ([⟨false, .none, .zero⟩] ++ [startSixteen] ++
          (List.replicate 60 ⟨true, .none, .zero⟩).take m)).done = true) s t ∧
      Bits.byteAt s.controlWord0 0 = 1 ∧ Bits.byteAt t.controlWord0 0 = 0 := by
  intro s t
  have hidle : ∀ c ∈ List.replicate 60 (⟨true, .none, .zero⟩ : Cycle), c.Idle := fun c hc => by
    rw [List.eq_of_mem_replicate hc]
    exact ⟨rfl, rfl⟩
  have hframe := (job_frame .blank startedFromReset_sixteen (L := 16) (by decide) (by decide)
    fun c hc => (hidle c hc).readOnly.bystander _).1 54 (by simp)
  have hquiet : ∀ c ∈ (List.replicate 60 (⟨true, .none, .zero⟩ : Cycle)).take 53, c.ReadOnly :=
    fun c hc => (hidle c (List.mem_of_mem_take hc)).readOnly
  have htime := startedFromReset_sixteen.jobTime.run hquiet
  rw [← Machine.run_append] at htime
  exact ⟨hframe, by decide, hframe.byte0 ⟨53, by decide, htime.done.trans (by decide)⟩⟩

end ShakeAccel
