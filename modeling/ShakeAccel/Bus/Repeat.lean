import Mathlib.Data.List.Forall2
import ShakeAccel.Bus.Shake128Hw

/-!
# Jobs one after the other

`DONE` is left by a reset only (`accel_fsm.sv`: "transition to idle with reset"). With a reset
before each job every job is correct, whatever ran before (`Segment.Runs.result`). Without one, a
later job is not executed: its register writes are overridden while `done` is high, and its block
stays in the RAM (`Segment.Runs.dropped`).
-/

namespace ShakeAccel

open AccelTopWrapper

/-- A call of `shake128_hw`. -/
structure HashJob where
  outlen : Nat
  input : List Byte

/-- A message of up to 64 bytes, and an output of 16 to 64 bytes in whole lanes. -/
def HashJob.Valid (j : HashJob) : Prop :=
  j.input.length ≤ 64 ∧ 16 ≤ j.outlen ∧ j.outlen ≤ 64 ∧ j.outlen % 8 = 0

/-- The cycles of a job: reset (possibly none), stores, and the wait for the accelerator. -/
structure Segment where
  rst : List Cycle
  pre : List Cycle
  wait : List Cycle

namespace Segment

/-- All cycles of a segment, in order. -/
def cycles (g : Segment) : List Cycle := g.rst ++ (g.pre ++ g.wait)

/-- The segment carries out the job. -/
structure Runs (j : HashJob) (g : Segment) : Prop where
  reset : ∀ c ∈ g.rst, c.rstN = false
  stores : Issues ((shake128HwStores j.outlen j.input).map Store.bus) g.pre
  quiet : ∀ c ∈ g.wait, c.Idle

end Segment

/-- What the job waits for: `done` is high and the start bit is low. -/
def Complete (s : AccelTopWrapper pulpinoTop) : Prop := s.done = true ∧ s.startInt = false

/-- The state after the first `n` segments. -/
def afterJobs (s : AccelTopWrapper pulpinoTop) (gs : List Segment) (n : Nat) :
    AccelTopWrapper pulpinoTop :=
  Machine.run step s ((gs.take n).flatMap Segment.cycles)

theorem afterJobs_succ (s : AccelTopWrapper pulpinoTop) {gs : List Segment} {n : Nat}
    (hn : n < gs.length) :
    afterJobs s gs (n + 1) = Machine.run step (afterJobs s gs n) gs[n].cycles := by
  rw [afterJobs, List.take_succ_eq_append_getElem hn, List.flatMap_append, Machine.run_append,
    afterJobs, List.flatMap_singleton]

theorem afterJobs_cons (s : AccelTopWrapper pulpinoTop) (g : Segment) (gs : List Segment)
    (n : Nat) : afterJobs s (g :: gs) (n + 1) = afterJobs (Machine.run step s g.cycles) gs n := by
  rw [afterJobs, List.take_succ_cons, List.flatMap_cons, Machine.run_append, afterJobs]

@[simp] theorem afterJobs_zero (s : AccelTopWrapper pulpinoTop) (gs : List Segment) :
    afterJobs s gs 0 = s :=
  rfl

namespace Segment

variable {j : HashJob} {g : Segment}

/-- A job after a reset, from any state: it is complete after 60 idle cycles, and once it is, the
RAM holds the stored bytes of the digest and the rest of the block. -/
theorem Runs.ended (h : g.Runs j) (hj : j.Valid) (hrst : g.rst ≠ [])
    (s : AccelTopWrapper pulpinoTop) :
    (Complete (Machine.run step s g.cycles) →
      ∃ mem', Ended false mem' (Machine.run step s g.cycles) ∧
        ∀ i < j.outlen, memByte mem' i = stateByte (shakeState j.input) i) ∧
    (60 ≤ g.wait.length → Complete (Machine.run step s g.cycles)) := by
  obtain ⟨hm, h16, h64, h8⟩ := hj
  have hstandby := standby_of_resets s hrst h.reset
  obtain ⟨hlow, hstart, hlen, hmem⟩ := load_shake128HwStores (by omega) h64 j.input
    ctrlStart_replicate_zero (Machine.run step s g.rst).accelWrapperInst.ramInst.mem
  have hready := (hstandby.run_issues h.stores hlow).jobTime hstart
  have hwait := hready.run fun c hc => (h.quiet c hc).readOnly
  rw [← Machine.run_append, ← Machine.run_append, ← Segment.cycles, Nat.zero_add] at hwait
  have hst : j.outlen ≤ bytesStored j.outlen := (le_bytesStored (by omega)).2 (by omega)
  refine ⟨fun hc => ?_, fun h60 => ?_⟩
  · have hlong := of_decide_eq_true (hwait.done.symm.trans hc.1)
    have hend := hwait.ended hlong
    rw [hlen] at hend
    refine ⟨_, ⟨hend.state, hend.done, hc.2, hend.ram⟩, fun i hi => ?_⟩
    rw [memByte_jobRam h64 (by omega) hmem (by omega), if_pos (Nat.lt_of_lt_of_le hi hst)]
  · have hlanes := lanesStored_le h64
    have hend := hwait.ended (by rw [hlen, doneCycle]; omega)
    refine ⟨hend.done, hend.start.trans (decide_eq_false ?_)⟩
    rw [hlen, doneCycle]
    omega

/-- **A job after a reset is correct.** -/
theorem Runs.result (h : g.Runs j) (hj : j.Valid) (hrst : g.rst ≠ [])
    {s : AccelTopWrapper pulpinoTop} (hc : Complete (Machine.run step s g.cycles)) :
    ramBytes (Machine.run step s g.cycles) j.outlen = shake128 j.outlen j.input := by
  obtain ⟨mem', hend, hmem⟩ := (h.ended hj hrst s).1 hc
  have h64 := hj.2.2.1
  rw [ramBytes, shake128_eq (by omega), List.map_inj_left]
  intro k hk
  rw [AccelTopWrapper.ram, hend.ram, hmem k (List.mem_range.1 hk)]
  rfl

/-- A segment without a reset consists of cycles out of reset, the first stores among them. -/
theorem Runs.high (h : g.Runs j) (hrst : g.rst = []) :
    (∀ c ∈ g.cycles, c.rstN = true) ∧ g.cycles ≠ [] := by
  rw [Segment.cycles, hrst, List.nil_append]
  refine ⟨fun c hc => ?_, fun hnil => ?_⟩
  · rcases List.mem_append.1 hc with hc | hc
    · exact h.stores.high c hc
    · exact (h.quiet c hc).1
  · have hpos := h.stores.length_pos (List.cons_ne_nil _ _)
    rw [(List.append_eq_nil_iff.1 hnil).1] at hpos
    exact absurd hpos (Nat.lt_irrefl 0)

/-- **A job without a reset is not executed** if an earlier one is complete: it completes at once,
its block stays in the RAM, and of its writes to the control words nothing is left. -/
theorem Runs.dropped (h : g.Runs j) (h1 : 1 ≤ j.outlen) (h64 : j.outlen ≤ 64) (hrst : g.rst = [])
    {mem : Vector Word 42} {s : AccelTopWrapper pulpinoTop} (hs : Ended false mem s) :
    ∃ mem', Ended false mem' (Machine.run step s g.cycles) ∧
      (Machine.run step s g.cycles).configRegInst.ctrlReg = clearStart s.configRegInst.ctrlReg ∧
      ∀ i < 168, memByte mem' i = accelDataByte j.input i := by
  obtain ⟨-, -, -, hmem⟩ := load_shake128HwStores h1 h64 j.input ctrlStart_replicate_zero mem
  have hload := (hs.run_issues h.stores).run_idle h.quiet
  obtain ⟨hhigh, hne⟩ := h.high hrst
  refine ⟨_, ?_, run_ctrlReg_done hs.state hs.done hhigh hne, hmem⟩
  rwa [Segment.cycles, hrst, List.nil_append, Machine.run_append]

end Segment

/-! ## Sequences of jobs -/

/-- Every job of the sequence leaves its digest in the RAM, if each waits until it is complete. -/
def AllCorrect (jobs : List HashJob) (gs : List Segment) (s : AccelTopWrapper pulpinoTop) : Prop :=
  (∀ i < jobs.length, Complete (afterJobs s gs (i + 1))) →
    ∀ i, (hi : i < jobs.length) →
      ramBytes (afterJobs s gs (i + 1)) jobs[i].outlen = shake128 jobs[i].outlen jobs[i].input

/-- Only the first segment resets the accelerator. -/
def ResetOnce : List Segment → Prop
  | [] => False
  | g :: gs => g.rst ≠ [] ∧ ∀ g' ∈ gs, g'.rst = []

/-- After a complete first job, the later jobs without a reset only exchange the block. -/
theorem afterJobs_dropped {jobs : List HashJob} {gs : List Segment}
    (hj : ∀ j ∈ jobs, j.Valid) (hr : List.Forall₂ (fun j g => Segment.Runs j g) jobs gs)
    (hrst : ∀ g ∈ gs, g.rst = []) {mem : Vector Word 42} {s : AccelTopWrapper pulpinoTop}
    (hs : Ended false mem s) :
    ∀ i, (hi : i < jobs.length) →
      (afterJobs s gs (i + 1)).configRegInst.ctrlReg = clearStart s.configRegInst.ctrlReg ∧
        ∀ k < 168, memByte (afterJobs s gs (i + 1)).ram k = accelDataByte jobs[i].input k := by
  induction hr generalizing mem s with
  | nil => exact fun i hi => absurd hi (Nat.not_lt_zero i)
  | @cons j g jobs gs h _ ih =>
    obtain ⟨-, h16, h64, -⟩ := hj j (.head _)
    obtain ⟨mem', hend, hctrl, hmem⟩ := h.dropped (by omega) h64 (hrst g (.head _)) hs
    intro i hi
    rw [afterJobs_cons]
    cases i with
    | zero =>
      rw [afterJobs_zero, AccelTopWrapper.ram, hend.ram]
      exact ⟨hctrl, hmem⟩
    | succ i =>
      have hrest := ih (fun j' hj' => hj j' (.tail _ hj')) (fun g' hg' => hrst g' (.tail _ hg'))
        hend i (Nat.lt_of_succ_lt_succ hi)
      rwa [hctrl, clearStart_idem] at hrest

/-- **Repeated use.** With a reset before every job, every job is correct whatever ran before it,
and it completes within 60 idle cycles. With a single reset the first job is correct, and every
later one leaves the control words as the first job has left them, with the start byte cleared, and
its block in the RAM instead of a digest. -/
theorem repeated_jobs {jobs : List HashJob} (hj : ∀ j ∈ jobs, j.Valid) {gs : List Segment}
    (hr : List.Forall₂ (fun j g => Segment.Runs j g) jobs gs) (s : AccelTopWrapper pulpinoTop) :
    ((∀ g ∈ gs, g.rst ≠ []) →
      AllCorrect jobs gs s ∧
        ∀ i, (hi : i < gs.length) → 60 ≤ gs[i].wait.length → Complete (afterJobs s gs (i + 1))) ∧
    (ResetOnce gs → (∀ i < jobs.length, Complete (afterJobs s gs (i + 1))) →
      ∀ i, (hi : i < jobs.length) →
        if i = 0 then ramBytes (afterJobs s gs 1) jobs[i].outlen =
          shake128 jobs[i].outlen jobs[i].input
        else (afterJobs s gs (i + 1)).configRegInst.ctrlReg =
            clearStart (afterJobs s gs 1).configRegInst.ctrlReg ∧
          ∀ k < 168, memByte (afterJobs s gs (i + 1)).ram k = accelDataByte jobs[i].input k) := by
  have hlen := hr.length_eq
  have hget : ∀ i, (hi : i < jobs.length) → (hi' : i < gs.length) → gs[i].Runs jobs[i] :=
    fun i hi hi' => hr.get hi hi'
  refine ⟨fun hrst => ⟨fun hc i hi => ?_, fun i hi h60 => ?_⟩, fun honce hc i hi => ?_⟩
  · rw [afterJobs_succ s (by omega)]
    exact (hget i hi (by omega)).result (hj _ (List.getElem_mem hi))
      (hrst _ (List.getElem_mem (by omega))) (by rw [← afterJobs_succ]; exact hc i hi)
  · rw [afterJobs_succ s hi]
    exact ((hget i (by omega) hi).ended (hj _ (List.getElem_mem (by omega)))
      (hrst _ (List.getElem_mem hi)) _).2 h60
  · cases hr with
    | nil => exact absurd hi (Nat.not_lt_zero i)
    | @cons j g jobs gs h hrest =>
      have hg := honce.1
      have hcomplete := hc 0 (by simp)
      rw [afterJobs_cons, afterJobs_zero] at hcomplete
      cases i with
      | zero =>
        rw [if_pos rfl, afterJobs_cons, afterJobs_zero]
        exact h.result (hj j (.head _)) hg hcomplete
      | succ i =>
        rw [if_neg (Nat.succ_ne_zero i), afterJobs_cons, afterJobs_cons, afterJobs_zero]
        obtain ⟨mem', hend, -⟩ := (h.ended (hj j (.head _)) hg s).1 hcomplete
        exact afterJobs_dropped (fun j' hj' => hj j' (.tail _ hj')) hrest honce.2 hend i
          (Nat.lt_of_succ_lt_succ hi)

section
variable {j1 j2 : HashJob} {g1 g2 : Segment}

/-- Two jobs with one reset: both complete. -/
theorem complete_pair (hj1 : j1.Valid) (hj2 : j2.Valid) (h1 : g1.Runs j1) (h2 : g2.Runs j2)
    (hr1 : g1.rst ≠ []) (hr2 : g2.rst = []) (h60 : 60 ≤ g1.wait.length)
    (s : AccelTopWrapper pulpinoTop) :
    ∀ i < [j1, j2].length, Complete (afterJobs s [g1, g2] (i + 1)) := by
  obtain ⟨-, h16, h64, -⟩ := hj2
  obtain ⟨hend1, hcomplete1⟩ := h1.ended hj1 hr1 s
  obtain ⟨mem, hend, -⟩ := hend1 (hcomplete1 h60)
  obtain ⟨mem', hend', -⟩ := h2.dropped (by omega) h64 hr2 hend
  intro i hi
  rcases i with _ | _ | i
  · rw [afterJobs_cons, afterJobs_zero]
    exact hcomplete1 h60
  · rw [afterJobs_cons, afterJobs_cons, afterJobs_zero]
    exact ⟨hend'.done, hend'.start⟩
  · rw [List.length_cons, List.length_cons, List.length_nil] at hi
    omega

/-- Two jobs with one reset: the second fails if its digest does not begin like its block. -/
theorem not_allCorrect_pair (hj1 : j1.Valid) (hj2 : j2.Valid) (h1 : g1.Runs j1) (h2 : g2.Runs j2)
    (hr1 : g1.rst ≠ []) (hr2 : g2.rst = []) (h60 : 60 ≤ g1.wait.length)
    (s : AccelTopWrapper pulpinoTop)
    (hne : stateByte (shakeState j2.input) 0 ≠ accelDataByte j2.input 0) :
    ¬AllCorrect [j1, j2] [g1, g2] s := by
  intro hall
  have hcomplete := complete_pair hj1 hj2 h1 h2 hr1 hr2 h60 s
  have hfirst := hcomplete 0 (by simp)
  rw [afterJobs_cons, afterJobs_zero] at hfirst
  obtain ⟨mem, hend, -⟩ := (h1.ended hj1 hr1 s).1 hfirst
  obtain ⟨-, h16, h64, -⟩ := hj2
  obtain ⟨mem', hend', -, hmem'⟩ := h2.dropped (by omega) h64 hr2 hend
  have hcorrect : ramBytes (afterJobs s [g1, g2] 2) j2.outlen = shake128 j2.outlen j2.input :=
    hall hcomplete 1 (by simp)
  have hram : (afterJobs s [g1, g2] 2).ram = mem' := by
    rw [afterJobs_cons, afterJobs_cons, afterJobs_zero]
    exact hend'.ram
  rw [ramBytes, shake128_eq (by omega), List.map_inj_left] at hcorrect
  have hbyte := hcorrect 0 (List.mem_range.2 (by omega))
  rw [hram, hmem' 0 (by decide)] at hbyte
  exact hne hbyte.symm

end

/-- The stores back to back, then `n` idle cycles. -/
def HashJob.segment (j : HashJob) (rst : List Cycle) (n : Nat) : Segment where
  rst := rst
  pre := ((shake128HwStores j.outlen j.input).map Store.bus).map fun b => ⟨true, b, .zero⟩
  wait := List.replicate n ⟨true, .none, .zero⟩

theorem HashJob.segment_runs (j : HashJob) (rst : List Cycle) (h : ∀ c ∈ rst, c.rstN = false)
    (n : Nat) : (j.segment rst n).Runs j where
  reset := h
  stores := issues_map _ _
  quiet := by
    intro c hc
    rw [List.eq_of_mem_replicate hc]
    exact ⟨rfl, rfl⟩

/-- One edge in reset. -/
def resetCycle : Cycle := ⟨false, .none, .zero⟩

theorem HashJob.valid_nil : HashJob.Valid ⟨16, []⟩ :=
  ⟨by decide, by decide, by decide, rfl⟩

/-- Two jobs with a reset before each, and two with one reset: of the second of these the message
stays in the RAM. -/
theorem repeated_jobs_twice :
    AllCorrect [⟨16, []⟩, ⟨64, []⟩]
        [HashJob.segment ⟨16, []⟩ [resetCycle] 60, HashJob.segment ⟨64, []⟩ [resetCycle] 60]
        .blank ∧
      (afterJobs .blank
          [HashJob.segment ⟨16, []⟩ [resetCycle] 60, HashJob.segment ⟨64, [0x61]⟩ [] 0]
          2).configRegInst.ctrlReg =
        clearStart (afterJobs .blank
          [HashJob.segment ⟨16, []⟩ [resetCycle] 60, HashJob.segment ⟨64, [0x61]⟩ [] 0]
          1).configRegInst.ctrlReg ∧
      memByte (afterJobs .blank
        [HashJob.segment ⟨16, []⟩ [resetCycle] 60, HashJob.segment ⟨64, [0x61]⟩ [] 0] 2).ram 0 =
          0x61 := by
  have hreset : ∀ c ∈ [resetCycle], c.rstN = false := by simp [resetCycle]
  have hvalid : HashJob.Valid ⟨64, [0x61]⟩ := ⟨by decide, by decide, by decide, rfl⟩
  have h1 := HashJob.segment_runs ⟨16, []⟩ [resetCycle] hreset 60
  have h2 := HashJob.segment_runs ⟨64, [0x61]⟩ [] (by simp) 0
  have hcomplete := complete_pair HashJob.valid_nil hvalid h1 h2 (by simp [HashJob.segment]) rfl
    (by simp [HashJob.segment]) .blank
  refine ⟨?_, ?_⟩
  · refine ((repeated_jobs (List.forall_mem_cons.2 ⟨HashJob.valid_nil, ?_⟩)
      (.cons h1 (.cons (HashJob.segment_runs _ _ hreset _) .nil)) .blank).1 ?_).1
    · intro j hj
      rw [List.mem_singleton.1 hj]
      exact ⟨by decide, by decide, by decide, rfl⟩
    · simp [HashJob.segment]
  · have hpair := repeated_jobs
      (List.forall_mem_cons.2 ⟨HashJob.valid_nil, List.forall_mem_singleton.2 hvalid⟩)
      (.cons h1 (.cons h2 .nil)) .blank
    obtain ⟨hctrl, hmem⟩ := hpair.2 ⟨by simp [HashJob.segment], by simp [HashJob.segment]⟩
      hcomplete 1 (by simp)
    exact ⟨hctrl, (hmem 0 (by decide)).trans (by decide)⟩

/-- Without the second reset the second of two equal jobs leaves its block, which is no digest. -/
theorem repeated_jobs_without_reset :
    List.Forall₂ (fun j g => Segment.Runs j g) [⟨16, []⟩, ⟨16, []⟩]
        [HashJob.segment ⟨16, []⟩ [resetCycle] 60, HashJob.segment ⟨16, []⟩ [] 60] ∧
      ResetOnce [HashJob.segment ⟨16, []⟩ [resetCycle] 60, HashJob.segment ⟨16, []⟩ [] 60] ∧
      ¬AllCorrect [⟨16, []⟩, ⟨16, []⟩]
        [HashJob.segment ⟨16, []⟩ [resetCycle] 60, HashJob.segment ⟨16, []⟩ [] 60] .blank := by
  have h1 := HashJob.segment_runs ⟨16, []⟩ [resetCycle] (by simp [resetCycle]) 60
  have h2 := HashJob.segment_runs ⟨16, []⟩ [] (by simp) 60
  exact ⟨.cons h1 (.cons h2 .nil), ⟨by simp [HashJob.segment], by simp [HashJob.segment]⟩,
    not_allCorrect_pair HashJob.valid_nil HashJob.valid_nil h1 h2 (by simp [HashJob.segment]) rfl
      (by simp [HashJob.segment]) _ stateByte_shakeState_nil.1⟩

end ShakeAccel
