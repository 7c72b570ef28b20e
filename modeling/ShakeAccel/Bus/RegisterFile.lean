import ShakeAccel.Bus.ConfigReg
import ShakeAccel.Lib.Log

/-!
# The register file as a store of bytes

What `config_reg` is for, with any number of words of any number of bytes: a control word holds the
bytes last written to it since the reset, a status word shows its input (or what was last sampled
of it), and a read returns the addressed word. `registerFile` states it in terms of the inputs since
the reset. An address is the number on the port, so it may exceed the last word.
-/

namespace ShakeAccel

variable {nCtrl nStat dataWidth n : Nat}

/-! ## What the inputs ask for -/

namespace ConfigIn

/-- The byte written to byte `j` of control word `i`, if there is one. -/
def written (i j : Nat) (p : ConfigIn nStat dataWidth) : Option (BitVec 8) :=
  if p.en = true ∧ p.we = true ∧ p.addr = i ∧ p.be.getLsbD j = true then
    some (Bits.byteAt p.wdata j)
  else none

/-- The status words sampled, if they are. -/
def sampled (p : ConfigIn nStat dataWidth) : Option (Vector (BitVec dataWidth) nStat) :=
  if p.statEn then some p.statVec else none

/-- A read of one of the words. -/
def InRangeRead (nCtrl : Nat) (p : ConfigIn nStat dataWidth) : Prop :=
  p.en = true ∧ p.we = false ∧ p.addr < nCtrl + nStat

end ConfigIn

namespace ConfigReg

/-- The inputs of one clock cycle. -/
structure Cycle (nStat dataWidth : Nat) where
  arstN : Bool
  ports : ConfigIn nStat dataWidth

/-- One clock cycle. -/
def step (registerStatus : Bool) (s : ConfigReg nCtrl nStat dataWidth)
    (c : Cycle nStat dataWidth) : ConfigReg nCtrl nStat dataWidth :=
  s.clock registerStatus c.arstN c.ports

/-- Byte `j` of control word `i` after the cycles `ins` behind a reset. -/
def ctrlByte (ins : List (Cycle nStat dataWidth)) (i j : Nat) : BitVec 8 :=
  (Log.last (fun c => c.ports.written i j) ins).getD 0

/-- Control word `i` after the cycles `ins` behind a reset. -/
def ctrlWord (ins : List (Cycle nStat dataWidth)) (i : Nat) : BitVec dataWidth :=
  Bits.ofBytes dataWidth (ctrlByte ins i)

/-- The status words that a read shows: the inputs themselves, or the last sampled ones. The status
register has no reset, so it samples during the reset too. -/
def statWords (registerStatus : Bool) (init : Vector (BitVec dataWidth) nStat)
    (cs : List (Cycle nStat dataWidth)) (p : ConfigIn nStat dataWidth) :
    Vector (BitVec dataWidth) nStat :=
  if registerStatus then (Log.last (fun c => c.ports.sampled) cs).getD init else p.statVec

/-! ## One cycle -/

section
variable {registerStatus : Bool} {s : ConfigReg nCtrl nStat dataWidth} {c : Cycle nStat dataWidth}
  {p : ConfigIn nStat dataWidth}

theorem byteAt_writeCtrl (hw : dataWidth = 8 * n) (ctrl : Vector (BitVec dataWidth) nCtrl)
    (p : ConfigIn nStat dataWidth) {i j : Nat} (hi : i < nCtrl) (hj : j < n) :
    Bits.byteAt (writeCtrl ctrl p)[i] j = (p.written i j).getD (Bits.byteAt ctrl[i] j) := by
  have hoff : ¬(p.en = true ∧ p.we = true ∧ p.addr = i) →
      (p.written i j).getD (Bits.byteAt ctrl[i] j) = Bits.byteAt ctrl[i] j := by
    intro h
    rw [ConfigIn.written, if_neg fun h' => h ⟨h'.1, h'.2.1, h'.2.2.1⟩, Option.getD_none]
  rw [writeCtrl]
  split
  next hen =>
    rw [Bool.and_eq_true] at hen
    split
    next hlt =>
      rw [Vector.getElem_set]
      split
      next haddr =>
        subst haddr
        rw [Bits.byteAt_mergeBytes hw _ _ _ hj, ConfigIn.written]
        by_cases hbe : p.be.getLsbD j = true
        · rw [if_pos hbe, if_pos ⟨hen.1, hen.2, rfl, hbe⟩, Option.getD_some]
        · rw [if_neg hbe, if_neg fun h => hbe h.2.2.2, Option.getD_none]
      next haddr => exact (hoff fun h => haddr h.2.2).symm
    next hge => exact (hoff fun h => hge (h.2.2 ▸ hi)).symm
  next hen => exact (hoff fun h => hen (by rw [h.1, h.2.1]; rfl)).symm

theorem byteAt_step (registerStatus : Bool) (s : ConfigReg nCtrl nStat dataWidth)
    (hw : dataWidth = 8 * n) (hr : c.arstN = true) {i j : Nat} (hi : i < nCtrl) (hj : j < n) :
    Bits.byteAt (s.step registerStatus c).ctrlReg[i] j =
      (c.ports.written i j).getD (Bits.byteAt s.ctrlReg[i] j) := by
  simp only [step, clock, hr, if_true]
  exact byteAt_writeCtrl hw s.ctrlReg c.ports hi hj

/-- The status register samples in every cycle, in reset or not. -/
theorem statReadout_step (registerStatus : Bool) (s : ConfigReg nCtrl nStat dataWidth)
    (c : Cycle nStat dataWidth) :
    (s.step registerStatus c).statReadout = c.ports.sampled.getD s.statReadout := by
  simp only [step, clock, ConfigIn.sampled]
  cases c.ports.statEn <;> rfl

theorem rdata_step (hr : c.arstN = true) :
    (s.step registerStatus c).rdata = (select registerStatus s c.ports).getD s.rdata := by
  rw [step, clock, hr]
  rfl

/-! ## The word that is read -/

theorem select_ctrl (hen : p.en = true) (hwe : p.we = false) {i : Nat} (hi : i < nCtrl)
    (haddr : p.addr = i) : select registerStatus s p = some s.ctrlReg[i] := by
  subst haddr
  rw [select, hen, hwe, if_pos (by decide), dif_neg (by omega), dif_pos hi]

theorem select_stat (hen : p.en = true) (hwe : p.we = false) {k : Nat} (hk : k < nStat)
    (haddr : p.addr = nCtrl + k) :
    select registerStatus s p = some (statView registerStatus s p)[k] := by
  rw [select, hen, hwe, if_pos (by decide), dif_pos (by omega)]
  simp only [show p.addr - nCtrl = k by omega]

theorem select_none (h : ¬p.InRangeRead nCtrl) : select registerStatus s p = none := by
  rw [select]
  split
  next hen =>
    rw [Bool.and_eq_true, Bool.not_eq_true'] at hen
    have hge : nCtrl + nStat ≤ p.addr := Nat.le_of_not_lt fun hlt => h ⟨hen.1, hen.2, hlt⟩
    rw [dif_neg (by omega), dif_neg (by omega)]
  next => rfl

end

/-! ## Runs -/

section
variable {s0 s : ConfigReg nCtrl nStat dataWidth} {rst ins later : List (Cycle nStat dataWidth)}

theorem ctrlReg_of_reset (s0 : ConfigReg nCtrl nStat dataWidth) (registerStatus : Bool)
    (hne : rst ≠ []) (hr : ∀ c ∈ rst, c.arstN = false) :
    (Machine.run (step registerStatus) s0 rst).ctrlReg = .replicate nCtrl 0 := by
  obtain ⟨cs, c, rfl⟩ := List.eq_nil_or_concat rst |>.resolve_left hne
  rw [List.concat_eq_append, Machine.run_append, Machine.run_cons, Machine.run_nil, step, clock,
    hr c (by simp)]
  rfl

/-- Every byte of a control word after a reset is the byte last written to it. -/
theorem byteAt_run (hw : dataWidth = 8 * n) (s0 : ConfigReg nCtrl nStat dataWidth)
    (registerStatus : Bool) (hne : rst ≠ []) (hr : ∀ c ∈ rst, c.arstN = false)
    (hins : ∀ c ∈ ins, c.arstN = true) {i j : Nat} (hi : i < nCtrl) (hj : j < n) :
    Bits.byteAt (Machine.run (step registerStatus) s0 (rst ++ ins)).ctrlReg[i] j =
      ctrlByte ins i j := by
  have hrun := Machine.run_last (I := fun _ => True)
    (A := fun (_ : ConfigReg nCtrl nStat dataWidth) (c : Cycle nStat dataWidth) => c.arstN = true)
    (fun s => Bits.byteAt s.ctrlReg[i] j) (fun c => c.ports.written i j) (fun _ c => [c])
    (fun _ _ _ _ => trivial)
    (fun s c hc _ => by rw [byteAt_step registerStatus s hw hc hi hj, Log.last_singleton]) trivial
    (Machine.along_of_forall (fun c hc _ => hins c hc) (Machine.run (step registerStatus) s0 rst))
  rw [Machine.run_append, hrun, Machine.collect_inputs]
  simp only [ctrlReg_of_reset s0 registerStatus hne hr, Vector.getElem_replicate, Bits.byteAt_zero,
    ctrlByte]

theorem ctrlReg_run (hw : dataWidth = 8 * n) (s0 : ConfigReg nCtrl nStat dataWidth)
    (registerStatus : Bool) (hne : rst ≠ []) (hr : ∀ c ∈ rst, c.arstN = false)
    (hins : ∀ c ∈ ins, c.arstN = true) {i : Nat} (hi : i < nCtrl) :
    (Machine.run (step registerStatus) s0 (rst ++ ins)).ctrlReg[i] = ctrlWord ins i := by
  apply Bits.eq_of_byteAt_eq hw
  intro j hj
  rw [byteAt_run hw s0 registerStatus hne hr hins hi hj, ctrlWord, Bits.byteAt_ofBytes hw _ hj]

/-- The status register holds what was last sampled. -/
theorem statReadout_run (s0 : ConfigReg nCtrl nStat dataWidth) (registerStatus : Bool)
    (cs : List (Cycle nStat dataWidth)) :
    (Machine.run (step registerStatus) s0 cs).statReadout =
      (Log.last (fun c => c.ports.sampled) cs).getD s0.statReadout := by
  have hrun := Machine.run_last (I := fun _ => True)
    (A := fun (_ : ConfigReg nCtrl nStat dataWidth) (_ : Cycle nStat dataWidth) => True)
    (fun s => s.statReadout) (fun c => c.ports.sampled) (fun _ c => [c]) (fun _ _ _ _ => trivial)
    (fun s c _ _ => by rw [statReadout_step registerStatus, Log.last_singleton])
    trivial (Machine.along_of_forall (fun c (_ : c ∈ cs) _ => trivial) s0)
  rwa [Machine.collect_inputs] at hrun

theorem statView_run (s0 : ConfigReg nCtrl nStat dataWidth) (registerStatus : Bool)
    (cs : List (Cycle nStat dataWidth)) (p : ConfigIn nStat dataWidth) :
    statView registerStatus (Machine.run (step registerStatus) s0 cs) p =
      statWords registerStatus s0.statReadout cs p := by
  rw [statView, statWords, statReadout_run]

/-- Without a read of one of the words the read register keeps its word. -/
theorem rdata_run_held {registerStatus : Bool}
    (hlater : ∀ c ∈ later, c.arstN = true ∧ ¬c.ports.InRangeRead nCtrl) :
    (Machine.run (step registerStatus) s later).rdata = s.rdata :=
  Machine.run_invariant (I := fun t : ConfigReg nCtrl nStat dataWidth => t.rdata = s.rdata)
    (A := fun c : Cycle nStat dataWidth => c.arstN = true ∧ ¬c.ports.InRangeRead nCtrl)
    (fun t c hc ht => by rw [rdata_step hc.1, select_none hc.2, Option.getD_none, ht]) rfl hlater

/-- The access `p` in state `s` reads the word `v`: with `ASYNC_READ` in the same cycle, without it
behind the next edge and from then on until the next read of one of the words. -/
structure Reads (registerStatus : Bool) (s : ConfigReg nCtrl nStat dataWidth)
    (p : ConfigIn nStat dataWidth) (v : BitVec dataWidth) : Prop where
  async : s.rdataOut true registerStatus p = v
  sync : ∀ later : List (Cycle nStat dataWidth),
    (∀ c ∈ later, c.arstN = true ∧ ¬c.ports.InRangeRead nCtrl) → ∀ p',
    (Machine.run (step registerStatus) (s.step registerStatus ⟨true, p⟩) later).rdataOut false
      registerStatus p' = v

theorem Reads.of_select {registerStatus : Bool} {p : ConfigIn nStat dataWidth}
    {v : BitVec dataWidth} (h : select registerStatus s p = some v) :
    Reads registerStatus s p v where
  async := by rw [rdataOut, if_pos rfl, h, Option.getD_some]
  sync later hlater p' := by
    rw [rdataOut, if_neg Bool.false_ne_true, rdata_run_held hlater, rdata_step rfl, h,
      Option.getD_some]

/-- What the register file is after the cycles `ins` behind the reset `rst`: every control byte is
the one last written; a write beyond the control words only lets the status register sample; and
the two kinds of words are read. -/
structure IsStore (registerStatus : Bool) (init : Vector (BitVec dataWidth) nStat)
    (rst ins : List (Cycle nStat dataWidth)) (s : ConfigReg nCtrl nStat dataWidth) : Prop where
  ctrl : ∀ i (hi : i < nCtrl), ∀ j < dataWidth / 8, Bits.byteAt s.ctrlReg[i] j = ctrlByte ins i j
  ignored : ∀ p : ConfigIn nStat dataWidth, p.en = true → p.we = true → nCtrl ≤ p.addr →
    s.step registerStatus ⟨true, p⟩ = { s with statReadout := p.sampled.getD s.statReadout }
  readCtrl : ∀ p : ConfigIn nStat dataWidth, p.en = true → p.we = false → ∀ i < nCtrl,
    p.addr = i → Reads registerStatus s p (ctrlWord ins i)
  readStat : ∀ p : ConfigIn nStat dataWidth, p.en = true → p.we = false → ∀ k (hk : k < nStat),
    p.addr = nCtrl + k →
    Reads registerStatus s p (statWords registerStatus init (rst ++ ins) p)[k]

/-- A write beyond the control words. -/
theorem step_ignored {registerStatus : Bool} {p : ConfigIn nStat dataWidth} (hen : p.en = true)
    (hwe : p.we = true) (haddr : nCtrl ≤ p.addr) :
    s.step registerStatus ⟨true, p⟩ = { s with statReadout := p.sampled.getD s.statReadout } := by
  have hctrl : writeCtrl s.ctrlReg p = s.ctrlReg := by
    rw [writeCtrl, hen, hwe, if_pos (by decide), dif_neg (Nat.not_lt.2 haddr)]
  have hread : select registerStatus s p = none :=
    select_none fun h => Bool.false_ne_true (h.2.1.symm.trans hwe)
  have hstat := statReadout_step registerStatus s ⟨true, p⟩
  rw [← hstat, step, clock, if_pos rfl, if_pos rfl, hctrl, hread]
  rfl

/-- **The register file.** For any number of words of `n` bytes, both settings of `ASYNC_READ` and
`REGISTER_STATUS` and any inputs since a reset, `config_reg` is a store of control bytes with a
window on the status words. -/
theorem registerFile (hw : dataWidth = 8 * n) (registerStatus : Bool)
    (s0 : ConfigReg nCtrl nStat dataWidth) (hne : rst ≠ []) (hr : ∀ c ∈ rst, c.arstN = false)
    (hins : ∀ c ∈ ins, c.arstN = true) :
    IsStore registerStatus s0.statReadout rst ins
      (Machine.run (step registerStatus) s0 (rst ++ ins)) where
  ctrl i hi j hj := byteAt_run hw s0 registerStatus hne hr hins hi (by omega)
  ignored p hen hwe haddr := step_ignored hen hwe haddr
  readCtrl p hen hwe i hi haddr := by
    rw [← ctrlReg_run hw s0 registerStatus hne hr hins hi]
    exact .of_select (select_ctrl hen hwe hi haddr)
  readStat p hen hwe k hk haddr := by
    rw [← statView_run]
    exact .of_select (select_stat hen hwe hk haddr)

end

/-- No access. -/
def noAccess : ConfigIn 2 32 := ⟨false, 0, false, 0, 0, .replicate 2 0, false⟩

/-- A write to the bytes 0 and 2 of control word 1. -/
def writeTwoBytes : ConfigIn 2 32 :=
  { noAccess with en := true, addr := 1, we := true, be := 5, wdata := 0xAABBCCDD }

/-- A read of control word 1. -/
def readOne : ConfigIn 2 32 := { noAccess with en := true, addr := 1 }

/-- Three control words and two status words: the bytes written are read back, the others are 0. -/
theorem registerFile_readBack :
    Reads true (Machine.run (step true) ⟨.replicate 3 0x12345678, .replicate 2 0, 0⟩
      ([⟨false, noAccess⟩] ++ [⟨true, writeTwoBytes⟩])) readOne 0x00BB00DD := by
  have hins : ∀ c ∈ [(⟨true, writeTwoBytes⟩ : Cycle 2 32)], c.arstN = true := by simp
  have h := (registerFile (n := 4) rfl true
    (⟨.replicate 3 0x12345678, .replicate 2 0, 0⟩ : ConfigReg 3 2 32)
    (List.cons_ne_nil ⟨false, noAccess⟩ []) (by simp) hins).readCtrl readOne rfl rfl 1 (by decide)
    rfl
  rwa [show ctrlWord [(⟨true, writeTwoBytes⟩ : Cycle 2 32)] 1 = 0x00BB00DD by decide] at h

end ConfigReg

end ShakeAccel
