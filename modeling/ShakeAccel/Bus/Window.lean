import Mathlib.Data.Nat.Prime.Basic
import Mathlib.Tactic.FinCases
import ShakeAccel.Bus.Job

/-!
# The configuration window

The driver sees the configuration window as an array of words (`windowWrite`, `windowRead`). The
wrapper takes the index of the register from the low bits of the byte address instead of the word
address (`cfgAddr`), so the array is right at word offset 0 only. While `done` is high the port of
the register file is in use by the write that clears the start bit, and a read returns whatever the
read register holds.
-/

namespace ShakeAccel

open AccelTopWrapper

/-! ## The array that the driver expects -/

/-- The word offset of a request: its byte offset divided by 4. -/
def TopParams.wordOffset (P : TopParams) (axiMemAddrTmp : Nat) : Nat :=
  axiMemAddrTmp % 2 ^ (P.intAddrWidth - TopParams.alignBits)

section
variable {P : TopParams}

/-- A write of the array: the enabled bytes of the addressed control word, and nothing else. -/
def windowWrite (ctrl : Vector Word P.ctrlWords) (b : BusIn) : Vector Word P.ctrlWords :=
  if b.axiMemReq && P.addrIsConfig b.axiMemAddrTmp && b.axiMemWe then
    if h : P.wordOffset b.axiMemAddrTmp < P.ctrlWords then
      ctrl.set (P.wordOffset b.axiMemAddrTmp) (Bits.mergeBytes b.axiMemBe.getLsbD
        ctrl[P.wordOffset b.axiMemAddrTmp] b.axiMemWdata)
    else ctrl
  else ctrl

/-- A read of the array: the control words, and behind them the status words. -/
def windowRead (ctrl : Vector Word P.ctrlWords) (stat : Vector Word P.statWords) (b : BusIn) :
    Option Word :=
  if b.axiMemReq && P.addrIsConfig b.axiMemAddrTmp && !b.axiMemWe then
    if h : P.wordOffset b.axiMemAddrTmp < P.ctrlWords then
      some ctrl[P.wordOffset b.axiMemAddrTmp]
    else if h : P.ctrlWords ≤ P.wordOffset b.axiMemAddrTmp ∧
        P.wordOffset b.axiMemAddrTmp < P.ctrlWords + P.statWords then
      some stat[P.wordOffset b.axiMemAddrTmp - P.ctrlWords]
    else none
  else none

/-- The control words of the array after a list of cycles from reset. -/
def windowCtrl (P : TopParams) (cs : List Cycle) : Vector Word P.ctrlWords :=
  (cs.map Cycle.bus).foldl windowWrite (.replicate _ 0)

/-- A run behaves as the array: in every cycle up to which `done` has been low, the control words
are those of the array, the access of the cycle leaves those of the array, and a read of a control
or status word returns the word of the array. -/
def BehavesAsArray (s : AccelTopWrapper P) (cs : List Cycle) : Prop :=
  ∀ n, (hn : n < cs.length) → (∀ k ≤ n, (Machine.run step s (cs.take k)).done = false) →
    (Machine.run step s (cs.take n)).configRegInst.ctrlReg = windowCtrl P (cs.take n) ∧
    (Machine.run step s (cs.take (n + 1))).configRegInst.ctrlReg = windowCtrl P (cs.take (n + 1)) ∧
    ∀ w, windowRead (windowCtrl P (cs.take n))
        (Machine.run step s (cs.take n)).configRegInst.statReadout cs[n].bus = some w →
      (Machine.run step s (cs.take (n + 1))).axiMemRdata = w

/-! ## The decoding -/

theorem cfgAddr_eq (tmp : Nat) :
    P.cfgAddr tmp = P.wordOffset tmp * 4 % 2 ^ P.cfgAddrBits := rfl

/-- **The decoding is right at word offset 0 only.** -/
theorem decode_eq_iff {i : Nat} (hi : i < P.ctrlWords + P.statWords) :
    i * 4 % 2 ^ P.cfgAddrBits = i ↔ i = 0 := by
  constructor
  · intro h
    have hlt : i < 2 ^ P.cfgAddrBits :=
      Nat.lt_of_lt_of_le hi (Nat.le_pow_clog (by decide) _)
    -- `4 * i` and `i` agree modulo the power of two, which has no factor 3
    have hdvd : 2 ^ P.cfgAddrBits ∣ 3 * i := by
      have hmod := Nat.div_add_mod (i * 4) (2 ^ P.cfgAddrBits)
      rw [h] at hmod
      exact ⟨i * 4 / 2 ^ P.cfgAddrBits, by omega⟩
    have hcop : Nat.Coprime (2 ^ P.cfgAddrBits) 3 := Nat.Coprime.pow_left _ (by decide)
    exact Nat.eq_zero_of_dvd_of_lt (hcop.dvd_of_dvd_mul_left hdvd) hlt
  · rintro rfl
    rw [Nat.zero_mul, Nat.zero_mod]

/-- Where the decoding is right, the register file does what the array does. -/
theorem writeCtrl_eq_windowWrite {b : BusIn}
    (h : b.axiMemReq = true → P.addrIsConfig b.axiMemAddrTmp = true →
      P.cfgAddr b.axiMemAddrTmp = P.wordOffset b.axiMemAddrTmp)
    (ctrl : Vector Word P.ctrlWords) : b.writeCtrl ctrl = windowWrite ctrl b := by
  cases hr : b.axiMemReq with
  | false => simp [BusIn.writeCtrl, ConfigReg.writeCtrl, TopParams.configPort, windowWrite, hr]
  | true =>
    cases hc : P.addrIsConfig b.axiMemAddrTmp with
    | false =>
      simp [BusIn.writeCtrl, ConfigReg.writeCtrl, TopParams.configPort, windowWrite, hr, hc]
    | true =>
      simp [BusIn.writeCtrl, ConfigReg.writeCtrl, TopParams.configPort, windowWrite, hr, hc,
        h hr hc]

theorem select_eq_windowRead {b : BusIn}
    (h : b.axiMemReq = true → P.addrIsConfig b.axiMemAddrTmp = true →
      P.cfgAddr b.axiMemAddrTmp = P.wordOffset b.axiMemAddrTmp)
    (r : ConfigReg P.ctrlWords P.statWords 32) (statVec : Vector Word P.statWords) :
    ConfigReg.select true r (P.configPort b statVec) = windowRead r.ctrlReg r.statReadout b := by
  cases hr : b.axiMemReq with
  | false => simp [ConfigReg.select, TopParams.configPort, windowRead, hr]
  | true =>
    cases hc : P.addrIsConfig b.axiMemAddrTmp with
    | false => simp [ConfigReg.select, TopParams.configPort, windowRead, hr, hc]
    | true =>
      simp only [ConfigReg.select, TopParams.configPort, windowRead, hr, hc, h hr hc, Bool.and_self,
        Bool.true_and, ConfigReg.statView, if_true]
      split
      · split
        next h1 => rw [dif_neg (by omega)]
        next => rfl
      · rfl

/-! ## One access -/

variable {s : AccelTopWrapper P} {c : Cycle}

theorem toConfigReg_of_low (hd : s.done = false) :
    s.toConfigReg c = P.configPort c.bus (s.statusVec c.undriven) := by
  rw [toConfigReg, hd]
  rfl

/-! ## Runs -/

/-- All accesses of a run to the configuration window are at the given word offsets. -/
def AccessesAt (O : Nat → Prop) (cs : List Cycle) : Prop :=
  ∀ c ∈ cs, c.bus.axiMemReq = true → P.addrIsConfig c.bus.axiMemAddrTmp = true →
    O (P.wordOffset c.bus.axiMemAddrTmp)

theorem decode_of_accessesAt_zero {cs : List Cycle} (h : AccessesAt (P := P) (· = 0) cs) :
    ∀ c ∈ cs, c.bus.axiMemReq = true → P.addrIsConfig c.bus.axiMemAddrTmp = true →
      P.cfgAddr c.bus.axiMemAddrTmp = P.wordOffset c.bus.axiMemAddrTmp := by
  intro c hc hr hcfg
  rw [cfgAddr_eq, h c hc hr hcfg, Nat.zero_mul, Nat.zero_mod]

theorem take_succ_run (s : AccelTopWrapper P) {cs : List Cycle} {n : Nat} (hn : n < cs.length) :
    Machine.run step s (cs.take (n + 1)) = step (Machine.run step s (cs.take n)) cs[n] := by
  rw [List.take_succ_eq_append_getElem hn, Machine.run_append, Machine.run_cons, Machine.run_nil]

theorem windowCtrl_succ {cs : List Cycle} {n : Nat} (hn : n < cs.length) :
    windowCtrl P (cs.take (n + 1)) = windowWrite (windowCtrl P (cs.take n)) cs[n].bus := by
  rw [windowCtrl, List.take_succ_eq_append_getElem hn, List.map_append, List.foldl_append]
  rfl

/-- While `done` is low the control words follow the array. -/
theorem ctrlReg_eq_windowCtrl {mem : Vector Word 42} (h : Standby (.replicate _ 0) mem s)
    {cs : List Cycle} (hr : ∀ c ∈ cs, c.rstN = true) (hO : AccessesAt (P := P) (· = 0) cs) {n : Nat}
    (hn : n ≤ cs.length) (hd : ∀ k < n, (Machine.run step s (cs.take k)).done = false) :
    (Machine.run step s (cs.take n)).configRegInst.ctrlReg = windowCtrl P (cs.take n) := by
  induction n with
  | zero => exact h.ctrlReg
  | succ n ih =>
    have hmem : cs[n] ∈ cs := List.getElem_mem hn
    rw [take_succ_run s hn, step_ctrlReg (hr _ hmem) (hd n (Nat.lt_succ_self n)),
      writeCtrl_eq_windowWrite (decode_of_accessesAt_zero hO _ hmem), windowCtrl_succ hn,
      ih (by omega) fun k hk => hd k (by omega)]

/-- **Runs that access word offset 0 only behave as the array.** -/
theorem behavesAsArray_of_zero {mem : Vector Word 42} (h : Standby (.replicate _ 0) mem s)
    {cs : List Cycle} (hr : ∀ c ∈ cs, c.rstN = true) (hO : AccessesAt (P := P) (· = 0) cs) :
    BehavesAsArray s cs := by
  intro n hn hd
  have hctrl := ctrlReg_eq_windowCtrl h hr hO (Nat.le_of_lt hn) fun k hk => hd k (Nat.le_of_lt hk)
  refine ⟨hctrl, ctrlReg_eq_windowCtrl h hr hO hn fun k hk => hd k (by omega), fun w hw => ?_⟩
  have hmem : cs[n] ∈ cs := List.getElem_mem hn
  have hcfg : P.addrIsConfig cs[n].bus.axiMemAddrTmp = true := by
    by_contra hne
    simp [windowRead, hne] at hw
  rw [take_succ_run s hn, step_axiMemRdata_config hcfg, step_rdata _ (hr _ hmem),
    toConfigReg_of_low (hd n (Nat.le_refl n)),
    select_eq_windowRead (decode_of_accessesAt_zero hO _ hmem), hctrl, hw]
  rfl

/-- A write of 1 to the word at offset `i`. -/
def BusIn.writeOne (i : Nat) : BusIn := ⟨true, i, true, 0xf, 1⟩

theorem config_of_small (hw : P.ctrlWords + P.statWords ≤ 2 ^ (P.intAddrWidth - 3)) {i : Nat}
    (hi : i < P.ctrlWords + P.statWords) : P.wordOffset i = i ∧ P.addrIsConfig i = true := by
  have hC := P.ctrlWords_pos
  have hS := P.statWords_pos
  have h3 : 3 < P.intAddrWidth := by
    by_contra hle
    rw [show P.intAddrWidth - 3 = 0 by omega, Nat.pow_zero] at hw
    omega
  have hpow2 : 2 ^ (P.intAddrWidth - 2) = 2 * 2 ^ (P.intAddrWidth - 3) := by
    rw [show P.intAddrWidth - 2 = P.intAddrWidth - 3 + 1 by omega, Nat.pow_succ']
  have hpow1 : 2 ^ (P.intAddrWidth - 1) = 4 * 2 ^ (P.intAddrWidth - 3) := by
    rw [show P.intAddrWidth - 1 = P.intAddrWidth - 3 + 2 by omega, Nat.pow_add, Nat.mul_comm]
  have hoff : P.wordOffset i = i := by
    rw [TopParams.wordOffset, TopParams.alignBits]
    exact Nat.mod_eq_of_lt (by omega)
  refine ⟨hoff, ?_⟩
  have haddr : P.axiMemAddr i = i * 4 := congrArg (· * 4) hoff
  rw [TopParams.addrIsConfig, haddr, Nat.testBit_lt_two_pow (by omega)]
  rfl

/-- A single write at any other control word offset is enough to break the array. -/
theorem not_behavesAsArray_writeOne (hw : P.ctrlWords + P.statWords ≤ 2 ^ (P.intAddrWidth - 3))
    {i : Nat} (hi : i < P.ctrlWords) (h0 : i ≠ 0) {mem : Vector Word 42}
    (h : Standby (.replicate _ 0) mem s) (u : Undriven) :
    ¬BehavesAsArray s [⟨true, .writeOne i, u⟩] := by
  intro hall
  have hlt : i < P.ctrlWords + P.statWords := by omega
  obtain ⟨hoff, hcfg⟩ := config_of_small hw hlt
  have hdec : P.cfgAddr i ≠ i := by
    rw [cfgAddr_eq, hoff]
    exact fun he => h0 ((decode_eq_iff hlt).1 he)
  obtain ⟨-, hctrl, -⟩ := hall 0 (by simp) (fun k hk => by
    rw [Nat.le_zero.1 hk]
    exact h.done)
  have hmerge : Bits.mergeBytes (15#4).getLsbD 0#32 1#32 = 1#32 := TrueDpRam.mergeBytes_word 0 1
  -- word `i` of the array is 1, but the write went to another word or to none
  have harray : (windowCtrl P [⟨true, .writeOne i, u⟩]).get ⟨i, hi⟩ = 1 := by
    have hset : windowCtrl P [⟨true, .writeOne i, u⟩] =
        (Vector.replicate P.ctrlWords (0 : Word)).set i 1 hi := by
      simp [windowCtrl, windowWrite, BusIn.writeOne, hoff, hcfg, hi, hmerge]
    rw [hset, Vec.get_set_self]
  have hreal : ((BusIn.writeOne i).writeCtrl (Vector.replicate P.ctrlWords (0 : Word))).get
      ⟨i, hi⟩ = 0 := by
    rw [BusIn.writeCtrl, ConfigReg.writeCtrl]
    split
    · split
      next hj =>
        exact (Vector.getElem_set_ne hj hi hdec).trans (Vector.getElem_replicate _)
      next => exact Vector.getElem_replicate _
    · exact Vector.getElem_replicate _
  rw [List.take_of_length_le (by simp), Machine.run_cons, Machine.run_nil, step_ctrlReg rfl h.done,
    h.ctrlReg] at hctrl
  rw [← hctrl] at harray
  exact absurd (harray.symm.trans hreal) (by decide)

/-- **When the configuration window is an array of words.** For every set of control word offsets:
all runs from reset whose accesses are at these offsets behave as the array if and only if the set
holds no offset but 0. The decoding itself is right at no offset but 0, status words included. -/
theorem configWindow_iff (P : TopParams)
    (hw : P.ctrlWords + P.statWords ≤ 2 ^ (P.intAddrWidth - 3)) :
    (∀ O : Nat → Prop, (∀ i, O i → i < P.ctrlWords) →
      ((∀ (s0 : AccelTopWrapper P) (rst cs : List Cycle), rst ≠ [] → (∀ c ∈ rst, c.rstN = false) →
          (∀ c ∈ cs, c.rstN = true) → AccessesAt (P := P) O cs →
          BehavesAsArray (Machine.run step s0 rst) cs) ↔
        ∀ i, O i → i = 0)) ∧
    ∀ i < P.ctrlWords + P.statWords, P.cfgAddr i = P.wordOffset i ↔ i = 0 := by
  refine ⟨fun O hO => ⟨fun h i hi => ?_, fun h s0 rst cs hne hrst hcs hat => ?_⟩, fun i hi => ?_⟩
  · by_contra h0
    have hlt : i < P.ctrlWords + P.statWords := by have := hO i hi; omega
    obtain ⟨hoff, -⟩ := config_of_small hw hlt
    have hrst : ∀ c ∈ [(⟨false, .none, .zero⟩ : Cycle)], c.rstN = false := by simp
    refine not_behavesAsArray_writeOne hw (hO i hi) h0
      (standby_of_resets (.blank : AccelTopWrapper P) (by simp) hrst) .zero
      (h .blank _ _ (by simp) hrst (by simp) fun c hc _ _ => ?_)
    rw [List.mem_singleton.1 hc]
    exact hoff.symm ▸ hi
  · exact behavesAsArray_of_zero (standby_of_resets s0 hne hrst) hcs
      fun c hc hr hcfg => h _ (hat c hc hr hcfg)
  · rw [cfgAddr_eq, (config_of_small hw hi).1, decode_eq_iff hi]

/-- With the parameters of `pulpino_top`: a write and a read at word offset 0 behave as the array,
runs that access word 2 do not, and word 2 is not decoded. -/
theorem configWindow_iff_pulpino :
    BehavesAsArray (Machine.run step (.blank : AccelTopWrapper pulpinoTop) [⟨false, .none, .zero⟩])
        [⟨true, .writeOne 0, .zero⟩, ⟨true, ⟨true, 0, false, 0xf, 0⟩, .zero⟩] ∧
      (¬∀ (s0 : AccelTopWrapper pulpinoTop) (rst cs : List Cycle), rst ≠ [] →
        (∀ c ∈ rst, c.rstN = false) → (∀ c ∈ cs, c.rstN = true) →
        AccessesAt (P := pulpinoTop) (· = 2) cs → BehavesAsArray (Machine.run step s0 rst) cs) ∧
      ¬pulpinoTop.cfgAddr 2 = pulpinoTop.wordOffset 2 := by
  obtain ⟨hruns, hdec⟩ := configWindow_iff pulpinoTop (by decide)
  refine ⟨(hruns (· = 0) (fun i hi => hi ▸ by decide)).2 (fun i hi => hi) _ _ _ (by simp) (by simp)
    (by simp) ?_, fun h => ?_, fun h => ?_⟩
  · intro c hc _ _
    fin_cases hc <;> rfl
  · exact absurd ((hruns (· = 2) (fun i hi => hi ▸ by decide)).1 h 2 rfl) (by decide)
  · exact absurd ((hdec 2 (by decide)).1 h) (by decide)

/-- A write at byte offset 8 of `pulpino_top`'s instance does not reach control word 2. -/
theorem configWindow_aliases :
    ¬BehavesAsArray (Machine.run step (.blank : AccelTopWrapper pulpinoTop) [⟨false, .none, .zero⟩])
      [⟨true, .writeOne 2, .zero⟩] :=
  not_behavesAsArray_writeOne (by decide) (by decide) (by decide)
    (standby_of_resets _ (by simp) (by simp)) _

end

end ShakeAccel
