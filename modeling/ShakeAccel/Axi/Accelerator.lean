import ShakeAccel.Axi.Progress
import ShakeAccel.Bus.DataWindow
import ShakeAccel.Bus.Shake128Hw

/-!
# The accelerator on the AXI bus (`accel_top_wrapper.sv`)

The AXI slave of the accelerator is a memory interface whose port is the bus behind it. Every run of
the two is a run of the accelerator behind the bus on the requests that pass the port, and the beats
that answer the reads carry the words that the accelerator shows there (`run_refines`). With that
the driver's job works over AXI: a master that sends the driver's stores in bursts of any shape,
takes the responses and waits reads the digest (`job_over_axi`).
-/

namespace ShakeAccel.Axi

variable {P : TopParams} {i u : Nat}

/-- The accelerator with its AXI slave, and a record of the cycles of the bus behind it. -/
structure AxiAccel (P : TopParams) (i u : Nat) where
  monitor : Monitor P.intAddrWidth i u
  top : AccelTopWrapper P
  cycles : List Cycle

/-- The inputs in one cycle. The accelerator drives `Q_i` of the AXI interface. -/
structure AxiAccelIn (i u : Nat) where
  axi : MemIfIn i u
  undriven : Undriven

/-- The write request of a word. -/
def writeBus {m : Nat} (x : BitVec m × Word × BitVec 4) : BusIn :=
  ⟨true, x.1.toNat, true, x.2.2, x.2.1⟩

/-- The request of a cycle, if it writes. -/
def writeOf (c : Cycle) : Option BusIn :=
  if c.bus.axiMemReq && c.bus.axiMemWe then some c.bus else none

/-- The address of a cycle's request, if it reads. -/
def readOf (c : Cycle) : Option Nat :=
  if c.bus.axiMemReq && !c.bus.axiMemWe then some c.bus.axiMemAddrTmp else none

/-- The words that the accelerator shows after the reads of a run. -/
def readWords (top : AccelTopWrapper P) (cs : List Cycle) : List Word :=
  Machine.collect AccelTopWrapper.step
    (fun s c => if (readOf c).isSome then [(s.step c).axiMemRdata] else []) top cs

theorem readWords_append (top : AccelTopWrapper P) (cs ds : List Cycle) :
    readWords top (cs ++ ds) =
      readWords top cs ++ readWords (Machine.run AccelTopWrapper.step top cs) ds :=
  Machine.collect_append _ _ _ _ _

namespace AxiAccel

/-- The AXI interface after its reset. -/
def start (top : AccelTopWrapper P) : AxiAccel P i u := ⟨.start, top, []⟩

/-- The bus behind the interface. -/
def bus (s : AxiAccel P i u) : BusIn :=
  let p := s.monitor.memIf.port s.top.axiMemRdata
  ⟨!p.cenO, p.aO.toNat, !p.wenO, p.beO, p.dO⟩

/-- The cycle of the accelerator. -/
def cycle (s : AxiAccel P i u) (x : AxiAccelIn i u) : Cycle := ⟨true, s.bus, x.undriven⟩

/-- One cycle. -/
def step (s : AxiAccel P i u) (x : AxiAccelIn i u) : AxiAccel P i u where
  monitor := s.monitor.step { x.axi with q := s.top.axiMemRdata }
  top := s.top.step (s.cycle x)
  cycles := s.cycles ++ [s.cycle x]

/-- The run is a run of the accelerator from `top₀` on the requests that passed the port. -/
structure Performs (top₀ : AccelTopWrapper P) (s : AxiAccel P i u) : Prop where
  top : s.top = Machine.run AccelTopWrapper.step top₀ s.cycles
  rstN : ∀ c ∈ s.cycles, c.rstN = true
  writes : s.cycles.filterMap writeOf = s.monitor.writes.map writeBus
  reads : s.cycles.filterMap readOf = s.monitor.reads.map BitVec.toNat

/-- Also the beats that answer the AXI reads carry the words that the accelerator shows. -/
structure Refines (top₀ : AccelTopWrapper P) (s : AxiAccel P i u) : Prop
    extends s.Performs top₀ where
  axi : s.monitor.Correct
  rs : s.monitor.rs <+: List.zipWith (fun beat word => beat word)
    (s.monitor.ars.flatMap AddrReq.rBeats) (readWords top₀ s.cycles)

/-- What holds between two cycles: the words shown to the AXI reads, the latest in this cycle. -/
structure Follows (top₀ : AccelTopWrapper P) (s : AxiAccel P i u) : Prop
    extends s.Performs top₀ where
  monitor : s.monitor.Follows
  data : s.monitor.data ++ (if s.monitor.reading then [s.top.axiMemRdata] else []) =
    readWords top₀ s.cycles

theorem follows_start (top : AccelTopWrapper P) : (start top : AxiAccel P i u).Follows top :=
  ⟨⟨rfl, fun _ h => absurd h List.not_mem_nil, rfl, rfl⟩, Monitor.follows_start, rfl⟩

section Cycles

variable (s : AxiAccel P i u) (x : AxiAccelIn i u)

theorem writes_step :
    (s.step x).monitor.writes.map writeBus =
      s.monitor.writes.map writeBus ++ [s.cycle x].filterMap writeOf := by
  rw [step, Monitor.step, cycle, bus]
  dsimp only
  cases hc : (s.monitor.memIf.port s.top.axiMemRdata).cenO <;>
    cases hw : (s.monitor.memIf.port s.top.axiMemRdata).wenO <;> simp [writeOf, writeBus]

theorem reads_step :
    (s.step x).monitor.reads.map BitVec.toNat =
      s.monitor.reads.map BitVec.toNat ++ [s.cycle x].filterMap readOf := by
  rw [step, Monitor.step, cycle, bus]
  dsimp only
  cases hc : (s.monitor.memIf.port s.top.axiMemRdata).cenO <;>
    cases hw : (s.monitor.memIf.port s.top.axiMemRdata).wenO <;> simp [readOf]

/-- The word that the AXI interface is shown after a cycle. -/
theorem data_step :
    (if (s.step x).monitor.reading then [(s.step x).top.axiMemRdata] else []) =
      readWords s.top [s.cycle x] := by
  rw [readWords, Machine.collect, Machine.collect, List.append_nil, step, Monitor.step, readOf,
    cycle, bus]
  dsimp only
  cases hc : (s.monitor.memIf.port s.top.axiMemRdata).cenO <;>
    cases hw : (s.monitor.memIf.port s.top.axiMemRdata).wenO <;> rfl

end Cycles

variable {top₀ : AccelTopWrapper P} {s : AxiAccel P i u}

theorem Performs.step (h : s.Performs top₀) (x : AxiAccelIn i u) : (s.step x).Performs top₀ where
  top := by
    rw [AxiAccel.step]
    dsimp only
    rw [Machine.run_append, ← h.top]
    rfl
  rstN := by
    intro c hc
    rcases List.mem_append.1 hc with hc | hc
    · exact h.rstN c hc
    · rw [List.mem_singleton.1 hc]
      rfl
  writes := by
    rw [writes_step, ← h.writes, ← List.filterMap_append]
    rfl
  reads := by
    rw [reads_step, ← h.reads, ← List.filterMap_append]
    rfl

theorem Follows.step (h : s.Follows top₀) (x : AxiAccelIn i u) : (s.step x).Follows top₀ where
  toPerforms := h.toPerforms.step x
  monitor := h.monitor.step _
  data := by
    rw [data_step]
    show (s.monitor.data ++ if s.monitor.reading then [s.top.axiMemRdata] else []) ++ _ = _
    rw [h.data, h.top, ← readWords_append]
    rfl

theorem Follows.run (h : s.Follows top₀) (xs : List (AxiAccelIn i u)) :
    (Machine.run AxiAccel.step s xs).Follows top₀ :=
  Machine.run_invariant (A := fun _ => True) (fun _ x _ h => h.step x) h fun _ _ => trivial

theorem Follows.refines (h : s.Follows top₀) : s.Refines top₀ where
  toPerforms := h.toPerforms
  axi := h.monitor.correct
  rs := h.monitor.correct.rs.trans
    (Pairing.prefix_zipWith (List.prefix_refl _) ⟨_, h.data⟩)

/-- **The accelerator over AXI is the accelerator behind the bus**, whatever the master does. -/
theorem run_refines (top : AccelTopWrapper P) (xs : List (AxiAccelIn i u)) :
    (Machine.run step (start top : AxiAccel P i u) xs).Refines top :=
  ((follows_start top).run xs).refines

/-! ## Runs -/

/-- The cycles of a run are added to the record. -/
theorem cycles_run (s : AxiAccel P i u) (xs : List (AxiAccelIn i u)) :
    ∃ cs, (Machine.run step s xs).cycles = s.cycles ++ cs ∧ cs.length = xs.length := by
  induction xs generalizing s with
  | nil => exact ⟨[], (List.append_nil _).symm, rfl⟩
  | cons x xs ih =>
    obtain ⟨cs, hcs, hlen⟩ := ih (s.step x)
    refine ⟨s.cycle x :: cs, ?_, congrArg (· + 1) hlen⟩
    rw [Machine.run_cons, hcs]
    exact List.append_assoc _ _ _

/-- What has passed the ports of the AXI interface stays in the record. -/
theorem monitor_run (s : AxiAccel P i u) (xs : List (AxiAccelIn i u)) :
    s.monitor.aws <+: (Machine.run step s xs).monitor.aws ∧
      s.monitor.ars <+: (Machine.run step s xs).monitor.ars ∧
      s.monitor.writes <+: (Machine.run step s xs).monitor.writes :=
  Machine.run_invariant (A := fun _ => True)
    (I := fun t : AxiAccel P i u => s.monitor.aws <+: t.monitor.aws ∧
      s.monitor.ars <+: t.monitor.ars ∧ s.monitor.writes <+: t.monitor.writes)
    (fun _ _ _ h => ⟨h.1.trans (List.prefix_append _ _), h.2.1.trans (List.prefix_append _ _),
      h.2.2.trans (List.prefix_append _ _)⟩)
    ⟨List.prefix_refl _, List.prefix_refl _, List.prefix_refl _⟩ fun _ _ => trivial

/-- Cycles without a read issue their writes. -/
theorem exists_issues {cs : List Cycle} (hr : ∀ c ∈ cs, c.rstN = true)
    (hread : cs.filterMap readOf = []) :
    ∃ pre idle, cs = pre ++ idle ∧ Issues (cs.filterMap writeOf) pre ∧ ∀ c ∈ idle, c.Idle := by
  induction cs with
  | nil => exact ⟨[], [], rfl, .nil, fun _ h => absurd h List.not_mem_nil⟩
  | cons c cs ih =>
    have hc : readOf c = none := List.filterMap_eq_nil_iff.1 hread c (.head _)
    obtain ⟨pre, idle, rfl, hi, hidle⟩ := ih (fun d hd => hr d (.tail _ hd))
      (by rwa [List.filterMap_cons_none hc] at hread)
    cases hreq : c.bus.axiMemReq with
    | false =>
      have hw : writeOf c = none := by simp [writeOf, hreq]
      rw [List.filterMap_cons_none hw]
      cases hbs : (pre ++ idle).filterMap writeOf with
      | nil =>
        rw [hbs] at hi
        cases hi
        exact ⟨[], c :: idle, rfl, .nil, List.forall_mem_cons.2 ⟨⟨hr c (.head _), hreq⟩, hidle⟩⟩
      | cons b bs =>
        rw [hbs] at hi
        exact ⟨c :: pre, idle, rfl, .idle ⟨hr c (.head _), hreq⟩ hi, hidle⟩
    | true =>
      have hw : writeOf c = some c.bus := by
        cases hwe : c.bus.axiMemWe with
        | false => simp [readOf, hreq, hwe] at hc
        | true => simp [writeOf, hreq, hwe]
      rw [List.filterMap_cons_some hw]
      exact ⟨c :: pre, idle, rfl, .request (hr c (.head _)) rfl hi, hidle⟩

/-- Cycles that write nothing. -/
theorem readOnly_of_writes {cs : List Cycle} (hr : ∀ c ∈ cs, c.rstN = true)
    (hwrite : cs.filterMap writeOf = []) : ∀ c ∈ cs, c.ReadOnly := by
  intro c hc
  have hw := List.filterMap_eq_nil_iff.1 hwrite c hc
  exact ⟨hr c hc, by simpa [writeOf] using hw⟩

theorem readWords_of_reads {cs : List Cycle} (hread : cs.filterMap readOf = [])
    (top : AccelTopWrapper P) : readWords top cs = [] := by
  induction cs generalizing top with
  | nil => rfl
  | cons c cs ih =>
    have hc : readOf c = none := List.filterMap_eq_nil_iff.1 hread c (.head _)
    rw [List.filterMap_cons_none hc] at hread
    rw [readWords, Machine.collect, hc, ← readWords, ih hread]
    rfl

/-- After a job the reads of the data window show the RAM. -/
theorem readWords_of_ended (hP : P.DataWindowFits) {mem : Vector Word 42} {cs : List Cycle}
    (hcs : ∀ c ∈ cs, c.ReadOnly)
    (hwindow : ∀ a ∈ cs.filterMap readOf, P.addrIsConfig a = false ∧ P.dataWord a < 42)
    {top : AccelTopWrapper P} (h : Ended false mem top) :
    readWords top cs = (cs.filterMap readOf).map fun a => mem.getD (P.dataWord a) 0 := by
  induction cs generalizing top with
  | nil => rfl
  | cons c cs ih =>
    have hc := hcs c (.head _)
    have hrest := h.read hc
    rw [readWords, Machine.collect, ← readWords]
    cases hread : readOf c with
    | none =>
      rw [List.filterMap_cons_none hread] at hwindow ⊢
      exact ih (fun d hd => hcs d (.tail _ hd)) hwindow hrest
    | some a =>
      rw [List.filterMap_cons_some hread] at hwindow ⊢
      obtain ⟨hdata, hword⟩ := hwindow a (.head _)
      rw [List.map_cons, ih (fun d hd => hcs d (.tail _ hd))
        (fun b hb => hwindow b (.tail _ hb)) hrest]
      have hc' : c.bus.axiMemReq = true ∧ c.bus.axiMemWe = false ∧ c.bus.axiMemAddrTmp = a := by
        simpa [readOf, and_assoc] using hread
      obtain ⟨hreq, hwe, rfl⟩ := hc'
      have hquiet : BetweenJobs top c := by
        refine ⟨fun _ => ?_, fun _ _ => hword⟩
        rw [AccelTopWrapper.settle, if_pos hc.1]
        exact ⟨h.start, .inr h.state⟩
      have hshown := axiMemRdata_of_readsWord hP hquiet ⟨hreq, hwe, hdata, rfl⟩ c
      rw [AccelTopWrapper.settle, if_pos hc.1] at hshown
      rw [hshown, AccelTopWrapper.ram, h.ram]
      rfl

end AxiAccel

/-! ## The driver's job -/

/-- The word that a store of the driver writes at the memory port. -/
def storeAxi (w : Store) : BitVec pulpinoTop.intAddrWidth × Word × BitVec 4 :=
  (BitVec.ofNat _ (w.addr / 4), w.bus.axiMemWdata, w.bus.axiMemBe)

theorem writeBus_storeAxi {L : Nat} {m : List Byte} {w : Store}
    (hw : w ∈ shake128HwStores L m) : writeBus (storeAxi w) = w.bus := by
  have haddr : w.addr / 4 < 2 ^ pulpinoTop.intAddrWidth := by
    rw [show pulpinoTop.intAddrWidth = 20 from rfl]
    rw [shake128HwStores, List.mem_append, List.mem_cons, List.mem_map, List.mem_singleton] at hw
    obtain (rfl | ⟨i, hi, rfl⟩) | rfl := hw
    · show 1 / 4 < 2 ^ 20
      decide
    · have hlt := List.mem_range.1 hi
      rw [rateBytes] at hlt
      simp only [accelDataBase]
      omega
    · decide
  rw [writeBus, storeAxi, BitVec.toNat_ofNat, Nat.mod_eq_of_lt haddr, Store.bus]

theorem map_storeAxi (L : Nat) (m : List Byte) :
    ((shake128HwStores L m).map storeAxi).map writeBus = (shake128HwStores L m).map Store.bus := by
  rw [List.map_map]
  exact List.map_congr_left fun w hw => writeBus_storeAxi hw

/-- Byte `j` of the data window after a job: the digest, and behind what is stored of it the
driver's block. -/
def jobByte (L : Nat) (m : List Byte) (j : Nat) : Byte :=
  if j < bytesStored L then stateByte (shakeState m) j else accelDataByte m j

/-- Word `k` of the data window after a job. -/
def resultWord (L : Nat) (m : List Byte) (k : Nat) : Word :=
  Bits.ofBytes 32 fun b => jobByte L m (4 * k + b)

theorem getD_eq_resultWord {L : Nat} {m : List Byte} {mem : Vector Word 42}
    (hmem : ∀ j < 168, memByte mem j = jobByte L m j) {k : Nat} (hk : k < 42) :
    mem.getD k 0 = resultWord L m k := by
  refine Bits.eq_of_byteAt_eq (n := 4) rfl fun b hb => ?_
  rw [resultWord, Bits.byteAt_ofBytes (n := 4) rfl _ hb, ← hmem _ (by omega), memByte,
    show (4 * k + b) / 4 = k by omega, show (4 * k + b) % 4 = b by omega]

/-- The driver's job over AXI in four parts that end in the states `s`, `t`, `v` and `e`: by `t` the
write bursts have carried the driver's stores and no read has been asked for, the responses to all
of them had come by `s`, and from `t` to `v` words of the data window are asked for. -/
structure AxiJob (L : Nat) (m : List Byte) (s t v e : Monitor pulpinoTop.intAddrWidth i u) :
    Prop where
  stores : List.zipWith Monitor.written (t.aws.flatMap (AddrReq.addrs _)) t.ws =
    (shake128HwStores L m).map storeAxi
  answered : t.aws.length ≤ s.bs.length
  unread : t.ars = []
  unwritten : e.aws = t.aws
  asked : e.ars = v.ars
  window : ∀ a ∈ e.ars.flatMap (AddrReq.addrs pulpinoTop.intAddrWidth),
    pulpinoTop.addrIsConfig a.toNat = false ∧ pulpinoTop.dataWord a.toNat < 42

/-- A job that has begun is over after 60 cycles without a write. -/
theorem ended_of_issues {L : Nat} (h1 : 1 ≤ L) (h64 : L ≤ 64) {m : List Byte}
    (hm : m.length < 167) (s0 : AccelTopWrapper pulpinoTop) {rst pre rest : List Cycle}
    (hne : rst ≠ []) (hr : ∀ c ∈ rst, c.rstN = false)
    (hi : Issues ((shake128HwStores L m).map Store.bus) pre) (hrest : ∀ c ∈ rest, c.ReadOnly)
    (hlen : 60 ≤ rest.length) :
    ∃ mem, (∀ j < 168, memByte mem j = jobByte L m j) ∧
      Ended false mem (Machine.run AccelTopWrapper.step (Machine.run AccelTopWrapper.step s0 rst)
        (pre ++ rest)) := by
  have hstandby := standby_of_resets s0 hne hr
  obtain ⟨hlow, hstart, hlength, hmem⟩ := load_shake128HwStores h1 h64 m
    ctrlStart_replicate_zero (Machine.run AccelTopWrapper.step s0 rst).accelWrapperInst.ramInst.mem
  have hjob := ((Standby.run_issues hi hstandby hlow).jobTime hstart).run hrest
  have hdone : doneCycle (ctrlLength (loadCtrl (P := pulpinoTop) (.replicate _ 0)
      ((shake128HwStores L m).map Store.bus))) ≤ 57 := by
    have := lanesStored_le h64
    rw [hlength, doneCycle]
    omega
  have hend := hjob.ended (by omega)
  rw [decide_eq_false (by omega), ← Machine.run_append, hlength] at hend
  exact ⟨_, fun j hj => memByte_jobRam h64 hm hmem hj, hend⟩

/-- All the stores have been made by the time their responses have come. -/
theorem AxiJob.writes {L : Nat} {m : List Byte} {s t v e : Monitor pulpinoTop.intAddrWidth i u}
    (h : AxiJob L m s t v e) (hs : s.Correct) (ht : t.Correct) (he : e.Correct)
    (haws : s.aws <+: t.aws) (hst : s.writes <+: t.writes) (hte : t.writes <+: e.writes) :
    s.writes = (shake128HwStores L m).map storeAxi ∧ e.writes = s.writes := by
  have hlen : t.aws.length ≤ s.aws.length := by
    have := hs.bs.length_le
    rw [List.length_map] at this
    exact h.answered.trans this
  have heq : s.aws = t.aws := haws.eq_of_length (Nat.le_antisymm haws.length_le hlen)
  have hbeats : totalBeats t.aws ≤ s.writes.length := by
    have := hs.answered
    rwa [List.take_of_length_le (heq ▸ h.answered), heq] at this
  have hle : ∀ {y : Monitor pulpinoTop.intAddrWidth i u}, y.Correct → y.aws = t.aws →
      y.writes.length ≤ totalBeats t.aws := by
    intro y hy hyt
    have := hy.writes.length_le
    rw [List.length_zipWith, length_flatMap_beats length_addrs, hyt] at this
    exact this.trans (Nat.min_le_left _ _)
  have hstores : s.writes <+: (shake128HwStores L m).map storeAxi :=
    h.stores ▸ hst.trans ht.writes
  refine ⟨hstores.eq_of_length (Nat.le_antisymm hstores.length_le ?_), ?_⟩
  · rw [← h.stores, List.length_zipWith, length_flatMap_beats length_addrs]
    exact (Nat.min_le_left _ _).trans hbeats
  · have hse := hst.trans hte
    exact (hse.eq_of_length (Nat.le_antisymm hse.length_le
      ((hle he h.unwritten).trans hbeats))).symm

namespace AxiAccel

/-- Nothing is read as long as no read has been asked for. -/
theorem Refines.reads_eq_nil {top₀ : AccelTopWrapper P} {s : AxiAccel P i u} (h : s.Refines top₀)
    (hars : s.monitor.ars = []) : s.cycles.filterMap readOf = [] := by
  have hreads := h.axi.reads
  rw [hars] at hreads
  rw [h.reads, List.prefix_nil.1 hreads]
  rfl

/-- Cycles in which no write is added to the record. -/
theorem Refines.readOnly {top₀ : AccelTopWrapper P} {s t : AxiAccel P i u} (hs : s.Refines top₀)
    (ht : t.Refines top₀) {cs : List Cycle} (hcs : t.cycles = s.cycles ++ cs)
    (hw : t.monitor.writes = s.monitor.writes) : ∀ c ∈ cs, c.ReadOnly := by
  refine readOnly_of_writes (fun c hc => ht.rstN c (hcs ▸ List.mem_append_right _ hc)) ?_
  have hwrites := ht.writes
  rw [hcs, List.filterMap_append, hs.writes, hw] at hwrites
  exact List.append_right_eq_self.1 hwrites

section Job

variable {top₀ : AccelTopWrapper pulpinoTop} {s t v : AxiAccel pulpinoTop i u} {L : Nat}
  {m : List Byte}

/-- The job is over 60 cycles after the responses to the stores. -/
theorem Refines.ended (h1 : 1 ≤ L) (h64 : L ≤ 64) (hm : m.length < 167)
    {s0 : AccelTopWrapper pulpinoTop} {rst ds : List Cycle} (hne : rst ≠ [])
    (hr : ∀ c ∈ rst, c.rstN = false) (hs : s.Refines (Machine.run AccelTopWrapper.step s0 rst))
    (ht : t.Refines (Machine.run AccelTopWrapper.step s0 rst))
    (hwrites : s.monitor.writes = (shake128HwStores L m).map storeAxi)
    (hts : t.monitor.writes = s.monitor.writes) (hars : s.monitor.ars = [])
    (hds : t.cycles = s.cycles ++ ds) (hlen : 60 ≤ ds.length) :
    ∃ mem, (∀ j < 168, memByte mem j = jobByte L m j) ∧ Ended false mem t.top := by
  obtain ⟨pre, idle, hpre, hi, hidle⟩ := exists_issues hs.rstN (hs.reads_eq_nil hars)
  rw [hs.writes, hwrites, map_storeAxi] at hi
  have hrest : ∀ c ∈ idle ++ ds, c.ReadOnly := by
    intro c hc
    rcases List.mem_append.1 hc with hc | hc
    · exact (hidle c hc).readOnly
    · exact hs.readOnly ht hds hts c hc
  rw [ht.top, hds, hpre, List.append_assoc]
  exact ended_of_issues h1 h64 hm s0 hne hr hi hrest (by rw [List.length_append]; omega)

/-- After the job the reads of the data window show the RAM. -/
theorem Refines.results (ht : t.Refines top₀) (hv : v.Refines top₀) {es : List Cycle}
    (hes : v.cycles = t.cycles ++ es) (hvt : v.monitor.writes = t.monitor.writes)
    (hars : t.monitor.ars = []) {mem : Vector Word 42}
    (hmem : ∀ j < 168, memByte mem j = jobByte L m j) (hend : Ended false mem t.top)
    (hwindow : ∀ a ∈ v.monitor.ars.flatMap (AddrReq.addrs pulpinoTop.intAddrWidth),
      pulpinoTop.addrIsConfig a.toNat = false ∧ pulpinoTop.dataWord a.toNat < 42) :
    readWords top₀ v.cycles <+:
      (v.monitor.ars.flatMap (AddrReq.addrs pulpinoTop.intAddrWidth)).map fun a =>
        resultWord L m (pulpinoTop.dataWord a.toNat) := by
  have htreads := ht.reads_eq_nil hars
  have hereads : es.filterMap readOf = v.monitor.reads.map BitVec.toNat := by
    rw [← hv.reads, hes, List.filterMap_append, htreads, List.nil_append]
  have hread : ∀ a ∈ es.filterMap readOf,
      pulpinoTop.addrIsConfig a = false ∧ pulpinoTop.dataWord a < 42 := by
    intro a ha
    rw [hereads] at ha
    obtain ⟨b, hb, rfl⟩ := List.mem_map.1 ha
    exact hwindow b (hv.axi.reads.subset hb)
  have hwords := readWords_of_ended pulpinoTop_dataWindowFits (ht.readOnly hv hes hvt) hread hend
  have hshown : ∀ a ∈ es.filterMap readOf,
      mem.getD (pulpinoTop.dataWord a) 0 = resultWord L m (pulpinoTop.dataWord a) :=
    fun a ha => getD_eq_resultWord hmem (hread a ha).2
  rw [hes, readWords_append, readWords_of_reads htreads, List.nil_append, ← ht.top, hwords,
    List.map_congr_left hshown, hereads, List.map_map]
  exact hv.axi.reads.map _

end Job

/-- The AXI interface takes part in a run with the words that the accelerator drives. -/
theorem exists_run_monitor (s : AxiAccel P i u) (xs : List (AxiAccelIn i u)) :
    ∃ ins : List (MemIfIn i u), ins.length = xs.length ∧
      (Machine.run step s xs).monitor = Machine.run Monitor.step s.monitor ins ∧
      ((∀ x ∈ xs, x.axi.rready = true) → ∀ x ∈ ins, x.rready = true) := by
  induction xs generalizing s with
  | nil => exact ⟨[], rfl, rfl, fun _ _ hx => absurd hx List.not_mem_nil⟩
  | cons x xs ih =>
    obtain ⟨ins, hlen, hrun, hready⟩ := ih (s.step x)
    refine ⟨{ x.axi with q := s.top.axiMemRdata } :: ins, congrArg (· + 1) hlen, hrun, fun h => ?_⟩
    rw [List.forall_mem_cons] at h ⊢
    exact ⟨h.1, hready h.2⟩

/-- A master that takes the beats has got those that it has asked for after `6 * T + 2` cycles. -/
theorem Follows.read_progress {top₀ : AccelTopWrapper P} {s : AxiAccel P i u}
    (h : s.Follows top₀) {xs : List (AxiAccelIn i u)} (hxs : ∀ x ∈ xs, x.axi.rready = true)
    (hlen : 6 * totalBeats s.monitor.ars + 1 < xs.length) :
    totalBeats s.monitor.ars ≤ (Machine.run AxiAccel.step s xs).monitor.rs.length := by
  obtain ⟨ins, hins, hrun, hready⟩ := exists_run_monitor s xs
  rw [hrun]
  exact h.monitor.read_progress (Nat.le_refl _) (hready hxs) (hins ▸ hlen)

/-- **SHAKE128 over AXI.** The driver's stores in write bursts of any shape, the responses to them,
60 cycles later reads of the data window, and a master that takes the answers: it gets the words of
the digest. -/
theorem job_over_axi {L : Nat} (h1 : 1 ≤ L) (h64 : L ≤ 64) {m : List Byte} (hm : m.length < 167)
    {s0 : AccelTopWrapper pulpinoTop} {rst : List Cycle} (hne : rst ≠ [])
    (hr : ∀ c ∈ rst, c.rstN = false) {xs ys zs ws : List (AxiAccelIn i u)}
    {s t v e : AxiAccel pulpinoTop i u}
    (hs : s = Machine.run step (start (Machine.run AccelTopWrapper.step s0 rst)) xs)
    (ht : t = Machine.run step s ys) (hv : v = Machine.run step t zs)
    (he : e = Machine.run step v ws) (h : AxiJob L m s.monitor t.monitor v.monitor e.monitor)
    (hys : 60 ≤ ys.length) (hready : ∀ x ∈ ws, x.axi.rready = true)
    (hws : 6 * totalBeats v.monitor.ars + 1 < ws.length) :
    e.monitor.rs = List.zipWith (fun beat word => beat word)
      (e.monitor.ars.flatMap AddrReq.rBeats)
      ((e.monitor.ars.flatMap (AddrReq.addrs pulpinoTop.intAddrWidth)).map fun a =>
        resultWord L m (pulpinoTop.dataWord a.toNat)) := by
  have hsf : s.Follows _ := hs ▸ (follows_start _).run xs
  have htf : t.Follows _ := ht ▸ hsf.run ys
  have hvf : v.Follows _ := hv ▸ htf.run zs
  have hef : e.Follows _ := he ▸ hvf.run ws
  have hte : e = Machine.run step t (zs ++ ws) := by rw [Machine.run_append, ← hv, he]
  obtain ⟨haws, hars, hst⟩ := ht ▸ monitor_run s ys
  obtain ⟨-, -, hwr⟩ := hte ▸ monitor_run t (zs ++ ws)
  obtain ⟨ds, hds, hdlen⟩ := ht ▸ cycles_run s ys
  obtain ⟨es, hes, -⟩ := hte ▸ cycles_run t (zs ++ ws)
  obtain ⟨hwrites, hse⟩ :=
    h.writes hsf.refines.axi htf.refines.axi hef.refines.axi haws hst hwr
  have hts : t.monitor.writes = s.monitor.writes :=
    (hst.eq_of_length (Nat.le_antisymm hst.length_le (hse ▸ hwr.length_le))).symm
  obtain ⟨mem, hmem, hend⟩ := Refines.ended h1 h64 hm hne hr hsf.refines htf.refines hwrites hts
    (List.prefix_nil.1 (h.unread ▸ hars)) hds (hys.trans hdlen.ge)
  -- what has come is right, and everything has come
  have hrs := hef.refines.rs.trans (Pairing.prefix_zipWith (List.prefix_refl _)
    (htf.refines.results hef.refines hes (hse.trans hts.symm) h.unread hmem hend h.window))
  refine hrs.eq_of_length (Nat.le_antisymm hrs.length_le ?_)
  have hall := hvf.read_progress hready hws
  rw [← he, ← h.asked] at hall
  rw [List.length_zipWith, length_flatMap_beats length_rBeats]
  exact (Nat.min_le_left _ _).trans hall

/-! A job for the empty message, with a burst of one beat for each store. -/

/-- A master that asks for nothing and takes what it is offered. -/
def taking : AxiAccelIn 2 1 where
  axi :=
    { awvalid := false, aw := .zero, wvalid := false, w := .zero, bready := true, arvalid := false
      ar := .zero, rready := true, testEn := false, q := 0 }
  undriven := .zero

/-- A store of the driver. -/
def storing (w : Store) : AxiAccelIn 2 1 :=
  { taking with axi := { taking.axi with
      awvalid := true
      aw := ⟨1, BitVec.ofNat 32 w.addr, 0, 0⟩
      wvalid := true
      w := ⟨w.bus.axiMemWdata, w.bus.axiMemBe, true⟩ } }

/-- A request for the first four words of the data window. -/
def reading : AxiAccelIn 2 1 :=
  { taking with axi := { taking.axi with
      arvalid := true
      ar := ⟨2, BitVec.ofNat 32 accelDataBase, 3, 0⟩ } }

/-- The stores for the empty message, until the last response has come. -/
def storingEmpty : List (AxiAccelIn 2 1) :=
  ((shake128HwStores 16 []).flatMap fun w => [storing w, taking, taking]) ++ [taking]

/-- After the responses to the stores. -/
def emptyStored : AxiAccel pulpinoTop 2 1 :=
  Machine.run step (start (Machine.run AccelTopWrapper.step .blank [⟨false, .none, .zero⟩]))
    storingEmpty

/-- After the job. -/
def emptyEnded : AxiAccel pulpinoTop 2 1 :=
  Machine.run step emptyStored (List.replicate 60 taking)

/-- After the request for the words. -/
def emptyAsked : AxiAccel pulpinoTop 2 1 := Machine.run step emptyEnded [reading]

/-- After the answers. -/
def emptyRead : AxiAccel pulpinoTop 2 1 :=
  Machine.run step emptyAsked (List.replicate 26 taking)

set_option maxRecDepth 100000 in
theorem emptyRead_monitor :
    (List.zipWith Monitor.written (emptyEnded.monitor.aws.flatMap (AddrReq.addrs _))
        emptyEnded.monitor.ws = (shake128HwStores 16 []).map storeAxi ∧
      emptyEnded.monitor.aws.length ≤ emptyStored.monitor.bs.length ∧
      emptyEnded.monitor.ars = [] ∧ emptyRead.monitor.aws = emptyEnded.monitor.aws) ∧
    emptyAsked.monitor.ars = [reading.axi.ar] ∧ emptyRead.monitor.ars = [reading.axi.ar] := by
  decide +kernel

/-- The words that are read. -/
theorem reading_words : ([reading.axi.ar].flatMap (AddrReq.addrs pulpinoTop.intAddrWidth)).map
    (fun a => pulpinoTop.dataWord a.toNat) = [0, 1, 2, 3] := by
  decide +kernel

theorem reading_window :
    ∀ a ∈ ([reading.axi.ar].flatMap (AddrReq.addrs pulpinoTop.intAddrWidth)).map BitVec.toNat,
      pulpinoTop.addrIsConfig a = false ∧ pulpinoTop.dataWord a < 42 := by
  decide +kernel

theorem axiJob_empty : AxiJob 16 [] emptyStored.monitor emptyEnded.monitor emptyAsked.monitor
    emptyRead.monitor := by
  obtain ⟨⟨hstores, hanswered, hunread, hunwritten⟩, hasked, hars⟩ := emptyRead_monitor
  refine ⟨hstores, hanswered, hunread, hunwritten, hars.trans hasked.symm, ?_⟩
  rw [hars]
  exact List.forall_mem_map.1 reading_window

theorem job_over_axi_empty :
    emptyRead.monitor.rs = List.zipWith (fun beat word => beat word) reading.axi.ar.rBeats
      ([0, 1, 2, 3].map (resultWord 16 [])) := by
  obtain ⟨-, hasked, hars⟩ := emptyRead_monitor
  have hjob := job_over_axi (by decide) (by decide) (by decide) (by simp) (by simp)
    (show emptyStored = _ from rfl) (show emptyEnded = _ from rfl) (show emptyAsked = _ from rfl)
    (show emptyRead = _ from rfl) axiJob_empty (by simp)
    (fun x hx => by rw [List.eq_of_mem_replicate hx]; rfl) (by rw [hasked]; decide)
  rw [hars, List.flatMap_singleton] at hjob
  rw [← reading_words, List.map_map, List.flatMap_singleton]
  exact hjob

end AxiAccel

end ShakeAccel.Axi
