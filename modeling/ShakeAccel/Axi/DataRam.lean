import ShakeAccel.Axi.MemIf

/-!
# The data RAM and its two masters (`core_region.sv`)

The data RAM is shared by the core's data port and the AXI memory interface. `ram_mux` gives the RAM
to the interface whenever it asks and to the core otherwise. The RAM registers a word in every
cycle, and who asked in the cycle before takes it. The specification is a memory whose accesses are
atomic: a run of the hardware is a log of accesses, and everything that the two masters are shown is
what the atomic memory shows for that log (`run_atomic`).
-/

namespace ShakeAccel.Axi

variable {w i u : Nat}

/-! ## The specification -/

/-- The memory array of `sp_ram`. -/
abbrev RamWords (w : Nat) := Vector Word (2 ^ w)

/-- An access to one word. -/
structure RamAccess (w : Nat) where
  addr : BitVec w
  we : Bool
  wdata : Word
  be : BitVec 4

/-- The word that an access finds. -/
def RamAccess.word (mem : RamWords w) (a : RamAccess w) : Word := mem.get a.addr.toFin

/-- The memory after an access. -/
def RamAccess.apply (mem : RamWords w) (a : RamAccess w) : RamWords w :=
  if a.we then
    mem.set a.addr.toNat (Bits.mergeBytes a.be.getLsbD (a.word mem) a.wdata) a.addr.isLt
  else mem

/-- An access with the master that makes it. -/
inductive Entry (w : Nat) where
  | axi (a : RamAccess w)
  | core (a : RamAccess w)

namespace Entry

/-- The access. -/
def access : Entry w → RamAccess w
  | axi a | core a => a

/-- The accesses of the core. -/
def ofCore : Entry w → Option (RamAccess w)
  | axi _ => none
  | core a => some a

/-- The words that the AXI interface writes. -/
def axiWrite : Entry w → Option (BitVec w × Word × BitVec 4)
  | axi a => if a.we then some (a.addr, a.wdata, a.be) else none
  | core _ => none

/-- The addresses that the AXI interface reads. -/
def axiRead : Entry w → Option (BitVec w)
  | axi a => if a.we then none else some a.addr
  | core _ => none

end Entry

/-- The atomic memory after a log. -/
def exec (mem : RamWords w) (log : List (Entry w)) : RamWords w :=
  Machine.run (fun mem e => e.access.apply mem) mem log

/-- The words that the atomic memory shows to the accesses that `f` selects. -/
def words {α : Type*} (f : Entry w → Option α) (mem : RamWords w) (log : List (Entry w)) :
    List Word :=
  Machine.collect (fun mem e => e.access.apply mem)
    (fun mem e => if (f e).isSome then [e.access.word mem] else []) mem log

theorem exec_append (mem : RamWords w) (xs ys : List (Entry w)) :
    exec mem (xs ++ ys) = exec (exec mem xs) ys := Machine.run_append _ _ _ _

theorem words_append {α : Type*} (f : Entry w → Option α) (mem : RamWords w)
    (xs ys : List (Entry w)) :
    words f mem (xs ++ ys) = words f mem xs ++ words f (exec mem xs) ys :=
  Machine.collect_append _ _ _ _ _

/-! ## The hardware -/

/-- The registers of `sp_ram`. -/
structure SpRam (w : Nat) where
  mem : RamWords w
  rdataO : Word

/-- The rising edge of `sp_ram`, which registers the word as it was before. -/
def SpRam.clock (s : SpRam w) (en : Bool) (a : RamAccess w) : SpRam w where
  mem :=
    if en && a.we then
      s.mem.set a.addr.toNat (Bits.mergeBytes a.be.getLsbD (s.mem.get a.addr.toFin) a.wdata)
        a.addr.isLt
    else s.mem
  rdataO := s.mem.get a.addr.toFin

theorem SpRam.mem_clock (s : SpRam w) (en : Bool) (a : RamAccess w) :
    (s.clock en a).mem = if en then a.apply s.mem else s.mem := by
  rw [SpRam.clock, RamAccess.apply]
  cases en <;> rfl

/-- The inputs of one port of `ram_mux`. -/
structure MuxPort (w : Nat) where
  req : Bool
  access : RamAccess w

/-- The registers of `ram_mux`. Its three widths are 32, so no size is adapted. -/
structure RamMux where
  port0Rvalid : Bool
  port1Rvalid : Bool

namespace RamMux

/-- `port0_gnt_o`. -/
def port0Gnt (port0 : MuxPort w) : Bool := port0.req

/-- `port1_gnt_o`. -/
def port1Gnt (port0 port1 : MuxPort w) : Bool := !port0.req && port1.req

/-- `ram_en_o`. -/
def ramEn (port0 port1 : MuxPort w) : Bool := port0.req || port1.req

/-- `ram_addr_o`, `ram_wdata_o`, `ram_we_o` and `ram_be_o`. -/
def ramAccess (port0 port1 : MuxPort w) : RamAccess w :=
  if port0.req then port0.access else port1.access

/-- The rising edge. -/
def clock (port0 port1 : MuxPort w) : RamMux := ⟨port0Gnt port0, port1Gnt port0 port1⟩

end RamMux

/-- The outputs of the core's load-store unit. -/
structure LsuOut where
  req : Bool
  addr : BitVec 32
  we : Bool
  be : BitVec 4
  wdata : Word

/-- The core's port of `data_ram_mux_i`: `core_data_req` and the address bits above the byte. -/
def LsuOut.port1 (w : Nat) (l : LsuOut) : MuxPort w where
  req := decide (l.addr.extractLsb' 20 12 = 0x001) && l.req
  access := ⟨l.addr.extractLsb' 2 w, l.we, l.wdata, l.be⟩

/-- The inputs in one cycle. The RAM drives `Q_i` of the AXI interface. -/
structure DataMemIn (i u : Nat) where
  axi : MemIfIn i u
  lsu : LsuOut

/-- The data RAM with what stands in front of it, and a record of a run: the monitor of the AXI
interface, the core's accesses that were granted, the words that the core was shown with
`core_data_rvalid`, and the accesses that the RAM has performed. -/
structure DataMem (w i u : Nat) where
  monitor : Monitor (w + 2) i u
  ramMux : RamMux
  ram : SpRam w
  granted : List (RamAccess w)
  answers : List Word
  log : List (Entry w)

namespace DataMem

/-- After the reset, which leaves the RAM as it is. -/
def start (ram : SpRam w) : DataMem w i u := ⟨.start, ⟨false, false⟩, ram, [], [], []⟩

/-- The inputs of the AXI interface. -/
def toAxi (s : DataMem w i u) (x : DataMemIn i u) : MemIfIn i u := { x.axi with q := s.ram.rdataO }

/-- The AXI interface's port of `data_ram_mux_i`. -/
def port0 (s : DataMem w i u) : MuxPort w :=
  let p := s.monitor.memIf.port s.ram.rdataO
  ⟨!p.cenO, ⟨p.aO.setWidth w, !p.wenO, p.dO, p.beO⟩⟩

/-- The access that the RAM performs. -/
def entries (s : DataMem w i u) (x : DataMemIn i u) : List (Entry w) :=
  if s.port0.req then [.axi s.port0.access]
  else if (x.lsu.port1 w).req then [.core (x.lsu.port1 w).access] else []

/-- One cycle. -/
def step (s : DataMem w i u) (x : DataMemIn i u) : DataMem w i u :=
  let port0 := s.port0
  let port1 := x.lsu.port1 w
  { monitor := s.monitor.step (s.toAxi x)
    ramMux := RamMux.clock port0 port1
    ram := s.ram.clock (RamMux.ramEn port0 port1) (RamMux.ramAccess port0 port1)
    granted := s.granted ++ if RamMux.port1Gnt port0 port1 then [port1.access] else []
    answers := s.answers ++ if s.ramMux.port1Rvalid then [s.ram.rdataO] else []
    log := s.log ++ s.entries x }

/-- The atomic memory that starts with `mem₀` performs the log: it ends with the contents of the
RAM, the log holds the accesses of the two masters in their orders, and the core has been shown the
word for each of its accesses, the latest in this cycle. -/
structure Performs (mem₀ : RamWords w) (s : DataMem w i u) : Prop where
  mem : s.ram.mem = exec mem₀ s.log
  granted : s.log.filterMap Entry.ofCore = s.granted
  answers : s.answers ++ (if s.ramMux.port1Rvalid then [s.ram.rdataO] else []) =
    words Entry.ofCore mem₀ s.log
  writes : s.log.filterMap Entry.axiWrite =
    s.monitor.writes.map fun x => (x.1.setWidth w, x.2.1, x.2.2)
  reads : s.log.filterMap Entry.axiRead = s.monitor.reads.map (BitVec.setWidth w)

/-- Also the beats that answer the AXI reads carry the words of the atomic memory. -/
structure Atomic (mem₀ : RamWords w) (s : DataMem w i u) : Prop extends s.Performs mem₀ where
  axi : s.monitor.Correct
  rs : s.monitor.rs <+: List.zipWith (fun beat word => beat word)
    (s.monitor.ars.flatMap AddrReq.rBeats) (words Entry.axiRead mem₀ s.log)

/-- What holds between two cycles: the words shown to the AXI reads, the latest in this cycle. -/
structure Follows (mem₀ : RamWords w) (s : DataMem w i u) : Prop extends s.Performs mem₀ where
  monitor : s.monitor.Follows
  data : s.monitor.data ++ (if s.monitor.reading then [s.ram.rdataO] else []) =
    words Entry.axiRead mem₀ s.log

theorem follows_start (ram : SpRam w) : (start ram : DataMem w i u).Follows ram.mem :=
  ⟨⟨rfl, rfl, rfl, rfl, rfl⟩, Monitor.follows_start, rfl⟩

variable {mem₀ : RamWords w} {s : DataMem w i u}

section Entries

variable (s : DataMem w i u) (x : DataMemIn i u)

theorem mem_step : (s.step x).ram.mem = exec s.ram.mem (s.entries x) := by
  rw [DataMem.step, entries]
  dsimp only
  rw [SpRam.mem_clock, RamMux.ramEn, RamMux.ramAccess]
  cases s.port0.req <;> cases (x.lsu.port1 w).req <;> rfl

theorem granted_step :
    (s.step x).granted = s.granted ++ (s.entries x).filterMap Entry.ofCore := by
  rw [DataMem.step, entries]
  dsimp only
  rw [RamMux.port1Gnt]
  cases s.port0.req <;> cases (x.lsu.port1 w).req <;> rfl

/-- The word that the core is shown after a cycle. -/
theorem answer_step :
    (if (s.step x).ramMux.port1Rvalid then [(s.step x).ram.rdataO] else []) =
      words Entry.ofCore s.ram.mem (s.entries x) := by
  rw [DataMem.step, entries]
  dsimp only
  rw [RamMux.clock, RamMux.port1Gnt, SpRam.clock, RamMux.ramAccess]
  cases s.port0.req <;> cases (x.lsu.port1 w).req <;> rfl

/-- The word that the AXI interface is shown after a cycle. -/
theorem data_step :
    (if (s.step x).monitor.reading then [(s.step x).ram.rdataO] else []) =
      words Entry.axiRead s.ram.mem (s.entries x) := by
  rw [DataMem.step, entries]
  dsimp only
  rw [Monitor.step, SpRam.clock, RamMux.ramAccess, port0, toAxi]
  dsimp only
  cases (s.monitor.memIf.port s.ram.rdataO).cenO <;>
    cases (s.monitor.memIf.port s.ram.rdataO).wenO <;>
    cases (x.lsu.port1 w).req <;>
    simp [words, Machine.collect, Entry.axiRead, Entry.access, RamAccess.word]

theorem writes_step :
    ((s.step x).monitor.writes.map fun x => (x.1.setWidth w, x.2.1, x.2.2)) =
      (s.monitor.writes.map fun x => (x.1.setWidth w, x.2.1, x.2.2)) ++
        (s.entries x).filterMap Entry.axiWrite := by
  rw [DataMem.step, entries]
  dsimp only
  rw [Monitor.step, port0, toAxi]
  dsimp only
  cases (s.monitor.memIf.port s.ram.rdataO).cenO <;>
    cases (s.monitor.memIf.port s.ram.rdataO).wenO <;>
    cases (x.lsu.port1 w).req <;> simp [Entry.axiWrite]

theorem reads_step :
    (s.step x).monitor.reads.map (BitVec.setWidth w) =
      s.monitor.reads.map (BitVec.setWidth w) ++ (s.entries x).filterMap Entry.axiRead := by
  rw [DataMem.step, entries]
  dsimp only
  rw [Monitor.step, port0, toAxi]
  dsimp only
  cases (s.monitor.memIf.port s.ram.rdataO).cenO <;>
    cases (s.monitor.memIf.port s.ram.rdataO).wenO <;>
    cases (x.lsu.port1 w).req <;> simp [Entry.axiRead]

end Entries

theorem Performs.step (h : s.Performs mem₀) (x : DataMemIn i u) : (s.step x).Performs mem₀ where
  mem := by rw [mem_step, h.mem, ← exec_append]; rfl
  granted := by
    rw [granted_step, ← h.granted, ← List.filterMap_append]
    rfl
  answers := by
    rw [answer_step, h.mem]
    show (s.answers ++ if s.ramMux.port1Rvalid then [s.ram.rdataO] else []) ++ _ = _
    rw [h.answers, ← words_append]
    rfl
  writes := by
    rw [writes_step, ← h.writes, ← List.filterMap_append]
    rfl
  reads := by
    rw [reads_step, ← h.reads, ← List.filterMap_append]
    rfl

theorem Follows.step (h : s.Follows mem₀) (x : DataMemIn i u) : (s.step x).Follows mem₀ where
  toPerforms := h.toPerforms.step x
  monitor := h.monitor.step _
  data := by
    rw [data_step, h.mem]
    show (s.monitor.data ++ if s.monitor.reading then [s.ram.rdataO] else []) ++ _ = _
    rw [h.data, ← words_append]
    rfl

theorem Follows.run (h : s.Follows mem₀) (xs : List (DataMemIn i u)) :
    (Machine.run DataMem.step s xs).Follows mem₀ :=
  Machine.run_invariant (A := fun _ => True) (fun _ x _ h => h.step x) h fun _ _ => trivial

theorem Follows.atomic (h : s.Follows mem₀) : s.Atomic mem₀ where
  toPerforms := h.toPerforms
  axi := h.monitor.correct
  rs := h.monitor.correct.rs.trans
    (Pairing.prefix_zipWith (List.prefix_refl _) ⟨_, h.data⟩)

/-- An access that the RAM has performed stays where it is in the log. -/
theorem log_run (s : DataMem w i u) (xs : List (DataMemIn i u)) :
    s.log <+: (Machine.run step s xs).log :=
  Machine.run_invariant (A := fun _ => True) (I := fun t : DataMem w i u => s.log <+: t.log)
    (fun _ _ _ h => h.trans (List.prefix_append _ _)) (List.prefix_refl _) fun _ _ => trivial

/-- **The data RAM is an atomic memory for the core and the AXI bus**, whatever the two do. What is
asked for after a cycle comes in the log after all that was performed before, so a word written by
one master is seen by the other as soon as the write has been granted or answered. -/
theorem run_atomic (ram : SpRam w) (xs ys : List (DataMemIn i u)) :
    let s := Machine.run step (start ram : DataMem w i u) xs
    s.Atomic ram.mem ∧ s.log <+: (Machine.run step s ys).log :=
  ⟨((follows_start ram).run xs).atomic, log_run _ ys⟩

end DataMem

end ShakeAccel.Axi
