import Mathlib.Data.List.Infix
import ShakeAccel.Axi.Fifo
import ShakeAccel.Axi.ReadCtrl
import ShakeAccel.Axi.WriteCtrl
import ShakeAccel.Lib.Pairing

/-!
# The memory interface (`axi_mem_if_SP.sv`)

Five buffers, the two controllers and an arbiter for the one port of the memory. A monitor records
what passes the ports of the interface. Whatever the master does, at every moment of every run the
words written are those of the write bursts, in order, the words read are those of the read bursts,
in order, and the responses and beats returned answer the requests in order with the data read
(`run_correct`): nothing is lost, doubled or exchanged.
-/

namespace ShakeAccel.Axi

variable {m i u : Nat}

/-- `BUFF_DEPTH_SLAVE`. -/
def buffDepthSlave : Nat := 4

/-- The registers of `axi_mem_if_SP`. -/
structure MemIfSP (m i u : Nat) where
  slaveAwBuffer : GenericFifo (AddrReq i u) buffDepthSlave
  slaveArBuffer : GenericFifo (AddrReq i u) buffDepthSlave
  slaveWBuffer : GenericFifo WBeat buffDepthSlave
  slaveRBuffer : GenericFifo (RBeat i u) buffDepthSlave
  slaveBBuffer : GenericFifo (BResp i u) buffDepthSlave
  writeCtrl : WriteOnlyCtrl m i u
  readCtrl : ReadOnlyCtrl m i u
  rrFlag : Bool

/-- The inputs of `axi_mem_if_SP` in one cycle. -/
structure MemIfIn (i u : Nat) where
  awvalid : Bool
  aw : AddrReq i u
  wvalid : Bool
  w : WBeat
  bready : Bool
  arvalid : Bool
  ar : AddrReq i u
  rready : Bool
  testEn : Bool
  q : Word

/-- The memory port; `CEN_o` and `WEN_o` are active low. -/
structure MemPort (m : Nat) where
  cenO : Bool
  wenO : Bool
  aO : BitVec m
  dO : Word
  beO : BitVec 4

/-- The words of zero bits that the buffers hold after the reset. -/
def AddrReq.zero : AddrReq i u := ⟨0, 0, 0, 0⟩

/-- The beat of zero bits. -/
def WBeat.zero : WBeat := ⟨0, 0, false⟩

/-- The beat of zero bits. -/
def RBeat.zero : RBeat i u := ⟨0, 0, 0, false, 0⟩

/-- The response of zero bits. -/
def BResp.zero : BResp i u := ⟨0, 0, 0⟩

namespace MemIfSP

/-- The state after the reset. -/
def reset : MemIfSP m i u where
  slaveAwBuffer := .reset .zero _
  slaveArBuffer := .reset .zero _
  slaveWBuffer := .reset .zero _
  slaveRBuffer := .reset .zero _
  slaveBBuffer := .reset .zero _
  writeCtrl := .reset
  readCtrl := .reset
  rrFlag := false

/-- The inputs of the write controller. -/
def writeIn (s : MemIfSP m i u) (grant : Bool) : WriteIn i u where
  awvalid := s.slaveAwBuffer.validO
  aw := s.slaveAwBuffer.dataO .zero
  wvalid := s.slaveWBuffer.validO
  w := s.slaveWBuffer.dataO .zero
  bready := s.slaveBBuffer.grantO
  grant := grant

/-- The inputs of the read controller. -/
def readIn (s : MemIfSP m i u) (q : Word) (grant : Bool) : ReadIn i u where
  arvalid := s.slaveArBuffer.validO
  ar := s.slaveArBuffer.dataO .zero
  rready := s.slaveRBuffer.grantO
  memQ := q
  grant := grant

/-- `valid_W`, which depends neither on the grant nor on the data read. -/
def validW (s : MemIfSP m i u) : Bool := (s.writeCtrl.compute (s.writeIn false)).validO

/-- `valid_R`. -/
def validR (s : MemIfSP m i u) : Bool := (s.readCtrl.compute (s.readIn 0 false)).validO

/-- `grant_W` of the arbiter. -/
def grantW (s : MemIfSP m i u) : Bool := if s.rrFlag then !s.validR else s.validW

/-- `grant_R` of the arbiter. -/
def grantR (s : MemIfSP m i u) : Bool := if s.rrFlag then s.validR else !s.validW

/-- The inputs of the write controller with the arbiter's grant. -/
def toWrite (s : MemIfSP m i u) : WriteIn i u := s.writeIn s.grantW

/-- The inputs of the read controller with the arbiter's grant. -/
def toRead (s : MemIfSP m i u) (q : Word) : ReadIn i u := s.readIn q s.grantR

/-- The memory port, `_MUX_MEM_`. -/
def port (s : MemIfSP m i u) (q : Word) : MemPort m :=
  let r := s.readCtrl.compute (s.toRead q)
  let w := s.writeCtrl.compute s.toWrite
  if s.validR && s.grantR then ⟨r.memCenO, true, r.memAO, 0, 0⟩
  else ⟨w.memCenO, false, w.memAO, s.toWrite.w.data, s.toWrite.w.strb⟩

/-- The ports of the AW buffer. -/
def awIn (s : MemIfSP m i u) (x : MemIfIn i u) : FifoIn (AddrReq i u) :=
  ⟨x.aw, x.awvalid, (s.writeCtrl.compute s.toWrite).awreadyO, x.testEn⟩

/-- The ports of the W buffer. -/
def wIn (s : MemIfSP m i u) (x : MemIfIn i u) : FifoIn WBeat :=
  ⟨x.w, x.wvalid, (s.writeCtrl.compute s.toWrite).wreadyO, x.testEn⟩

/-- The ports of the B buffer. -/
def bIn (s : MemIfSP m i u) (x : MemIfIn i u) : FifoIn (BResp i u) :=
  ⟨s.writeCtrl.bResp, (s.writeCtrl.compute s.toWrite).bvalidO, x.bready, x.testEn⟩

/-- The ports of the AR buffer. -/
def arIn (s : MemIfSP m i u) (x : MemIfIn i u) : FifoIn (AddrReq i u) :=
  ⟨x.ar, x.arvalid, (s.readCtrl.compute (s.toRead x.q)).arreadyO, x.testEn⟩

/-- The ports of the R buffer. -/
def rIn (s : MemIfSP m i u) (x : MemIfIn i u) : FifoIn (RBeat i u) :=
  ⟨s.readCtrl.rBeat (s.toRead x.q), (s.readCtrl.compute (s.toRead x.q)).rvalidO, x.rready, x.testEn⟩

/-- The rising edge. -/
def clock (s : MemIfSP m i u) (x : MemIfIn i u) : MemIfSP m i u where
  slaveAwBuffer := s.slaveAwBuffer.clock (s.awIn x)
  slaveArBuffer := s.slaveArBuffer.clock (s.arIn x)
  slaveWBuffer := s.slaveWBuffer.clock (s.wIn x)
  slaveRBuffer := s.slaveRBuffer.clock (s.rIn x)
  slaveBBuffer := s.slaveBBuffer.clock (s.bIn x)
  writeCtrl := s.writeCtrl.clock s.toWrite
  readCtrl := s.readCtrl.clock (s.toRead x.q)
  rrFlag := if (s.port x.q).cenO then s.rrFlag else !s.rrFlag

/-! ## The arbiter -/

section Arbiter

variable (s : MemIfSP m i u) (q : Word)

theorem validO_write (g : Bool) : (s.writeCtrl.compute (s.writeIn g)).validO = s.validW :=
  WriteOnlyCtrl.validO_grant s.writeCtrl (s.writeIn false) g

theorem validO_read (g : Bool) : (s.readCtrl.compute (s.readIn q g)).validO = s.validR := by
  rw [validR, ReadOnlyCtrl.compute, ReadOnlyCtrl.compute]
  cases s.readCtrl.CS with
  | IDLE | WAIT_BURST_GRANT => rfl
  | SINGLE_R | LAST_BURST_R | WAIT_RREADY | WAIT_LAST_RREADY | BURST_R | WAIT_BURST_RREADY =>
    rw [readIn, readIn]
    cases s.slaveRBuffer.grantO <;> rfl

/-- One of the controllers has the grant. -/
theorem grantR_eq : s.grantR = !s.grantW := by
  rw [grantR, grantW]
  cases s.rrFlag <;> simp

/-- Without the grant of the other one a controller has the grant, or asks for nothing. -/
theorem grantW_or (h : (s.validR && s.grantR) = false) : s.grantW = true ∨ s.validW = false := by
  rw [grantR] at h
  rw [grantW]
  cases hf : s.rrFlag <;> cases hr : s.validR <;> simp_all

theorem takesW_toWrite : s.writeCtrl.takesW s.toWrite = (s.validW && s.grantW) := by
  rw [WriteOnlyCtrl.takesW_eq, toWrite, validO_write]
  rfl

theorem reads_toRead : s.readCtrl.reads (s.toRead q) = (s.validR && s.grantR) := by
  rw [ReadOnlyCtrl.reads, toRead, validO_read]
  rfl

/-- The port carries a read exactly if the read controller reads. -/
theorem port_read : (!(s.port q).cenO && (s.port q).wenO) = s.readCtrl.reads (s.toRead q) := by
  rw [reads_toRead, port]
  cases h : s.validR && s.grantR with
  | false => simp
  | true =>
    rw [Bool.and_eq_true] at h
    simp [ReadOnlyCtrl.memCenO_eq, toRead, validO_read, h]

/-- The port carries a write exactly if the write controller takes a beat. -/
theorem port_write : (!(s.port q).cenO && !(s.port q).wenO) = s.writeCtrl.takesW s.toWrite := by
  rw [takesW_toWrite, port]
  cases h : s.validR && s.grantR with
  | false =>
    have hgrant := s.grantW_or h
    have hcen := WriteOnlyCtrl.memCenO_eq s.writeCtrl (x := s.toWrite)
      (by rw [toWrite, validO_write]; exact hgrant)
    rw [show (s.writeCtrl.compute s.toWrite).validO = s.validW from s.validO_write _] at hcen
    rcases hgrant with hg | hv
    · simp [hcen, hg]
    · simp [hcen, hv]
  | true =>
    rw [Bool.and_eq_true, grantR_eq] at h
    simp_all

/-- The address of a read. -/
theorem port_aO_read (h : s.readCtrl.reads (s.toRead q) = true) :
    (s.port q).aO = (s.readCtrl.compute (s.toRead q)).memAO := by
  rw [reads_toRead] at h
  rw [port, if_pos h]

/-- The word of a write. -/
theorem port_beat (h : s.writeCtrl.takesW s.toWrite = true) :
    (s.port q).aO = (s.writeCtrl.compute s.toWrite).memAO ∧
      (s.port q).dO = s.toWrite.w.data ∧ (s.port q).beO = s.toWrite.w.strb := by
  rw [takesW_toWrite, Bool.and_eq_true] at h
  have hread : (s.validR && s.grantR) = false := by
    rw [grantR_eq, h.2]
    exact Bool.and_false _
  rw [port, hread]
  exact ⟨rfl, rfl, rfl⟩

end Arbiter

end MemIfSP

/-! ## The monitor -/

/-- The interface and what has passed its ports: the requests and beats that the master gave, the
responses and beats that it took, the words written and read, and what `Q_i` showed in the cycles
after the reads. -/
structure Monitor (m i u : Nat) where
  memIf : MemIfSP m i u
  aws : List (AddrReq i u)
  ws : List WBeat
  bs : List (BResp i u)
  ars : List (AddrReq i u)
  rs : List (RBeat i u)
  writes : List (BitVec m × Word × BitVec 4)
  reads : List (BitVec m)
  reading : Bool
  data : List Word

namespace Monitor

/-- After the reset nothing has passed. -/
def start : Monitor m i u := ⟨.reset, [], [], [], [], [], [], [], false, []⟩

/-- One cycle. -/
def step (y : Monitor m i u) (x : MemIfIn i u) : Monitor m i u :=
  let s := y.memIf
  let p := s.port x.q
  { memIf := s.clock x
    aws := y.aws ++ s.slaveAwBuffer.pushed (s.awIn x)
    ws := y.ws ++ s.slaveWBuffer.pushed (s.wIn x)
    bs := y.bs ++ s.slaveBBuffer.popped .zero (s.bIn x)
    ars := y.ars ++ s.slaveArBuffer.pushed (s.arIn x)
    rs := y.rs ++ s.slaveRBuffer.popped .zero (s.rIn x)
    writes := y.writes ++ if !p.cenO && !p.wenO then [(p.aO, p.dO, p.beO)] else []
    reads := y.reads ++ if !p.cenO && p.wenO then [p.aO] else []
    reading := !p.cenO && p.wenO
    data := y.data ++ if y.reading then [x.q] else [] }

/-- The word that a beat writes at an address. -/
def written (a : BitVec m) (w : WBeat) : BitVec m × Word × BitVec 4 := (a, w.data, w.strb)

/-- What has passed the ports fits together. -/
structure Correct (y : Monitor m i u) : Prop where
  writes : y.writes <+: List.zipWith written (y.aws.flatMap (AddrReq.addrs m)) y.ws
  bs : y.bs <+: y.aws.map AddrReq.bResp
  /-- a response comes after the beats of its burst -/
  answered : totalBeats (y.aws.take y.bs.length) ≤ y.writes.length
  reads : y.reads <+: y.ars.flatMap (AddrReq.addrs m)
  rs : y.rs <+: List.zipWith (fun beat word => beat word) (y.ars.flatMap AddrReq.rBeats) y.data

/-- The state of the writing side: the requests `started` and the beats `taken` have left their
buffers, and `k` responses have entered theirs. -/
structure WriteSide (y : Monitor m i u) (started awq : List (AddrReq i u)) (taken wq : List WBeat)
    (k : Nat) (bq : List (BResp i u)) : Prop where
  awBuffer : y.memIf.slaveAwBuffer.Represents awq
  wBuffer : y.memIf.slaveWBuffer.Represents wq
  bBuffer : y.memIf.slaveBBuffer.Represents bq
  ctrl : y.memIf.writeCtrl.Follows started taken.length k
  aws : y.aws = started ++ awq
  ws : y.ws = taken ++ wq
  bs : y.bs ++ bq = (started.map AddrReq.bResp).take k
  writes : y.writes = List.zipWith written (started.flatMap (AddrReq.addrs m)) taken

/-- The state of the reading side: the requests `started` have left their buffer, `n` words have
been read, and `k` beats have entered their buffer. -/
structure ReadSide (y : Monitor m i u) (started arq : List (AddrReq i u)) (n k : Nat)
    (rq : List (RBeat i u)) : Prop where
  arBuffer : y.memIf.slaveArBuffer.Represents arq
  rBuffer : y.memIf.slaveRBuffer.Represents rq
  ctrl : y.memIf.readCtrl.Follows started n y.data k
  ars : y.ars = started ++ arq
  reads : y.reads = (started.flatMap (AddrReq.addrs m)).take n
  reading : y.reading = y.memIf.readCtrl.fresh
  rs : y.rs ++ rq =
    (List.zipWith (fun beat word => beat word) (started.flatMap AddrReq.rBeats) y.data).take k

theorem buffDepthSlave_pow : buffDepthSlave = 2 ^ GenericFifo.addrDepth buffDepthSlave := by
  rw [GenericFifo.addrDepth, show buffDepthSlave = 2 ^ 2 from rfl, Nat.clog_pow _ _ Nat.one_lt_two]

/-- A cycle of a buffer of the interface. -/
theorem represents_clock {α : Type*} {f : GenericFifo α buffDepthSlave} {q : List α}
    (h : f.Represents q) (c : FifoIn α) :
    (f.clock c).Represents (GenericFifo.queueStep buffDepthSlave q c) :=
  h.clock (by decide) buffDepthSlave_pow c

theorem length_append_ite {α : Type*} (l : List α) (c : Bool) (a : α) :
    (l ++ if c then [a] else []).length = l.length + c.toNat := by
  cases c <;> simp

section Step

variable {y : Monitor m i u} {started awq arq : List (AddrReq i u)} {taken wq : List WBeat}
  {n k : Nat} {bq : List (BResp i u)} {rq : List (RBeat i u)}

/-- The words written by the end of a cycle. -/
theorem WriteSide.writes_step (h : y.WriteSide started awq taken wq k bq) (x : MemIfIn i u) :
    (y.step x).writes = List.zipWith written
      ((started ++ if y.memIf.writeCtrl.takesAw y.memIf.toWrite then [y.memIf.toWrite.aw]
        else []).flatMap (AddrReq.addrs m))
      (taken ++ if y.memIf.writeCtrl.takesW y.memIf.toWrite then [y.memIf.toWrite.w] else []) := by
  have hle : taken.length ≤ (started.flatMap (AddrReq.addrs m)).length := by
    rw [length_flatMap_beats length_addrs]
    exact h.ctrl.written.2.2
  rw [step]
  dsimp only
  rw [MemIfSP.port_write, h.writes]
  cases hw : y.memIf.writeCtrl.takesW y.memIf.toWrite with
  | false =>
    rw [List.flatMap_append, if_neg Bool.false_ne_true, if_neg Bool.false_ne_true,
      List.append_nil, List.append_nil, Pairing.zipWith_append_left hle]
  | true =>
    obtain ⟨ha, hd, hbe⟩ := y.memIf.port_beat x.q hw
    rw [if_pos rfl, if_pos rfl, Pairing.zipWith_concat (h.ctrl.memAO hw), List.flatMap_append,
      Pairing.zipWith_append_left hle, ha, hd, hbe]
    rfl

/-- **A cycle of the writing side.** -/
theorem WriteSide.step (h : y.WriteSide started awq taken wq k bq) (x : MemIfIn i u) :
    (y.step x).WriteSide
      (started ++ if y.memIf.writeCtrl.takesAw y.memIf.toWrite then [y.memIf.toWrite.aw] else [])
      (GenericFifo.queueStep buffDepthSlave awq (y.memIf.awIn x))
      (taken ++ if y.memIf.writeCtrl.takesW y.memIf.toWrite then [y.memIf.toWrite.w] else [])
      (GenericFifo.queueStep buffDepthSlave wq (y.memIf.wIn x))
      (k + (y.memIf.writeCtrl.responds y.memIf.toWrite).toNat)
      (GenericFifo.queueStep buffDepthSlave bq (y.memIf.bIn x)) where
  awBuffer := represents_clock h.awBuffer _
  wBuffer := represents_clock h.wBuffer _
  bBuffer := represents_clock h.bBuffer _
  ctrl := by
    rw [length_append_ite]
    exact h.ctrl.clock _
  aws := by
    have hq := h.awBuffer.transfer .zero (y.memIf.awIn x)
    rw [Monitor.step, h.aws, List.append_assoc, hq, ← List.append_assoc]
    rfl
  ws := by
    have hq := h.wBuffer.transfer .zero (y.memIf.wIn x)
    rw [Monitor.step, h.ws, List.append_assoc, hq, ← List.append_assoc]
    rfl
  bs := by
    have hq := h.bBuffer.transfer .zero (y.memIf.bIn x)
    have hk : k ≤ (started.map AddrReq.bResp).length := by
      rw [List.length_map]
      exact h.ctrl.written.1
    rw [Monitor.step]
    dsimp only
    rw [List.append_assoc, ← hq, ← List.append_assoc, h.bs, List.map_append]
    show _ ++ (if y.memIf.writeCtrl.responds y.memIf.toWrite then [y.memIf.writeCtrl.bResp]
      else []) = _
    cases hr : y.memIf.writeCtrl.responds y.memIf.toWrite with
    | false => rw [if_neg Bool.false_ne_true, List.append_nil, Bool.toNat_false, Nat.add_zero,
        List.take_append_of_le_length hk]
    | true =>
      have hresp := h.ctrl.bResp hr
      rw [if_pos rfl, Bool.toNat_true, Pairing.take_succ_append hk]
      rw [List.getElem?_append_left (List.getElem?_eq_some_iff.1 hresp).1]
      exact hresp
  writes := h.writes_step x

/-- The beats given by the end of a cycle. -/
theorem ReadSide.beats_step (h : y.ReadSide started arq n k rq) (x : MemIfIn i u) :
    (List.zipWith (fun beat word => beat word) (started.flatMap AddrReq.rBeats) y.data).take k ++
        (if y.memIf.readCtrl.gives (y.memIf.toRead x.q) then
          [y.memIf.readCtrl.rBeat (y.memIf.toRead x.q)] else []) =
      (List.zipWith (fun beat word => beat word)
        ((started ++ if y.memIf.readCtrl.takesAr (y.memIf.toRead x.q) then [(y.memIf.toRead x.q).ar]
          else []).flatMap AddrReq.rBeats)
        (y.memIf.readCtrl.shown (y.memIf.toRead x.q) y.data)).take
        (k + (y.memIf.readCtrl.gives (y.memIf.toRead x.q)).toNat) := by
  obtain ⟨hn, hdata, hk⟩ := h.ctrl.counts
  have hstarted := (List.prefix_append started
    (if y.memIf.readCtrl.takesAr (y.memIf.toRead x.q) then [(y.memIf.toRead x.q).ar]
      else [])).flatMap AddrReq.rBeats
  have hshown : y.data <+: y.memIf.readCtrl.shown (y.memIf.toRead x.q) y.data :=
    List.prefix_append _ _
  obtain ⟨t, ht⟩ := Pairing.prefix_zipWith (f := fun beat word => beat word) hstarted hshown
  have hlen : k ≤ (List.zipWith (fun beat word => beat word) (started.flatMap AddrReq.rBeats)
      y.data).length := by
    rw [List.length_zipWith, length_flatMap_beats length_rBeats]
    omega
  rw [← ht]
  cases hg : y.memIf.readCtrl.gives (y.memIf.toRead x.q) with
  | false => rw [if_neg Bool.false_ne_true, List.append_nil, Bool.toNat_false, Nat.add_zero,
      List.take_append_of_le_length hlen]
  | true =>
    obtain ⟨beat, word, hbeat, hword, heq⟩ := h.ctrl.rBeat hg
    obtain ⟨s, hs⟩ := hstarted
    rw [if_pos rfl, Bool.toNat_true, Pairing.take_succ_append hlen]
    rw [ht, List.getElem?_zipWith, ← hs,
      List.getElem?_append_left (List.getElem?_eq_some_iff.1 hbeat).1, hbeat, hword, heq]

/-- **A cycle of the reading side.** -/
theorem ReadSide.step (h : y.ReadSide started arq n k rq) (x : MemIfIn i u) :
    (y.step x).ReadSide
      (started ++ if y.memIf.readCtrl.takesAr (y.memIf.toRead x.q) then [(y.memIf.toRead x.q).ar]
        else [])
      (GenericFifo.queueStep buffDepthSlave arq (y.memIf.arIn x))
      (n + (y.memIf.readCtrl.reads (y.memIf.toRead x.q)).toNat)
      (k + (y.memIf.readCtrl.gives (y.memIf.toRead x.q)).toNat)
      (GenericFifo.queueStep buffDepthSlave rq (y.memIf.rIn x)) where
  arBuffer := represents_clock h.arBuffer _
  rBuffer := represents_clock h.rBuffer _
  ctrl := by
    have hctrl := h.ctrl.clock (y.memIf.toRead x.q)
    rw [ReadOnlyCtrl.shown, ← h.reading] at hctrl
    exact hctrl
  ars := by
    have hq := h.arBuffer.transfer .zero (y.memIf.arIn x)
    rw [Monitor.step, h.ars, List.append_assoc, hq, ← List.append_assoc]
    rfl
  reads := by
    have hn : n ≤ (started.flatMap (AddrReq.addrs m)).length := by
      rw [length_flatMap_beats length_addrs]
      exact h.ctrl.counts.1
    rw [Monitor.step]
    dsimp only
    rw [MemIfSP.port_read, h.reads]
    cases hr : y.memIf.readCtrl.reads (y.memIf.toRead x.q) with
    | false => rw [if_neg Bool.false_ne_true, List.append_nil, Bool.toNat_false, Nat.add_zero,
        List.flatMap_append, List.take_append_of_le_length hn]
    | true =>
      have haddr := h.ctrl.memAO hr
      rw [List.flatMap_append] at haddr ⊢
      rw [if_pos rfl, Bool.toNat_true, Pairing.take_succ_append hn haddr,
        y.memIf.port_aO_read x.q hr]
  reading := by
    rw [Monitor.step]
    dsimp only
    rw [MemIfSP.port_read]
    exact (ReadOnlyCtrl.fresh_clock _ _).symm
  rs := by
    have hq := h.rBuffer.transfer .zero (y.memIf.rIn x)
    have hbeats := h.beats_step x
    rw [ReadOnlyCtrl.shown, ← h.reading] at hbeats
    rw [Monitor.step]
    dsimp only
    rw [List.append_assoc, ← hq, ← List.append_assoc, h.rs]
    exact hbeats

end Step

/-- The state of both sides. -/
def Follows (y : Monitor m i u) : Prop :=
  (∃ started awq taken wq k bq, y.WriteSide started awq taken wq k bq) ∧
    ∃ started arq n k rq, y.ReadSide started arq n k rq

theorem follows_start : (start : Monitor m i u).Follows := by
  have hd : 0 < buffDepthSlave := by decide
  refine ⟨⟨[], [], [], [], 0, [], ?_⟩, ⟨[], [], 0, 0, [], ?_⟩⟩
  · exact ⟨GenericFifo.represents_reset hd _, GenericFifo.represents_reset hd _,
      GenericFifo.represents_reset hd _, WriteOnlyCtrl.follows_reset, rfl, rfl, rfl, rfl⟩
  · exact ⟨GenericFifo.represents_reset hd _, GenericFifo.represents_reset hd _,
      ReadOnlyCtrl.follows_reset, rfl, rfl, rfl, rfl⟩

theorem Follows.step {y : Monitor m i u} (h : y.Follows) (x : MemIfIn i u) :
    (y.step x).Follows := by
  obtain ⟨⟨_, _, _, _, _, _, hw⟩, ⟨_, _, _, _, _, hr⟩⟩ := h
  exact ⟨⟨_, _, _, _, _, _, hw.step x⟩, ⟨_, _, _, _, _, hr.step x⟩⟩

theorem Follows.run {y : Monitor m i u} (h : y.Follows) (xs : List (MemIfIn i u)) :
    (Machine.run Monitor.step y xs).Follows :=
  Machine.run_invariant (A := fun _ => True) (fun _ x _ h => h.step x) h fun _ _ => trivial

theorem WriteSide.length_writes {y : Monitor m i u} {started awq : List (AddrReq i u)}
    {taken wq : List WBeat} {k : Nat} {bq : List (BResp i u)}
    (h : y.WriteSide started awq taken wq k bq) : y.writes.length = taken.length := by
  rw [h.writes, List.length_zipWith, length_flatMap_beats length_addrs]
  exact Nat.min_eq_right h.ctrl.written.2.2

theorem Follows.correct {y : Monitor m i u} (h : y.Follows) : y.Correct := by
  obtain ⟨⟨started, awq, taken, wq, k, bq, hw⟩, ⟨startedR, arq, n, j, rq, hr⟩⟩ := h
  have haws : started <+: y.aws := ⟨awq, hw.aws.symm⟩
  have hars : startedR <+: y.ars := ⟨arq, hr.ars.symm⟩
  have hbs : y.bs <+: (started.map AddrReq.bResp).take k := ⟨bq, hw.bs⟩
  obtain ⟨hk, hbeats, -⟩ := hw.ctrl.written
  refine ⟨?_, hbs.trans ((List.take_prefix _ _).trans (haws.map _)), ?_,
    hr.reads ▸ (List.take_prefix _ _).trans (hars.flatMap _), ?_⟩
  · rw [hw.writes]
    exact Pairing.prefix_zipWith (haws.flatMap _) ⟨wq, hw.ws.symm⟩
  · have hle : y.bs.length ≤ k := hbs.length_le.trans (List.length_take_le _ _)
    rw [hw.length_writes, hw.aws, List.take_append_of_le_length (hle.trans hk)]
    exact (totalBeats_mono (List.take_prefix_take_left hle)).trans hbeats
  · have hrs : y.rs <+: _ := ⟨rq, hr.rs⟩
    exact (hrs.trans (List.take_prefix _ _)).trans
      (Pairing.prefix_zipWith (hars.flatMap _) (List.prefix_refl _))

/-- **The memory interface is correct on every run**, whatever the master and the memory do. -/
theorem run_correct (xs : List (MemIfIn i u)) :
    (Machine.run step (start : Monitor m i u) xs).Correct :=
  (follows_start.run xs).correct

end Monitor

end ShakeAccel.Axi
