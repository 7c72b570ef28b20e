import ShakeAccel.Axi.Burst

/-!
# The read controller (`axi_read_only_ctrl.sv`)

The controller reads a word of the burst in each cycle in which it has the memory, and offers the
word on channel R in the cycle after, when the memory shows it. A word that is not taken then is
kept in `RDATA_REG`, and the next one is read in the cycle in which it is taken. A request may be
taken in the cycle in which the last beat of the burst before is.
-/

namespace ShakeAccel.Axi

variable {m i u : Nat}

/-- The states of `axi_read_only_ctrl`. -/
inductive ReadState where
  | IDLE
  | SINGLE_R
  | BURST_R
  | WAIT_RREADY
  | LAST_BURST_R
  | WAIT_BURST_GRANT
  | WAIT_BURST_RREADY
  | WAIT_LAST_RREADY
deriving DecidableEq

/-- The states in which the memory shows a word. -/
def ReadState.fresh : ReadState → Bool
  | .SINGLE_R | .BURST_R | .LAST_BURST_R => true
  | .IDLE | .WAIT_RREADY | .WAIT_BURST_GRANT | .WAIT_BURST_RREADY | .WAIT_LAST_RREADY => false

/-- The registers of `axi_read_only_ctrl`. -/
structure ReadOnlyCtrl (m i u : Nat) where
  CS : ReadState
  countBurstCS : BitVec 9
  rdataReg : Word
  ruserReg : BitVec u
  ridReg : BitVec i
  araddrReg : BitVec m
  arlenReg : BitVec 8

/-- The inputs of `axi_read_only_ctrl`. -/
structure ReadIn (i u : Nat) where
  arvalid : Bool
  ar : AddrReq i u
  rready : Bool
  memQ : Word
  grant : Bool

/-- What the always_comb block computes. `MEM_D_o` and `MEM_BE_o` are 0, `MEM_WEN_o` is 1 and
`RRESP_o` is `OKAY` in every state. -/
structure ReadComb (m : Nat) where
  validO : Bool
  arreadyO : Bool
  rvalidO : Bool
  rlastO : Bool
  rdataO : Word
  sampleCtrl : Bool
  sampleRdata : Bool
  memCenO : Bool
  memAO : BitVec m
  NS : ReadState
  countBurstNS : BitVec 9

namespace ReadOnlyCtrl

/-- The state after the reset. -/
def reset : ReadOnlyCtrl m i u := ⟨.IDLE, 0, 0, 0, 0, 0, 0⟩

/-- The values that the always_comb block assigns before its case statement. -/
def defaults (s : ReadOnlyCtrl m i u) (x : ReadIn i u) (NS : ReadState) : ReadComb m where
  validO := false
  arreadyO := false
  rvalidO := false
  rlastO := false
  rdataO := x.memQ
  sampleCtrl := false
  sampleRdata := false
  memCenO := true
  memAO := x.ar.memAddr m
  NS := NS
  countBurstNS := s.countBurstCS

/-- The request that `IDLE` takes, and that the other states take with the last beat of a burst. -/
def accept (x : ReadIn i u) (o : ReadComb m) : ReadComb m :=
  { o with
    validO := x.arvalid
    arreadyO := x.grant
    sampleCtrl := x.arvalid
    memCenO := !x.arvalid
    NS :=
      if x.arvalid && x.grant then if x.ar.len = 0 then .SINGLE_R else .BURST_R
      else .IDLE
    countBurstNS :=
      if x.arvalid && x.grant then if x.ar.len = 0 then 0 else 1
      else o.countBurstNS }

/-- The state after the read of the word `CountBurst_CS` of a burst. -/
def nextBurst (s : ReadOnlyCtrl m i u) (x : ReadIn i u) : ReadState :=
  if x.grant then
    if s.countBurstCS = s.arlenReg.setWidth 9 then .LAST_BURST_R else .BURST_R
  else .WAIT_BURST_GRANT

/-- The always_comb block `COMPUTE_NS`. -/
def compute (s : ReadOnlyCtrl m i u) (x : ReadIn i u) : ReadComb m :=
  match s.CS with
  | .IDLE => accept x (s.defaults x .IDLE)
  | .SINGLE_R =>
    let o := { s.defaults x .WAIT_RREADY with
      sampleRdata := true, rvalidO := true, rlastO := true }
    if x.rready then accept x o else o
  | .WAIT_RREADY =>
    let o := { s.defaults x .WAIT_RREADY with
      rdataO := s.rdataReg, rvalidO := true, rlastO := true }
    if x.rready then accept x o else o
  | .BURST_R =>
    let o := { s.defaults x .WAIT_BURST_RREADY with
      sampleRdata := true, rvalidO := true, memAO := s.araddrReg + s.countBurstCS.setWidth m }
    if x.rready then
      { o with
        memCenO := false
        validO := true
        NS := s.nextBurst x
        countBurstNS :=
          if x.grant then
            if s.countBurstCS = s.arlenReg.setWidth 9 then 0 else s.countBurstCS + 1
          else s.countBurstCS }
    else o
  | .WAIT_BURST_GRANT =>
    { s.defaults x (s.nextBurst x) with
      memCenO := false
      memAO := s.araddrReg + s.countBurstCS.setWidth m
      validO := true
      countBurstNS :=
        if x.grant then
          if s.countBurstCS = s.arlenReg.setWidth 9 then 0 else s.countBurstCS + 1
        else s.countBurstCS }
  | .WAIT_BURST_RREADY =>
    let o := { s.defaults x .WAIT_BURST_RREADY with
      rdataO := s.rdataReg, rvalidO := true, memAO := s.araddrReg + s.countBurstCS.setWidth m }
    if x.rready then
      { o with
        memCenO := false
        validO := true
        NS := s.nextBurst x
        countBurstNS := if x.grant then s.countBurstCS + 1 else s.countBurstCS }
    else o
  | .LAST_BURST_R =>
    let o := { s.defaults x .WAIT_LAST_RREADY with
      sampleRdata := true, rvalidO := true, rlastO := true }
    if x.rready then accept x o else o
  | .WAIT_LAST_RREADY =>
    let o := { s.defaults x .WAIT_LAST_RREADY with
      rdataO := s.rdataReg, rvalidO := true, rlastO := true }
    if x.rready then accept x o else o

/-- The rising edge. -/
def clock (s : ReadOnlyCtrl m i u) (x : ReadIn i u) : ReadOnlyCtrl m i u :=
  let o := s.compute x
  { CS := o.NS
    countBurstCS := o.countBurstNS
    rdataReg := if o.sampleRdata then x.memQ else s.rdataReg
    ruserReg := if o.sampleCtrl then x.ar.user else s.ruserReg
    ridReg := if o.sampleCtrl then x.ar.id else s.ridReg
    araddrReg := if o.sampleCtrl then x.ar.memAddr m else s.araddrReg
    arlenReg := if o.sampleCtrl then x.ar.len else s.arlenReg }

/-- The beat on channel R. -/
def rBeat (s : ReadOnlyCtrl m i u) (x : ReadIn i u) : RBeat i u :=
  ⟨s.ridReg, (s.compute x).rdataO, OKAY, (s.compute x).rlastO, s.ruserReg⟩

/-- A request is taken. -/
def takesAr (s : ReadOnlyCtrl m i u) (x : ReadIn i u) : Bool :=
  x.arvalid && (s.compute x).arreadyO

/-- A word is read. -/
def reads (s : ReadOnlyCtrl m i u) (x : ReadIn i u) : Bool := (s.compute x).validO && x.grant

/-- A beat is given. -/
def gives (s : ReadOnlyCtrl m i u) (x : ReadIn i u) : Bool := (s.compute x).rvalidO && x.rready

/-- The memory shows the word that was read in the cycle before. -/
def fresh (s : ReadOnlyCtrl m i u) : Bool := s.CS.fresh

/-! ## The memory port -/

/-- The memory is enabled exactly by a request. -/
theorem memCenO_eq (s : ReadOnlyCtrl m i u) (x : ReadIn i u) :
    (s.compute x).memCenO = !(s.compute x).validO := by
  rw [compute]
  cases s.CS <;> cases x.rready <;> rfl

theorem fresh_accept (x : ReadIn i u) (o : ReadComb m) :
    (accept x o).NS.fresh = (x.arvalid && x.grant) := by
  rw [accept]
  split
  · next h => split <;> exact h.symm
  · next h => exact (Bool.eq_false_iff.2 h).symm

theorem fresh_nextBurst (s : ReadOnlyCtrl m i u) (x : ReadIn i u) :
    (s.nextBurst x).fresh = x.grant := by
  rw [nextBurst]
  split
  · next h => split <;> exact h.symm
  · next h => exact (Bool.eq_false_iff.2 h).symm

/-- The memory shows a word in the cycle after a read. -/
theorem fresh_clock (s : ReadOnlyCtrl m i u) (x : ReadIn i u) : (s.clock x).fresh = s.reads x := by
  rw [fresh, clock, reads, compute]
  cases s.CS with
  | IDLE => exact fresh_accept x (s.defaults x .IDLE)
  | SINGLE_R | LAST_BURST_R | WAIT_RREADY | WAIT_LAST_RREADY =>
    cases x.rready with
    | false => rfl
    | true => exact fresh_accept x (s.defaults x .IDLE)
  | BURST_R | WAIT_BURST_RREADY =>
    cases x.rready with
    | false => rfl
    | true => exact fresh_nextBurst s x
  | WAIT_BURST_GRANT => exact fresh_nextBurst s x

/-! ## What a cycle does -/

/-- The registers that hold the request of the burst under way. -/
structure Samples (s : ReadOnlyCtrl m i u) (a : AddrReq i u) : Prop where
  user : s.ruserReg = a.user
  id : s.ridReg = a.id
  addr : s.araddrReg = a.memAddr m
  len : s.arlenReg = a.len

/-- The burst under way is the last one taken; `count` of its words, at least one and not all, have
been read, and `n` words in all. -/
structure InBurst (s : ReadOnlyCtrl m i u) (started done : List (AddrReq i u)) (a : AddrReq i u)
    (n : Nat) : Prop where
  started : started = done ++ [a]
  samples : s.Samples a
  pos : 1 ≤ s.countBurstCS.toNat
  le : s.countBurstCS.toNat ≤ a.len.toNat
  read : n = totalBeats done + s.countBurstCS.toNat

/-- The last word that has been read is the last one of its burst, and its beat is the next. -/
structure AtLast (s : ReadOnlyCtrl m i u) (started : List (AddrReq i u)) (n k : Nat) : Prop where
  read : n = totalBeats started
  next : k + 1 = n
  beat : (started.flatMap AddrReq.rBeats)[k]? =
    some fun data => ⟨s.ridReg, data, OKAY, true, s.ruserReg⟩

/-- The controller has taken the requests `started`, has read the first `n` of their words, of which
the memory has shown `data`, and has given the first `k` beats. -/
def Follows (s : ReadOnlyCtrl m i u) (started : List (AddrReq i u)) (n : Nat) (data : List Word)
    (k : Nat) : Prop :=
  match s.CS with
  | .IDLE => n = totalBeats started ∧ data.length = n ∧ k = n
  | .SINGLE_R | .LAST_BURST_R => s.AtLast started n k ∧ data.length = k
  | .WAIT_RREADY | .WAIT_LAST_RREADY =>
    s.AtLast started n k ∧ data.length = n ∧ data[k]? = some s.rdataReg
  | .BURST_R => ∃ done a, s.InBurst started done a n ∧ k + 1 = n ∧ data.length = k
  | .WAIT_BURST_RREADY =>
    ∃ done a, s.InBurst started done a n ∧ k + 1 = n ∧ data.length = n ∧ data[k]? = some s.rdataReg
  | .WAIT_BURST_GRANT => ∃ done a, s.InBurst started done a n ∧ k = n ∧ data.length = n

theorem follows_reset : (reset : ReadOnlyCtrl m i u).Follows [] 0 [] 0 := ⟨rfl, rfl, rfl⟩

section Cycle

variable {s : ReadOnlyCtrl m i u} {started : List (AddrReq i u)} {n k : Nat} {data : List Word}

/-- With all words read and all beats given, a request is taken with its first word. -/
theorem follows_accept {s' : ReadOnlyCtrl m i u} {a : AddrReq i u} {g : Bool}
    (hs : g = true → s'.Samples a) (hidle : g = false → s'.CS = .IDLE)
    (hsingle : g = true → a.len = 0#8 → s'.CS = .SINGLE_R)
    (hburst : g = true → a.len ≠ 0#8 → s'.CS = .BURST_R ∧ s'.countBurstCS = 1)
    (hdata : data.length = totalBeats started) :
    s'.Follows (started ++ if g then [a] else []) (totalBeats started + g.toNat) data
      (totalBeats started) := by
  cases g with
  | false =>
    rw [Follows, hidle rfl]
    simp [hdata]
  | true =>
    by_cases hlen : a.len = 0#8
    · rw [Follows, hsingle rfl hlen]
      refine ⟨⟨by simp [AddrReq.beats, hlen], rfl, ?_⟩, hdata⟩
      have hbeat := getElem?_flatMap_beats (f := AddrReq.rBeats) length_rBeats started a 0
      rw [getElem?_rBeats a (Nat.zero_le _), Nat.add_zero] at hbeat
      rw [if_pos rfl, hbeat, (hs rfl).id, (hs rfl).user, hlen]
      rfl
    · obtain ⟨hcs, hcount⟩ := hburst rfl hlen
      have hpos : a.len.toNat ≠ 0 := fun h0 => hlen (BitVec.eq_of_toNat_eq h0)
      rw [Follows, hcs]
      exact ⟨started, a, ⟨rfl, hs rfl, by simp [hcount], by simp [hcount]; omega, by simp [hcount]⟩,
        rfl, hdata⟩

/-- A further word of the burst under way. -/
theorem follows_word {s' : ReadOnlyCtrl m i u} {done : List (AddrReq i u)} {a : AddrReq i u}
    {count : BitVec 9} (hs : s'.Samples a) (hle : count.toNat ≤ a.len.toNat)
    (hlast : count.toNat = a.len.toNat → s'.CS = .LAST_BURST_R)
    (hnext : count.toNat ≠ a.len.toNat → s'.CS = .BURST_R ∧ s'.countBurstCS = count + 1)
    (hdata : data.length = totalBeats done + count.toNat) :
    s'.Follows (done ++ [a]) (totalBeats done + count.toNat + 1) data
      (totalBeats done + count.toNat) := by
  by_cases h : count.toNat = a.len.toNat
  · rw [Follows, hlast h]
    refine ⟨⟨by simp [AddrReq.beats, h]; omega, rfl, ?_⟩, hdata⟩
    rw [getElem?_flatMap_beats length_rBeats, getElem?_rBeats a hle, hs.id, hs.user,
      decide_eq_true h]
  · obtain ⟨hcs, hcount⟩ := hnext h
    have hsucc := toNat_count_succ (lt_of_le_of_ne hle h)
    rw [Follows, hcs]
    exact ⟨done, a, ⟨rfl, hs, by rw [hcount, hsucc]; omega, by rw [hcount, hsucc]; omega,
      by rw [hcount, hsucc]; omega⟩, rfl, hdata⟩

/-- The words that the memory has shown by the end of a cycle. -/
def shown (s : ReadOnlyCtrl m i u) (x : ReadIn i u) (data : List Word) : List Word :=
  data ++ if s.fresh then [x.memQ] else []

/-- A cycle in which the next request is accepted, all words being read and all beats given. -/
theorem follows_of_accept {x : ReadIn i u} {o : ReadComb m} (hx : s.compute x = accept x o)
    (hdata : data.length = totalBeats started) :
    (s.clock x).Follows (started ++ if s.takesAr x then [x.ar] else [])
      (totalBeats started + (s.reads x).toNat) data (totalBeats started) := by
  rw [takesAr, reads, hx]
  refine follows_accept (fun hg => ?_) (fun hg => ?_) (fun hg hlen => ?_) (fun hg hlen => ?_) hdata
  · rw [accept, Bool.and_eq_true] at hg
    constructor <;> simp [ReadOnlyCtrl.clock, hx, accept, hg.1]
  all_goals
    rw [accept] at hg
    simp [ReadOnlyCtrl.clock, accept, *]

/-- The registers of the burst under way stay as they are while no request is sampled. -/
theorem samples_clock {x : ReadIn i u} {a : AddrReq i u} (hs : s.Samples a)
    (hx : (s.compute x).sampleCtrl = false) : (s.clock x).Samples a := by
  obtain ⟨huser, hid, haddr, hlen⟩ := hs
  constructor <;> simpa [ReadOnlyCtrl.clock, hx]

/-- A cycle in which the last beat of a burst is not taken. -/
theorem AtLast.wait (h : s.AtLast started n k) {x : ReadIn i u}
    (hx : (s.compute x).sampleCtrl = false) : (s.clock x).AtLast started n k where
  read := h.read
  next := h.next
  beat := by simpa [ReadOnlyCtrl.clock, hx] using h.beat

/-- A cycle in which no word of the burst under way is read. -/
theorem InBurst.wait {done : List (AddrReq i u)} {a : AddrReq i u} (h : s.InBurst started done a n)
    {x : ReadIn i u} (hx : (s.compute x).sampleCtrl = false)
    (hcount : (s.compute x).countBurstNS = s.countBurstCS) :
    (s.clock x).InBurst started done a n where
  started := h.started
  samples := samples_clock h.samples hx
  pos := by simpa [ReadOnlyCtrl.clock, hcount] using h.pos
  le := by simpa [ReadOnlyCtrl.clock, hcount] using h.le
  read := by simpa [ReadOnlyCtrl.clock, hcount] using h.read

/-- A cycle in which a further word of the burst under way is read. -/
theorem InBurst.word {done : List (AddrReq i u)} {a : AddrReq i u} (h : s.InBurst started done a n)
    {x : ReadIn i u} (hx : (s.compute x).sampleCtrl = false)
    (hlast : s.countBurstCS.toNat = a.len.toNat → (s.compute x).NS = .LAST_BURST_R)
    (hnext : s.countBurstCS.toNat ≠ a.len.toNat →
      (s.compute x).NS = .BURST_R ∧ (s.compute x).countBurstNS = s.countBurstCS + 1)
    (hdata : data.length = n) : (s.clock x).Follows started (n + 1) data n := by
  obtain ⟨rfl, hs, -, hle, rfl⟩ := h
  exact follows_word (samples_clock hs hx) hle hlast hnext hdata

/-- A cycle that offers the last beat of a burst: taken with the next request, or kept. -/
theorem AtLast.clock (h : s.AtLast started n k) {x : ReadIn i u} {o : ReadComb m}
    (hx : s.compute x = if x.rready then accept x o else o)
    (hNS : o.NS = .WAIT_RREADY ∨ o.NS = .WAIT_LAST_RREADY) (hvalid : o.rvalidO = true)
    (hrdata : o.sampleRdata = s.fresh) (ho : (o.sampleCtrl || o.arreadyO || o.validO) = false)
    (hlen : (s.shown x data).length = n)
    (hreg : (s.shown x data)[k]? = some (if s.fresh then x.memQ else s.rdataReg)) :
    (s.clock x).Follows (started ++ if s.takesAr x then [x.ar] else []) (n + (s.reads x).toNat)
      (s.shown x data) (k + (s.gives x).toNat) := by
  cases hr : x.rready with
  | false =>
    rw [hr, if_neg Bool.false_ne_true] at hx
    rw [Bool.or_eq_false_iff, Bool.or_eq_false_iff] at ho
    obtain ⟨⟨hsample, harready⟩, hreq⟩ := ho
    have hwait := h.wait (x := x) (by rw [hx, hsample])
    have hreg' : (s.clock x).rdataReg = if s.fresh then x.memQ else s.rdataReg := by
      rw [ReadOnlyCtrl.clock, hx, hrdata]
    rw [takesAr, reads, gives, hx, harready, hreq, hr, Bool.and_false, Bool.and_false]
    rw [← hreg'] at hreg
    have hcs : (s.clock x).CS = o.NS := by rw [ReadOnlyCtrl.clock, hx]
    rw [if_neg Bool.false_ne_true, List.append_nil, Follows]
    rcases hNS with hNS | hNS
    · rw [hcs, hNS]
      exact ⟨hwait, hlen, hreg⟩
    · rw [hcs, hNS]
      exact ⟨hwait, hlen, hreg⟩
  | true =>
    rw [hr, if_pos rfl] at hx
    obtain ⟨rfl, hk, -⟩ := h
    rw [gives, hr, hx, show (accept x o).rvalidO = true from hvalid]
    rw [show k + (true && true).toNat = totalBeats started from hk]
    exact follows_of_accept hx hlen

/-- A cycle of a burst that has further words, when the beats of the words read are given. -/
theorem InBurst.clock {done : List (AddrReq i u)} {a : AddrReq i u} (h : s.InBurst started done a n)
    {x : ReadIn i u} (hsample : (s.compute x).sampleCtrl = false)
    (hready : (s.compute x).arreadyO = false) (hvalid : (s.compute x).validO = true)
    (hNS : (s.compute x).NS = s.nextBurst x)
    (hcount : x.grant = false → (s.compute x).countBurstNS = s.countBurstCS)
    (hnext : x.grant = true → s.countBurstCS ≠ s.arlenReg.setWidth 9 →
      (s.compute x).countBurstNS = s.countBurstCS + 1)
    (hdata : data.length = n) :
    (s.clock x).Follows (started ++ if s.takesAr x then [x.ar] else []) (n + (s.reads x).toNat)
      data n := by
  rw [takesAr, hready, Bool.and_false, if_neg Bool.false_ne_true, List.append_nil, reads, hvalid,
    Bool.true_and]
  cases hg : x.grant with
  | false =>
    have hwait := h.wait hsample (hcount hg)
    rw [Follows, show (s.clock x).CS = .WAIT_BURST_GRANT by
      simp [ReadOnlyCtrl.clock, hNS, nextBurst, hg]]
    exact ⟨done, a, hwait, rfl, hdata⟩
  | true =>
    have hlen : s.countBurstCS = s.arlenReg.setWidth 9 ↔ s.countBurstCS.toNat = a.len.toNat := by
      rw [eq_comm, len_eq_iff, h.samples.len]
    refine h.word hsample (fun hl => ?_) (fun hl => ⟨?_, ?_⟩) hdata
    · rw [hNS, nextBurst, if_pos hg, if_pos (hlen.2 hl)]
    · rw [hNS, nextBurst, if_pos hg, if_neg fun heq => hl (hlen.1 heq)]
    · exact hnext hg fun heq => hl (hlen.1 heq)

/-- **A cycle of the read controller**: it takes at most one request, reads at most one word and
gives at most one beat. -/
theorem Follows.clock (h : s.Follows started n data k) (x : ReadIn i u) :
    (s.clock x).Follows (started ++ if s.takesAr x then [x.ar] else []) (n + (s.reads x).toNat)
      (s.shown x data) (k + (s.gives x).toNat) := by
  rw [Follows] at h
  cases hcs : s.CS with
  | IDLE =>
    simp only [hcs] at h
    obtain ⟨rfl, hdata, rfl⟩ := h
    have hacc := follows_of_accept (s := s) (x := x) (by rw [compute, hcs]) hdata
    simpa [compute, accept, defaults, gives, shown, fresh, ReadState.fresh, hcs] using hacc
  | SINGLE_R | LAST_BURST_R =>
    simp only [hcs] at h
    obtain ⟨hlast, hdata⟩ := h
    refine hlast.clock (by rw [compute, hcs]) (by simp [defaults]) rfl
      (by simp [fresh, ReadState.fresh, hcs]) rfl ?_ ?_
    · simp [shown, fresh, ReadState.fresh, hcs, hdata, hlast.next]
    · simp [shown, fresh, ReadState.fresh, hcs, ← hdata]
  | WAIT_RREADY | WAIT_LAST_RREADY =>
    simp only [hcs] at h
    obtain ⟨hlast, hdata, hreg⟩ := h
    refine hlast.clock (by rw [compute, hcs]) (by simp [defaults]) rfl
      (by simp [fresh, ReadState.fresh, defaults, hcs]) rfl ?_ ?_
    · simp [shown, fresh, ReadState.fresh, hcs, hdata]
    · simp [shown, fresh, ReadState.fresh, hcs, hreg]
  | BURST_R =>
    simp only [hcs] at h
    obtain ⟨done, a, hburst, hk, hdata⟩ := h
    cases hr : x.rready with
    | false =>
      have hwait := hburst.wait (x := x) (by simp [compute, defaults, hcs, hr])
        (by simp [compute, defaults, hcs, hr])
      have hf : (s.clock x).Follows started n (data ++ [x.memQ]) k := by
        rw [Follows, show (s.clock x).CS = .WAIT_BURST_RREADY by
          simp [ReadOnlyCtrl.clock, compute, defaults, hcs, hr]]
        exact ⟨done, a, hwait, hk, by simp [hdata, hk],
          by simp [ReadOnlyCtrl.clock, compute, defaults, hcs, hr, ← hdata]⟩
      simpa [compute, defaults, takesAr, reads, gives, shown, fresh, ReadState.fresh, hcs, hr]
        using hf
    | true =>
      rw [show k + (s.gives x).toNat = n by simp [gives, compute, defaults, hcs, hr, hk]]
      refine hburst.clock ?_ ?_ ?_ ?_ (fun hg => ?_) (fun hg hne => ?_) ?_
      all_goals simp [compute, defaults, shown, fresh, ReadState.fresh, *]
  | WAIT_BURST_RREADY =>
    simp only [hcs] at h
    obtain ⟨done, a, hburst, hk, hdata, hreg⟩ := h
    cases hr : x.rready with
    | false =>
      have hwait := hburst.wait (x := x) (by simp [compute, defaults, hcs, hr])
        (by simp [compute, defaults, hcs, hr])
      have hf : (s.clock x).Follows started n data k := by
        rw [Follows, show (s.clock x).CS = .WAIT_BURST_RREADY by
          simp [ReadOnlyCtrl.clock, compute, defaults, hcs, hr]]
        exact ⟨done, a, hwait, hk, hdata,
          by simpa [ReadOnlyCtrl.clock, compute, defaults, hcs, hr] using hreg⟩
      simpa [compute, defaults, takesAr, reads, gives, shown, fresh, ReadState.fresh, hcs, hr]
        using hf
    | true =>
      rw [show k + (s.gives x).toNat = n by simp [gives, compute, defaults, hcs, hr, hk]]
      refine hburst.clock ?_ ?_ ?_ ?_ (fun hg => ?_) (fun hg hne => ?_) ?_
      all_goals simp [compute, defaults, shown, fresh, ReadState.fresh, *]
  | WAIT_BURST_GRANT =>
    simp only [hcs] at h
    obtain ⟨done, a, hburst, rfl, hdata⟩ := h
    rw [show k + (s.gives x).toNat = k by simp [gives, compute, defaults, hcs]]
    refine hburst.clock ?_ ?_ ?_ ?_ (fun hg => ?_) (fun hg hne => ?_) ?_
    all_goals simp [compute, defaults, shown, fresh, ReadState.fresh, *]

/-- The number of words read, shown and given. -/
theorem Follows.counts (h : s.Follows started n data k) :
    n ≤ totalBeats started ∧ data.length + s.fresh.toNat = n ∧ k ≤ data.length := by
  rw [Follows] at h
  rw [fresh]
  cases hcs : s.CS with
  | IDLE =>
    simp only [hcs] at h
    obtain ⟨rfl, hdata, rfl⟩ := h
    simp [hdata, ReadState.fresh]
  | SINGLE_R | LAST_BURST_R =>
    simp only [hcs] at h
    obtain ⟨⟨rfl, hk, -⟩, hdata⟩ := h
    simp [hdata, hk, ReadState.fresh]
  | WAIT_RREADY | WAIT_LAST_RREADY =>
    simp only [hcs] at h
    obtain ⟨⟨rfl, hk, -⟩, hdata, -⟩ := h
    simp [hdata, ← hk, ReadState.fresh]
  | BURST_R =>
    simp only [hcs] at h
    obtain ⟨done, a, ⟨rfl, -, -, hle, rfl⟩, hk, hdata⟩ := h
    simp [AddrReq.beats, hdata, hk, ReadState.fresh]
    omega
  | WAIT_BURST_RREADY =>
    simp only [hcs] at h
    obtain ⟨done, a, ⟨rfl, -, -, hle, rfl⟩, hk, hdata, -⟩ := h
    simp [AddrReq.beats, hdata, ← hk, ReadState.fresh]
    omega
  | WAIT_BURST_GRANT =>
    simp only [hcs] at h
    obtain ⟨done, a, ⟨rfl, -, -, hle, rfl⟩, rfl, hdata⟩ := h
    simp [AddrReq.beats, hdata, ReadState.fresh]
    omega

/-- The next word of the burst under way. -/
theorem InBurst.memAO {done : List (AddrReq i u)} {a : AddrReq i u}
    (h : s.InBurst started done a n) :
    (started.flatMap (AddrReq.addrs m))[n]? = some (s.araddrReg + s.countBurstCS.setWidth m) := by
  obtain ⟨rfl, hs, -, hle, rfl⟩ := h
  rw [getElem?_flatMap_beats length_addrs, getElem?_addrs a hle, ← hs.addr, BitVec.ofNat_toNat]

/-- A word is read at the next address of its burst. -/
theorem Follows.memAO (h : s.Follows started n data k) {x : ReadIn i u} (hx : s.reads x = true) :
    ((started ++ if s.takesAr x then [x.ar] else []).flatMap (AddrReq.addrs m))[n]? =
      some (s.compute x).memAO := by
  have hfirst : ((started ++ [x.ar]).flatMap (AddrReq.addrs m))[totalBeats started]? =
      some (x.ar.memAddr m) := by
    rw [← Nat.add_zero (totalBeats started), getElem?_flatMap_beats length_addrs,
      getElem?_addrs x.ar (Nat.zero_le _), BitVec.add_zero]
  rw [reads, Bool.and_eq_true] at hx
  obtain ⟨hvalid, hg⟩ := hx
  rw [Follows] at h
  cases hcs : s.CS with
  | IDLE =>
    simp only [hcs] at h
    rw [h.1]
    simp_all [takesAr, compute, accept, defaults]
  | SINGLE_R | LAST_BURST_R | WAIT_RREADY | WAIT_LAST_RREADY =>
    simp only [hcs] at h
    rw [h.1.read]
    cases hr : x.rready <;> simp_all [takesAr, compute, accept, defaults]
  | BURST_R | WAIT_BURST_RREADY =>
    simp only [hcs] at h
    obtain ⟨done, a, hburst, -⟩ := h
    have hword := hburst.memAO
    cases hr : x.rready <;> simp_all [takesAr, compute, defaults]
  | WAIT_BURST_GRANT =>
    simp only [hcs] at h
    obtain ⟨done, a, hburst, -⟩ := h
    simpa [takesAr, compute, defaults, hcs] using hburst.memAO

/-- The beat of the last word that has been read of a burst with further words. -/
theorem InBurst.beat {done : List (AddrReq i u)} {a : AddrReq i u} (h : s.InBurst started done a n)
    (hk : k + 1 = n) :
    (started.flatMap AddrReq.rBeats)[k]? =
      some fun data => ⟨s.ridReg, data, OKAY, false, s.ruserReg⟩ := by
  obtain ⟨rfl, hs, hpos, hle, rfl⟩ := h
  obtain rfl : k = totalBeats done + (s.countBurstCS.toNat - 1) := by omega
  rw [getElem?_flatMap_beats length_rBeats, getElem?_rBeats a (by omega), hs.id, hs.user,
    decide_eq_false (by omega)]

/-- A beat is the next one of the answers, with the word that has been read for it. -/
theorem Follows.rBeat (h : s.Follows started n data k) {x : ReadIn i u} (hx : s.gives x = true) :
    ∃ beat word, (started.flatMap AddrReq.rBeats)[k]? = some beat ∧
      (s.shown x data)[k]? = some word ∧ s.rBeat x = beat word := by
  rw [gives, Bool.and_eq_true] at hx
  obtain ⟨hvalid, hr⟩ := hx
  rw [Follows] at h
  rw [ReadOnlyCtrl.rBeat]
  cases hcs : s.CS with
  | IDLE => simp [compute, accept, defaults, hcs] at hvalid
  | SINGLE_R | LAST_BURST_R =>
    simp only [hcs] at h
    obtain ⟨hlast, hdata⟩ := h
    exact ⟨_, x.memQ, hlast.beat, by simp [shown, fresh, ReadState.fresh, hcs, ← hdata],
      by simp [compute, accept, defaults, hcs, hr]⟩
  | WAIT_RREADY | WAIT_LAST_RREADY =>
    simp only [hcs] at h
    obtain ⟨hlast, hdata, hreg⟩ := h
    exact ⟨_, s.rdataReg, hlast.beat, by simp [shown, fresh, ReadState.fresh, hcs, hreg],
      by simp [compute, accept, defaults, hcs, hr]⟩
  | BURST_R =>
    simp only [hcs] at h
    obtain ⟨done, a, hburst, hk, hdata⟩ := h
    exact ⟨_, x.memQ, hburst.beat hk, by simp [shown, fresh, ReadState.fresh, hcs, ← hdata],
      by simp [compute, defaults, hcs, hr]⟩
  | WAIT_BURST_RREADY =>
    simp only [hcs] at h
    obtain ⟨done, a, hburst, hk, -, hreg⟩ := h
    exact ⟨_, s.rdataReg, hburst.beat hk, by simp [shown, fresh, ReadState.fresh, hcs, hreg],
      by simp [compute, defaults, hcs, hr]⟩
  | WAIT_BURST_GRANT => simp [compute, defaults, hcs] at hvalid

end Cycle

end ReadOnlyCtrl

end ShakeAccel.Axi
