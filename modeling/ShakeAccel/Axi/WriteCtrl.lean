import ShakeAccel.Axi.Burst

/-!
# The write controller (`axi_write_only_ctrl.sv`)

The controller takes a request from channel AW, then the beats of its burst from channel W, each
into the memory in the cycle in which it is taken and at the next word address, and then answers on
channel B. A request may be taken together with its first beat, and in the cycle of the answer to
the one before.
-/

namespace ShakeAccel.Axi

variable {m i u : Nat}

/-- The states of `axi_write_only_ctrl`. -/
inductive WriteState where
  | IDLE
  | DISPATCH_RESP
  | BURST
  | WAIT_W_GRANT_VALID
  | ERROR
deriving DecidableEq

/-- The registers of `axi_write_only_ctrl`; `AWADDR_REG_incr`, which is only reset, is left out. -/
structure WriteOnlyCtrl (m i u : Nat) where
  CS : WriteState
  countBurstCS : BitVec 9
  awuserReg : BitVec u
  awidReg : BitVec i
  awaddrReg : BitVec m
  awlenReg : BitVec 8

/-- The inputs of `axi_write_only_ctrl`. -/
structure WriteIn (i u : Nat) where
  awvalid : Bool
  aw : AddrReq i u
  wvalid : Bool
  w : WBeat
  bready : Bool
  grant : Bool

/-- What the always_comb block computes. `MEM_D_o` and `MEM_BE_o` are the beat's data and strobes,
`MEM_WEN_o` is 0 and `BRESP_o` is `OKAY` in every state. -/
structure WriteComb (m : Nat) where
  validO : Bool
  awreadyO : Bool
  wreadyO : Bool
  bvalidO : Bool
  sampleCtrl : Bool
  memCenO : Bool
  memAO : BitVec m
  NS : WriteState
  countBurstNS : BitVec 9

namespace WriteOnlyCtrl

/-- The state after the reset. -/
def reset : WriteOnlyCtrl m i u := ⟨.IDLE, 0, 0, 0, 0, 0⟩

/-- The always_comb block `COMPUTE_NS`. -/
def compute (s : WriteOnlyCtrl m i u) (x : WriteIn i u) : WriteComb m :=
  match s.CS with
  | .IDLE =>
    if x.awvalid then
      { validO := x.wvalid, awreadyO := true, wreadyO := x.grant, bvalidO := false
        sampleCtrl := true, memCenO := !x.wvalid, memAO := x.aw.memAddr m
        NS :=
          if x.wvalid && x.grant then if x.aw.len = 0 then .DISPATCH_RESP else .BURST
          else .WAIT_W_GRANT_VALID
        countBurstNS :=
          if x.wvalid && x.grant then if x.aw.len = 0 then 0 else 1
          else 0 }
    else
      { validO := false, awreadyO := true, wreadyO := false, bvalidO := false
        sampleCtrl := false, memCenO := true, memAO := x.aw.memAddr m
        NS := .IDLE, countBurstNS := s.countBurstCS }
  | .WAIT_W_GRANT_VALID =>
    { validO := x.wvalid, awreadyO := false, wreadyO := x.grant, bvalidO := false
      sampleCtrl := false, memCenO := !(x.wvalid && x.grant)
      memAO := s.awaddrReg + s.countBurstCS.setWidth m
      NS :=
        if x.grant && x.wvalid then
          if s.awlenReg.setWidth 9 = s.countBurstCS then .DISPATCH_RESP else .BURST
        else .WAIT_W_GRANT_VALID
      countBurstNS :=
        if x.grant && x.wvalid then
          if s.awlenReg.setWidth 9 = s.countBurstCS then 0 else s.countBurstCS + 1
        else s.countBurstCS }
  | .DISPATCH_RESP =>
    if x.bready then
      if x.awvalid then
        { validO := x.wvalid, awreadyO := true, wreadyO := x.grant, bvalidO := true
          sampleCtrl := true, memCenO := !x.wvalid, memAO := x.aw.memAddr m
          NS :=
            if x.wvalid && x.grant then
              if x.aw.len = 0 then if x.w.last then .DISPATCH_RESP else .ERROR else .BURST
            else .WAIT_W_GRANT_VALID
          countBurstNS :=
            if x.wvalid && x.grant then if x.aw.len = 0 then 0 else 1
            else 0 }
      else
        { validO := false, awreadyO := true, wreadyO := false, bvalidO := true
          sampleCtrl := false, memCenO := true, memAO := x.aw.memAddr m
          NS := .IDLE, countBurstNS := s.countBurstCS }
    else
      { validO := false, awreadyO := false, wreadyO := false, bvalidO := true
        sampleCtrl := false, memCenO := true, memAO := x.aw.memAddr m
        NS := .DISPATCH_RESP, countBurstNS := s.countBurstCS }
  | .BURST =>
    { validO := x.wvalid, awreadyO := false, wreadyO := x.grant, bvalidO := false
      sampleCtrl := false, memCenO := !x.wvalid
      memAO := s.awaddrReg + s.countBurstCS.setWidth m
      NS :=
        if x.wvalid && x.grant then
          if s.awlenReg.setWidth 9 = s.countBurstCS then
            if x.w.last then .DISPATCH_RESP else .ERROR
          else .BURST
        else .WAIT_W_GRANT_VALID
      countBurstNS :=
        if x.wvalid && x.grant then
          if s.awlenReg.setWidth 9 = s.countBurstCS then 0 else s.countBurstCS + 1
        else s.countBurstCS }
  | .ERROR =>
    { validO := false, awreadyO := false, wreadyO := false, bvalidO := false
      sampleCtrl := false, memCenO := true, memAO := x.aw.memAddr m
      NS := .ERROR, countBurstNS := s.countBurstCS }

/-- The rising edge. -/
def clock (s : WriteOnlyCtrl m i u) (x : WriteIn i u) : WriteOnlyCtrl m i u :=
  let o := s.compute x
  { CS := o.NS
    countBurstCS := o.countBurstNS
    awuserReg := if o.sampleCtrl then x.aw.user else s.awuserReg
    awidReg := if o.sampleCtrl then x.aw.id else s.awidReg
    awaddrReg := if o.sampleCtrl then x.aw.memAddr m else s.awaddrReg
    awlenReg := if o.sampleCtrl then x.aw.len else s.awlenReg }

/-- The response on channel B. -/
def bResp (s : WriteOnlyCtrl m i u) : BResp i u := ⟨s.awidReg, OKAY, s.awuserReg⟩

/-- A request is taken. -/
def takesAw (s : WriteOnlyCtrl m i u) (x : WriteIn i u) : Bool :=
  x.awvalid && (s.compute x).awreadyO

/-- A beat is taken. -/
def takesW (s : WriteOnlyCtrl m i u) (x : WriteIn i u) : Bool :=
  x.wvalid && (s.compute x).wreadyO

/-- A response is given. -/
def responds (s : WriteOnlyCtrl m i u) (x : WriteIn i u) : Bool :=
  (s.compute x).bvalidO && x.bready

/-! ## The memory port -/

/-- A request to the memory does not wait for the grant. -/
theorem validO_grant (s : WriteOnlyCtrl m i u) (x : WriteIn i u) (g : Bool) :
    (s.compute { x with grant := g }).validO = (s.compute x).validO := by
  rw [compute, compute]
  cases s.CS <;> cases x.awvalid <;> cases x.bready <;> rfl

/-- A beat is taken in the cycle in which the memory is granted. -/
theorem takesW_eq (s : WriteOnlyCtrl m i u) (x : WriteIn i u) :
    s.takesW x = ((s.compute x).validO && x.grant) := by
  rw [takesW, compute]
  cases s.CS <;> cases x.awvalid <;> cases x.bready <;> simp

/-- With the grant the memory is enabled exactly by a request. -/
theorem memCenO_eq (s : WriteOnlyCtrl m i u) {x : WriteIn i u}
    (h : x.grant = true ∨ (s.compute x).validO = false) :
    (s.compute x).memCenO = !(s.compute x).validO := by
  rw [compute] at h ⊢
  cases hcs : s.CS <;> cases hv : x.awvalid <;> cases hb : x.bready <;> cases hg : x.grant <;>
    simp_all

/-! ## What a cycle does -/

/-- The registers that hold the request of the burst under way. -/
structure Samples (s : WriteOnlyCtrl m i u) (a : AddrReq i u) : Prop where
  user : s.awuserReg = a.user
  id : s.awidReg = a.id
  addr : s.awaddrReg = a.memAddr m
  len : s.awlenReg = a.len

/-- The controller has taken the requests `started`, of their beats the first `n`, and has given the
first `k` responses. -/
def Follows (s : WriteOnlyCtrl m i u) (started : List (AddrReq i u)) (n k : Nat) : Prop :=
  match s.CS with
  | .IDLE => n = totalBeats started ∧ k = started.length
  | .DISPATCH_RESP =>
    ∃ done a, started = done ++ [a] ∧ s.Samples a ∧ n = totalBeats started ∧ k = done.length
  | .BURST | .WAIT_W_GRANT_VALID =>
    ∃ done a, started = done ++ [a] ∧ s.Samples a ∧ s.countBurstCS.toNat ≤ a.len.toNat ∧
      n = totalBeats done + s.countBurstCS.toNat ∧ k = done.length
  | .ERROR => ∃ done a, started = done ++ [a] ∧ n = totalBeats started ∧ k = done.length

theorem follows_reset : (reset : WriteOnlyCtrl m i u).Follows [] 0 0 := ⟨rfl, rfl⟩

section Cycle

variable {s : WriteOnlyCtrl m i u} {started : List (AddrReq i u)} {n k : Nat}

/-- The burst of a request that is taken in this cycle, with or without its first beat. -/
theorem follows_accept {s' : WriteOnlyCtrl m i u} {a : AddrReq i u} {w : Bool} (hs : s'.Samples a)
    (hwait : w = false → s'.CS = .WAIT_W_GRANT_VALID ∧ s'.countBurstCS = 0)
    (hsingle : w = true → a.len = 0#8 → s'.CS = .DISPATCH_RESP ∨ s'.CS = .ERROR)
    (hburst : w = true → a.len ≠ 0#8 → s'.CS = .BURST ∧ s'.countBurstCS = 1) :
    s'.Follows (started ++ [a]) (totalBeats started + w.toNat) started.length := by
  cases w with
  | false =>
    obtain ⟨hcs, hcount⟩ := hwait rfl
    rw [Follows, hcs]
    exact ⟨started, a, rfl, hs, by simp [hcount], by simp [hcount], rfl⟩
  | true =>
    by_cases hlen : a.len = 0#8
    · have hbeats : a.beats = 1 := by simp [AddrReq.beats, hlen]
      rcases hsingle rfl hlen with hcs | hcs
      · rw [Follows, hcs]
        exact ⟨started, a, rfl, hs, by simp [hbeats], rfl⟩
      · rw [Follows, hcs]
        exact ⟨started, a, rfl, by simp [hbeats], rfl⟩
    · obtain ⟨hcs, hcount⟩ := hburst rfl hlen
      have hpos : a.len.toNat ≠ 0 := fun h0 => hlen (BitVec.eq_of_toNat_eq h0)
      rw [Follows, hcs]
      exact ⟨started, a, rfl, hs, by simp [hcount]; omega, by simp [hcount], rfl⟩

/-- A beat of the burst under way. -/
theorem follows_beat {s' : WriteOnlyCtrl m i u} {done : List (AddrReq i u)} {a : AddrReq i u}
    {count : BitVec 9} (hs : s'.Samples a) (hle : count.toNat ≤ a.len.toNat)
    (hlast : count.toNat = a.len.toNat → s'.CS = .DISPATCH_RESP ∨ s'.CS = .ERROR)
    (hnext : count.toNat ≠ a.len.toNat → s'.CS = .BURST ∧ s'.countBurstCS = count + 1) :
    s'.Follows (done ++ [a]) (totalBeats done + count.toNat + 1) done.length := by
  by_cases h : count.toNat = a.len.toNat
  · have hbeats : totalBeats done + count.toNat + 1 = totalBeats (done ++ [a]) := by
      rw [totalBeats_append, totalBeats_singleton, AddrReq.beats, h, Nat.add_assoc]
    rw [Follows]
    rcases hlast h with hcs | hcs
    · rw [hcs]
      exact ⟨done, a, rfl, hs, hbeats, rfl⟩
    · rw [hcs]
      exact ⟨done, a, rfl, hbeats, rfl⟩
  · obtain ⟨hcs, hcount⟩ := hnext h
    have hsucc := toNat_count_succ (lt_of_le_of_ne hle h)
    rw [Follows, hcs, hcount]
    exact ⟨done, a, rfl, hs, by rw [hsucc]; omega, by rw [hsucc, Nat.add_assoc], rfl⟩

/-- **A cycle of the write controller**: it takes at most one request and one beat and gives at most
one response. -/
theorem Follows.clock (h : s.Follows started n k) (x : WriteIn i u) :
    (s.clock x).Follows (started ++ if s.takesAw x then [x.aw] else [])
      (n + (s.takesW x).toNat) (k + (s.responds x).toNat) := by
  rw [Follows] at h
  cases hcs : s.CS with
  | IDLE =>
    simp only [hcs] at h
    obtain ⟨rfl, rfl⟩ := h
    cases hv : x.awvalid with
    | false =>
      simp [Follows, WriteOnlyCtrl.clock, compute, takesAw, takesW, responds, hcs, hv]
    | true =>
      have hacc : (s.clock x).Follows (started ++ [x.aw])
          (totalBeats started + (x.wvalid && x.grant).toNat) started.length :=
        follows_accept (by constructor <;> simp [WriteOnlyCtrl.clock, compute, hcs, hv])
          (fun hw => by simp [WriteOnlyCtrl.clock, compute, hcs, hv, hw])
          (fun hw hlen => by simp [WriteOnlyCtrl.clock, compute, hcs, hv, hw, hlen])
          (fun hw hlen => by simp [WriteOnlyCtrl.clock, compute, hcs, hv, hw, hlen])
      simpa [compute, takesAw, takesW, responds, hcs, hv] using hacc
  | DISPATCH_RESP =>
    simp only [hcs] at h
    obtain ⟨done, a, rfl, hs, rfl, rfl⟩ := h
    cases hb : x.bready with
    | false =>
      have hstay : (s.clock x).Samples a := by
        obtain ⟨huser, hid, haddr, hlen⟩ := hs
        constructor <;> simp [WriteOnlyCtrl.clock, compute, hcs, hb, huser, hid, haddr, hlen]
      rw [Follows, show (s.clock x).CS = .DISPATCH_RESP by
        simp [WriteOnlyCtrl.clock, compute, hcs, hb]]
      exact ⟨done, a, by simp [compute, takesAw, hcs, hb], hstay,
        by simp [compute, takesAw, takesW, hcs, hb], by simp [responds, hb]⟩
    | true =>
      cases hv : x.awvalid with
      | false =>
        simp [Follows, WriteOnlyCtrl.clock, compute, takesAw, takesW, responds, hcs, hb, hv]
      | true =>
        have hacc : (s.clock x).Follows ((done ++ [a]) ++ [x.aw])
            (totalBeats (done ++ [a]) + (x.wvalid && x.grant).toNat) (done ++ [a]).length :=
          follows_accept (by constructor <;> simp [WriteOnlyCtrl.clock, compute, hcs, hb, hv])
            (fun hw => by simp [WriteOnlyCtrl.clock, compute, hcs, hb, hv, hw])
            (fun hw hlen => by
              cases hl : x.w.last <;>
                simp [WriteOnlyCtrl.clock, compute, hcs, hb, hv, hw, hlen, hl])
            (fun hw hlen => by simp [WriteOnlyCtrl.clock, compute, hcs, hb, hv, hw, hlen])
        simpa [compute, takesAw, takesW, responds, hcs, hb, hv] using hacc
  | WAIT_W_GRANT_VALID =>
    simp only [hcs] at h
    obtain ⟨done, a, rfl, hs, hle, rfl, rfl⟩ := h
    have hsame : (s.clock x).Samples a := by
      obtain ⟨huser, hid, haddr, hlen⟩ := hs
      constructor <;> simp [WriteOnlyCtrl.clock, compute, hcs, huser, hid, haddr, hlen]
    have hlen := len_eq_iff s.awlenReg s.countBurstCS
    rw [hs.len] at hlen
    cases hw : x.wvalid && x.grant with
    | false =>
      have hw' : (x.grant && x.wvalid) = false := by rw [Bool.and_comm]; exact hw
      rw [Follows, show (s.clock x).CS = .WAIT_W_GRANT_VALID by
        simp [WriteOnlyCtrl.clock, compute, hcs, hw']]
      exact ⟨done, a, by simp [compute, takesAw, hcs], hsame,
        by simp [WriteOnlyCtrl.clock, compute, hcs, hw', hle],
        by simp [WriteOnlyCtrl.clock, compute, takesW, hcs, hw, hw'],
        by simp [compute, responds, hcs]⟩
    | true =>
      have hw' : (x.grant && x.wvalid) = true := by rw [Bool.and_comm]; exact hw
      have hbeat : (s.clock x).Follows (done ++ [a])
          (totalBeats done + s.countBurstCS.toNat + 1) done.length :=
        follows_beat hsame hle
          (fun h => by simp [WriteOnlyCtrl.clock, compute, hcs, hw', hs.len, hlen, h])
          (fun h => by simp [WriteOnlyCtrl.clock, compute, hcs, hw', hs.len, hlen, h])
      simpa [compute, takesAw, takesW, responds, hcs, hw] using hbeat
  | BURST =>
    simp only [hcs] at h
    obtain ⟨done, a, rfl, hs, hle, rfl, rfl⟩ := h
    have hsame : (s.clock x).Samples a := by
      obtain ⟨huser, hid, haddr, hlen⟩ := hs
      constructor <;> simp [WriteOnlyCtrl.clock, compute, hcs, huser, hid, haddr, hlen]
    have hlen := len_eq_iff s.awlenReg s.countBurstCS
    rw [hs.len] at hlen
    cases hw : x.wvalid && x.grant with
    | false =>
      rw [Follows, show (s.clock x).CS = .WAIT_W_GRANT_VALID by
        simp [WriteOnlyCtrl.clock, compute, hcs, hw]]
      exact ⟨done, a, by simp [compute, takesAw, hcs], hsame,
        by simp [WriteOnlyCtrl.clock, compute, hcs, hw, hle],
        by simp [WriteOnlyCtrl.clock, compute, takesW, hcs, hw], by simp [compute, responds, hcs]⟩
    | true =>
      have hbeat : (s.clock x).Follows (done ++ [a])
          (totalBeats done + s.countBurstCS.toNat + 1) done.length :=
        follows_beat hsame hle
          (fun h => by
            cases hl : x.w.last <;>
              simp [WriteOnlyCtrl.clock, compute, hcs, hw, hs.len, hlen, h, hl])
          (fun h => by simp [WriteOnlyCtrl.clock, compute, hcs, hw, hs.len, hlen, h])
      simpa [compute, takesAw, takesW, responds, hcs, hw] using hbeat
  | ERROR =>
    simp only [hcs] at h
    simpa [Follows, WriteOnlyCtrl.clock, compute, takesAw, takesW, responds, hcs] using h

/-- A beat goes to the next word of its burst. -/
theorem Follows.memAO (h : s.Follows started n k) {x : WriteIn i u} (hw : s.takesW x = true) :
    ((started ++ if s.takesAw x then [x.aw] else []).flatMap (AddrReq.addrs m))[n]? =
      some (s.compute x).memAO := by
  have hfirst : ∀ a : AddrReq i u,
      ((started ++ [a]).flatMap (AddrReq.addrs m))[totalBeats started]? =
        some (a.memAddr m) := fun a => by
    rw [← Nat.add_zero (totalBeats started), getElem?_flatMap_beats length_addrs,
      getElem?_addrs a (Nat.zero_le _), BitVec.add_zero]
  rw [Follows] at h
  cases hcs : s.CS with
  | IDLE =>
    simp only [hcs] at h
    cases hv : x.awvalid with
    | false => simp [takesW, compute, hcs, hv] at hw
    | true => simpa [takesAw, compute, hcs, hv, h.1] using hfirst x.aw
  | DISPATCH_RESP =>
    simp only [hcs] at h
    obtain ⟨done, a, -, -, hn, -⟩ := h
    cases hb : x.bready with
    | false => simp [takesW, compute, hcs, hb] at hw
    | true =>
      cases hv : x.awvalid with
      | false => simp [takesW, compute, hcs, hb, hv] at hw
      | true => simpa [takesAw, compute, hcs, hb, hv, hn] using hfirst x.aw
  | WAIT_W_GRANT_VALID | BURST =>
    simp only [hcs] at h
    obtain ⟨done, a, rfl, hs, hle, rfl, -⟩ := h
    have hbeat := getElem?_flatMap_beats (f := AddrReq.addrs m) length_addrs done a
      s.countBurstCS.toNat
    rw [getElem?_addrs a hle, ← hs.addr, BitVec.ofNat_toNat] at hbeat
    simpa [takesAw, compute, hcs] using hbeat
  | ERROR => simp [takesW, compute, hcs] at hw

/-- A response answers the oldest request without one. -/
theorem Follows.bResp (h : s.Follows started n k) {x : WriteIn i u} (hr : s.responds x = true) :
    (started.map AddrReq.bResp)[k]? = some s.bResp := by
  rw [Follows] at h
  cases hcs : s.CS with
  | DISPATCH_RESP =>
    simp only [hcs] at h
    obtain ⟨done, a, rfl, hs, -, rfl⟩ := h
    simp [WriteOnlyCtrl.bResp, AddrReq.bResp, hs.id, hs.user]
  | IDLE => cases hv : x.awvalid <;> simp [responds, compute, hcs, hv] at hr
  | WAIT_W_GRANT_VALID | BURST | ERROR => simp [responds, compute, hcs] at hr

/-- A response comes after the beats of its burst. -/
theorem Follows.written (h : s.Follows started n k) :
    k ≤ started.length ∧ totalBeats (started.take k) ≤ n ∧ n ≤ totalBeats started := by
  rw [Follows] at h
  cases hcs : s.CS with
  | IDLE =>
    simp only [hcs] at h
    obtain ⟨rfl, rfl⟩ := h
    simp
  | DISPATCH_RESP =>
    simp only [hcs] at h
    obtain ⟨done, a, rfl, -, rfl, rfl⟩ := h
    simp
  | ERROR =>
    simp only [hcs] at h
    obtain ⟨done, a, rfl, rfl, rfl⟩ := h
    simp
  | WAIT_W_GRANT_VALID | BURST =>
    simp only [hcs] at h
    obtain ⟨done, a, rfl, -, hle, rfl, rfl⟩ := h
    simp [AddrReq.beats]
    omega

end Cycle

end WriteOnlyCtrl

end ShakeAccel.Axi
