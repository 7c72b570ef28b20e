import ShakeAccel.Axi.MemIf

/-!
# Progress of the memory interface

A master that takes what it is offered is answered within a number of cycles that depends only on
the beats it has asked for, whatever else it asks for meanwhile: the arbiter lets neither side wait
for more than one access of the other. The bound counts the steps that the requests still have to
make (a request leaves its buffer, a beat passes the memory port, an answer enters its buffer and
leaves it), two for each because the arbiter's flag may have to turn first. The exception is the
write controller's state `ERROR`, which it does not leave; it gets there only after the last beat of
a burst has come without `WLAST`.
-/

namespace ShakeAccel.Axi

variable {m i u : Nat}

/-- `WLAST` of each beat of a burst. -/
def AddrReq.lasts (a : AddrReq i u) : List Bool :=
  (List.range a.beats).map fun j => decide (j = a.len.toNat)

@[simp] theorem length_lasts (a : AddrReq i u) : a.lasts.length = a.beats := by
  rw [AddrReq.lasts, List.length_map, List.length_range]

theorem getElem?_lasts (a : AddrReq i u) : a.lasts[a.len.toNat]? = some true := by
  rw [AddrReq.lasts, List.getElem?_map, List.getElem?_range (AddrReq.lt_beats (Nat.le_refl _)),
    Option.map_some, decide_eq_true rfl]

/-! ## The controllers -/

/-- A read controller that offers no beat waits for the memory or has nothing to do. -/
theorem ReadOnlyCtrl.Follows.stalled {s : ReadOnlyCtrl m i u} {started : List (AddrReq i u)}
    {n k : Nat} {data : List Word} (h : s.Follows started n data k) {x : ReadIn i u}
    (hx : (s.compute x).rvalidO = false) :
    k = n ∧ ((s.compute x).validO = true ∨ (x.arvalid = false ∧ n = totalBeats started)) := by
  rw [ReadOnlyCtrl.Follows] at h
  cases hcs : s.CS with
  | IDLE =>
    simp only [hcs] at h
    obtain ⟨hn, -, hk⟩ := h
    refine ⟨hk, ?_⟩
    cases hv : x.arvalid with
    | false => exact .inr ⟨rfl, hn⟩
    | true => exact .inl (by simp [compute, accept, hcs, hv])
  | WAIT_BURST_GRANT =>
    simp only [hcs] at h
    obtain ⟨done, a, -, hk, -⟩ := h
    exact ⟨hk, .inl (by simp [compute, hcs])⟩
  | SINGLE_R | LAST_BURST_R | WAIT_RREADY | WAIT_LAST_RREADY | BURST_R | WAIT_BURST_RREADY =>
    cases hr : x.rready <;> simp [compute, accept, hcs, hr] at hx

/-- A write controller that offers no response waits for a request, for a beat or for the memory, or
has stopped. -/
theorem WriteOnlyCtrl.Follows.stalled {s : WriteOnlyCtrl m i u} {started : List (AddrReq i u)}
    {n k : Nat} (h : s.Follows started n k) {x : WriteIn i u}
    (hx : (s.compute x).bvalidO = false) :
    s.CS = .ERROR ∨ (k = started.length ∧ s.takesAw x = x.awvalid) ∨
      (k + 1 = started.length ∧ n < totalBeats started ∧ (s.compute x).validO = x.wvalid) := by
  rw [WriteOnlyCtrl.Follows] at h
  cases hcs : s.CS with
  | ERROR => exact .inl rfl
  | IDLE =>
    simp only [hcs] at h
    exact .inr (.inl ⟨h.2, by cases hv : x.awvalid <;> simp [takesAw, compute, hcs, hv]⟩)
  | WAIT_W_GRANT_VALID | BURST =>
    simp only [hcs] at h
    obtain ⟨done, a, rfl, -, hle, rfl, rfl⟩ := h
    exact .inr (.inr ⟨by simp, by simp [AddrReq.beats]; omega, by simp [compute, hcs]⟩)
  | DISPATCH_RESP =>
    cases hb : x.bready <;> cases hv : x.awvalid <;> simp [compute, hcs, hb, hv] at hx

/-- The write controller stops at the last beat of a burst if that beat comes without `WLAST`. -/
theorem WriteOnlyCtrl.Follows.error {s : WriteOnlyCtrl m i u} {started : List (AddrReq i u)}
    {n k : Nat} (h : s.Follows started n k) {x : WriteIn i u} (hcs : s.CS ≠ .ERROR)
    (hx : (s.clock x).CS = .ERROR) :
    s.takesW x = true ∧ x.w.last = false ∧
      ((started ++ if s.takesAw x then [x.aw] else []).flatMap AddrReq.lasts)[n]? = some true := by
  rw [WriteOnlyCtrl.Follows] at h
  rw [WriteOnlyCtrl.clock] at hx
  cases hst : s.CS with
  | ERROR => exact absurd hst hcs
  | IDLE =>
    cases hv : x.awvalid with
    | false => simp [compute, hst, hv] at hx
    | true =>
      simp only [compute, hst, hv, if_true] at hx
      split at hx
      · split at hx <;> cases hx
      · cases hx
  | WAIT_W_GRANT_VALID =>
    simp only [compute, hst] at hx
    split at hx
    · split at hx <;> cases hx
    · cases hx
  | DISPATCH_RESP =>
    simp only [hst] at h
    obtain ⟨done, a, -, -, rfl, -⟩ := h
    cases hb : x.bready with
    | false => simp [compute, hst, hb] at hx
    | true =>
      cases hv : x.awvalid with
      | false => simp [compute, hst, hb, hv] at hx
      | true =>
        cases hw : x.wvalid && x.grant with
        | false => simp [compute, hst, hb, hv, hw] at hx
        | true =>
          by_cases hlen : x.aw.len = 0#8
          · have hlast : x.w.last = false := by simpa [compute, hst, hb, hv, hw, hlen] using hx
            have hbeat := getElem?_flatMap_beats length_lasts started x.aw x.aw.len.toNat
            rw [getElem?_lasts, hlen] at hbeat
            exact ⟨by simpa [takesW, compute, hst, hb, hv] using hw, hlast,
              by simpa [takesAw, compute, hst, hb, hv] using hbeat⟩
          · simp [compute, hst, hb, hv, hw, hlen] at hx
  | BURST =>
    simp only [hst] at h
    obtain ⟨done, a, rfl, hs, -, rfl, -⟩ := h
    cases hw : x.wvalid && x.grant with
    | false => simp [compute, hst, hw] at hx
    | true =>
      by_cases hlen : s.awlenReg.setWidth 9 = s.countBurstCS
      · have hlast : x.w.last = false := by simpa [compute, hst, hw, hlen] using hx
        have hcount := (len_eq_iff _ _).1 hlen
        have hbeat := getElem?_flatMap_beats length_lasts done a a.len.toNat
        rw [getElem?_lasts, ← hs.len, ← hcount] at hbeat
        exact ⟨by simpa [takesW, compute, hst] using hw, hlast,
          by simpa [takesAw, compute, hst] using hbeat⟩
      · simp [compute, hst, hw, hlen] at hx

namespace Monitor

/-! ## The reading side -/

section Read

variable {y : Monitor m i u} {started arq : List (AddrReq i u)} {n k : Nat} {rq : List (RBeat i u)}

theorem prefix_step_rs (y : Monitor m i u) (x : MemIfIn i u) : y.rs <+: (y.step x).rs :=
  List.prefix_append _ _

theorem prefix_step_ars (y : Monitor m i u) (x : MemIfIn i u) : y.ars <+: (y.step x).ars :=
  List.prefix_append _ _

/-- The beats that have entered the R buffer. -/
theorem ReadSide.length_rs (h : y.ReadSide started arq n k rq) :
    y.rs.length + rq.length = k := by
  obtain ⟨hn, hdata, hk⟩ := h.ctrl.counts
  rw [← List.length_append, h.rs, List.length_take, List.length_zipWith,
    length_flatMap_beats length_rBeats]
  omega

/-- A flag costs at most one step. -/
theorem toNat_le_succ (a b : Bool) : a.toNat ≤ b.toNat + 1 :=
  (Bool.toNat_le a).trans (Nat.le_add_left 1 _)

/-- The flag of the arbiter turns when the write controller takes a beat. -/
theorem rrFlag_of_takesW (y : Monitor m i u) (x : MemIfIn i u)
    (h : y.memIf.writeCtrl.takesW y.memIf.toWrite = true) :
    (y.step x).memIf.rrFlag = !y.memIf.rrFlag := by
  have hport := y.memIf.port_write x.q
  rw [h, Bool.and_eq_true, Bool.not_eq_true'] at hport
  rw [step, MemIfSP.clock, hport.1]
  rfl

/-- The flag of the arbiter turns when the read controller reads. -/
theorem rrFlag_of_reads (y : Monitor m i u) (x : MemIfIn i u)
    (h : y.memIf.readCtrl.reads (y.memIf.toRead x.q) = true) :
    (y.step x).memIf.rrFlag = !y.memIf.rrFlag := by
  have hport := y.memIf.port_read x.q
  rw [h, Bool.and_eq_true, Bool.not_eq_true'] at hport
  rw [step, MemIfSP.clock, hport.1]
  rfl

/-- A read controller that is not served leaves the memory to a write. -/
theorem takesW_of_waiting (s : MemIfSP m i u) (q : Word) (hv : s.validR = true)
    (hr : s.readCtrl.reads (s.toRead q) = false) :
    s.rrFlag = false ∧ s.writeCtrl.takesW s.toWrite = true := by
  rw [MemIfSP.reads_toRead, hv, Bool.true_and] at hr
  have hw : s.grantW = true := by rw [MemIfSP.grantR_eq] at hr; simpa using hr
  rw [MemIfSP.grantR] at hr
  cases hf : s.rrFlag with
  | true => simp [hf, hv] at hr
  | false =>
    refine ⟨rfl, ?_⟩
    rw [MemIfSP.takesW_toWrite, hw, Bool.and_true]
    simpa [hf] using hr

/-- The steps that the first `T` beats asked for still have to make, and one more for the flag. -/
def readSteps (T n k : Nat) (y : Monitor m i u) : Nat :=
  2 * (T - n) + 2 * (T - k) + 2 * (T - y.rs.length) + (!y.memIf.rrFlag).toNat

/-- In each cycle some beat makes a step, or the flag turns. -/
theorem ReadSide.readSteps_lt {T : Nat} (h : y.ReadSide started arq n k rq) (x : MemIfIn i u)
    (hx : x.rready = true) (hT : T ≤ totalBeats y.ars) (hlt : y.rs.length < T) :
    readSteps T (n + (y.memIf.readCtrl.reads (y.memIf.toRead x.q)).toNat)
        (k + (y.memIf.readCtrl.gives (y.memIf.toRead x.q)).toNat) (y.step x) <
      readSteps T n k y := by
  have hlen := h.length_rs
  have hmono := (prefix_step_rs y x).length_le
  have hflag := toNat_le_succ (!(y.step x).memIf.rrFlag) (!y.memIf.rrFlag)
  have hports := h.rBuffer.showsQueue .zero
  rw [readSteps, readSteps]
  cases rq with
  | cons beat rq =>
    have hpop : (y.step x).rs.length = y.rs.length + 1 := by
      rw [Monitor.step]
      simp [GenericFifo.popped, MemIfSP.rIn, hports.validO, hx]
    omega
  | nil =>
    cases hg : y.memIf.readCtrl.gives (y.memIf.toRead x.q) with
    | true =>
      rw [Bool.toNat_true]
      rw [List.length_nil] at hlen
      omega
    | false =>
      have hready : (y.memIf.toRead x.q).rready = true := hports.grantO
      rw [ReadOnlyCtrl.gives, hready, Bool.and_true] at hg
      obtain ⟨rfl, hv | ⟨hempty, hall⟩⟩ := h.ctrl.stalled hg
      · cases hr : y.memIf.readCtrl.reads (y.memIf.toRead x.q) with
        | true =>
          rw [Bool.toNat_true]
          rw [List.length_nil] at hlen
          omega
        | false =>
          rw [MemIfSP.toRead, MemIfSP.validO_read] at hv
          obtain ⟨hf, hw⟩ := takesW_of_waiting y.memIf x.q hv hr
          rw [rrFlag_of_takesW y x hw, hf]
          simp only [Bool.toNat_false, Bool.not_false, Bool.not_true, Bool.toNat_true]
          omega
      · have harq : arq = [] := by
          have hvalid := (h.arBuffer.showsQueue .zero).validO
          rw [show y.memIf.slaveArBuffer.validO = false from hempty] at hvalid
          simpa using hvalid.symm
        rw [h.ars, harq, List.append_nil, ← hall] at hT
        rw [List.length_nil] at hlen
        omega

/-- The reading side within `N` steps of the first `T` beats. -/
def ReadWithin (T N : Nat) (y : Monitor m i u) : Prop :=
  ∃ started arq n k rq, y.ReadSide started arq n k rq ∧ T ≤ totalBeats y.ars ∧ readSteps T n k y ≤ N

/-- **The reading side answers**: a master that takes every beat it is offered has got the first `T`
beats that it has asked for after at most `6 * T + 2` cycles. -/
theorem Follows.read_progress (h : y.Follows) {T : Nat} (hT : T ≤ totalBeats y.ars)
    {xs : List (MemIfIn i u)} (hxs : ∀ x ∈ xs, x.rready = true) (hlen : 6 * T + 1 < xs.length) :
    T ≤ (Machine.run Monitor.step y xs).rs.length := by
  obtain ⟨-, started, arq, n, k, rq, hr⟩ := h
  have hgoal : ∀ (s : Monitor m i u) x, T ≤ s.rs.length → T ≤ (s.step x).rs.length :=
    fun s x hs => hs.trans (prefix_step_rs s x).length_le
  have hstep : ∀ N (s : Monitor m i u) (x : MemIfIn i u), x.rready = true → ReadWithin T N s →
      T ≤ s.rs.length ∨ ∃ N' < N, ReadWithin T N' (s.step x) := by
    rintro N s x hx ⟨started, arq, n, k, rq, hside, hask, hN⟩
    rcases Nat.lt_or_ge s.rs.length T with hlt | hge
    · exact .inr ⟨_, (hside.readSteps_lt x hx hask hlt).trans_le hN, _, _, _, _, _, hside.step x,
        hask.trans (totalBeats_mono (prefix_step_ars s x)), Nat.le_refl _⟩
    · exact .inl hge
  have hstart : ReadWithin T (6 * T + 1) y := by
    refine ⟨started, arq, n, k, rq, hr, hT, ?_⟩
    have hflag := toNat_le_succ (!y.memIf.rrFlag) false
    rw [Bool.toNat_false] at hflag
    rw [readSteps]
    omega
  exact Machine.run_progress (G := fun s : Monitor m i u => T ≤ s.rs.length) hgoal hstep hstart hxs
    hlen

end Read

/-! ## The writing side -/

section Write

variable {y : Monitor m i u} {started awq : List (AddrReq i u)} {taken wq : List WBeat} {k : Nat}
  {bq : List (BResp i u)}

/-- The last beat of a burst has come without `WLAST`. -/
def WrongLast (y : Monitor m i u) : Prop :=
  ∃ (j : Nat) (w : WBeat), y.ws[j]? = some w ∧ (y.aws.flatMap AddrReq.lasts)[j]? = some true ∧
    w.last = false

theorem prefix_step_bs (y : Monitor m i u) (x : MemIfIn i u) : y.bs <+: (y.step x).bs :=
  List.prefix_append _ _

theorem prefix_step_aws (y : Monitor m i u) (x : MemIfIn i u) : y.aws <+: (y.step x).aws :=
  List.prefix_append _ _

theorem prefix_step_ws (y : Monitor m i u) (x : MemIfIn i u) : y.ws <+: (y.step x).ws :=
  List.prefix_append _ _

theorem getElem?_of_extends {α : Type*} {as bs : List α} (h : as <+: bs) {j : Nat} {a : α}
    (ha : as[j]? = some a) : bs[j]? = some a := by
  obtain ⟨t, rfl⟩ := h
  rw [List.getElem?_append_left (List.getElem?_eq_some_iff.1 ha).1, ha]

theorem WrongLast.step (h : y.WrongLast) (x : MemIfIn i u) : (y.step x).WrongLast := by
  obtain ⟨j, w, hw, hlast, hfalse⟩ := h
  exact ⟨j, w, getElem?_of_extends (prefix_step_ws y x) hw,
    getElem?_of_extends ((prefix_step_aws y x).flatMap _) hlast, hfalse⟩

/-- A write controller that stops has been given a last beat without `WLAST`. -/
theorem WriteSide.wrongLast (h : y.WriteSide started awq taken wq k bq) (x : MemIfIn i u)
    (hy : y.memIf.writeCtrl.CS = .ERROR → y.WrongLast)
    (hx : (y.step x).memIf.writeCtrl.CS = .ERROR) : (y.step x).WrongLast := by
  by_cases hcs : y.memIf.writeCtrl.CS = .ERROR
  · exact (hy hcs).step x
  · have hnext := h.step x
    obtain ⟨hw, hfalse, hlast⟩ := h.ctrl.error hcs hx
    refine ⟨taken.length, y.memIf.toWrite.w, ?_, ?_, hfalse⟩
    · rw [hnext.ws, hw, if_pos rfl]
      simp
    · exact getElem?_of_extends (List.IsPrefix.flatMap ⟨_, hnext.aws.symm⟩ _) hlast

/-- The responses that have entered the B buffer. -/
theorem WriteSide.length_bs (h : y.WriteSide started awq taken wq k bq) :
    y.bs.length + bq.length = k := by
  rw [← List.length_append, h.bs, List.length_take, List.length_map]
  exact Nat.min_eq_left h.ctrl.written.1

/-- A write controller that is not served leaves the memory to a read. -/
theorem reads_of_waiting (s : MemIfSP m i u) (q : Word) (hv : s.validW = true)
    (hw : s.writeCtrl.takesW s.toWrite = false) :
    s.rrFlag = true ∧ s.readCtrl.reads (s.toRead q) = true := by
  rw [MemIfSP.takesW_toWrite, hv, Bool.true_and] at hw
  have hr : s.grantR = true := by rw [MemIfSP.grantR_eq, hw]; rfl
  rw [MemIfSP.grantW] at hw
  cases hf : s.rrFlag with
  | false => simp [hf, hv] at hw
  | true =>
    refine ⟨rfl, ?_⟩
    rw [MemIfSP.reads_toRead, hr, Bool.and_true]
    simpa [hf] using hw

/-- The steps that the first `N` bursts with their `T` beats still have to make, and one more for
the flag. -/
def writeSteps (N T a n k : Nat) (y : Monitor m i u) : Nat :=
  2 * (N - a) + 2 * (T - n) + 2 * (N - k) + 2 * (N - y.bs.length) + y.memIf.rrFlag.toNat

/-- In each cycle some request, beat or response makes a step, or the flag turns. -/
theorem WriteSide.writeSteps_lt (h : y.WriteSide started awq taken wq k bq) (x : MemIfIn i u)
    (hx : x.bready = true) {as : List (AddrReq i u)} (has : as <+: y.aws)
    (hws : totalBeats as ≤ y.ws.length) (hlt : y.bs.length < as.length)
    (hcs : y.memIf.writeCtrl.CS ≠ .ERROR) :
    writeSteps as.length (totalBeats as)
        (started.length + (y.memIf.writeCtrl.takesAw y.memIf.toWrite).toNat)
        (taken.length + (y.memIf.writeCtrl.takesW y.memIf.toWrite).toNat)
        (k + (y.memIf.writeCtrl.responds y.memIf.toWrite).toNat) (y.step x) <
      writeSteps as.length (totalBeats as) started.length taken.length k y := by
  have hlen := h.length_bs
  have hmono := (prefix_step_bs y x).length_le
  have hflag := toNat_le_succ (y.step x).memIf.rrFlag y.memIf.rrFlag
  have hports := h.bBuffer.showsQueue .zero
  rw [writeSteps, writeSteps]
  cases bq with
  | cons resp bq =>
    have hpop : (y.step x).bs.length = y.bs.length + 1 := by
      rw [Monitor.step]
      simp [GenericFifo.popped, MemIfSP.bIn, hports.validO, hx]
    omega
  | nil =>
    rw [List.length_nil] at hlen
    cases hr : y.memIf.writeCtrl.responds y.memIf.toWrite with
    | true => rw [Bool.toNat_true]; omega
    | false =>
      have hready : y.memIf.toWrite.bready = true := hports.grantO
      rw [WriteOnlyCtrl.responds, hready, Bool.and_true] at hr
      rcases h.ctrl.stalled hr with hstop | ⟨hk, haw⟩ | ⟨hk, hn, hv⟩
      · exact absurd hstop hcs
      · -- a request waits, since fewer than the first `as.length` have been taken
        have hvalid : y.memIf.toWrite.awvalid = true := by
          have hvalid := (h.awBuffer.showsQueue .zero).validO
          cases awq with
          | nil =>
            have hle := has.length_le
            rw [h.aws, List.append_nil] at hle
            omega
          | cons a awq => exact hvalid
        rw [haw, hvalid, Bool.toNat_true]
        omega
      · -- a beat waits, since the burst under way is one of the first `as.length`
        have hearlier : started <+: as :=
          List.prefix_of_prefix_length_le ⟨awq, h.aws.symm⟩ has (by omega)
        have hle := totalBeats_mono hearlier
        have hvalid : y.memIf.toWrite.wvalid = true := by
          have hvalid := (h.wBuffer.showsQueue .zero).validO
          cases wq with
          | nil =>
            rw [h.ws, List.append_nil] at hws
            omega
          | cons w wq => exact hvalid
        cases hw : y.memIf.writeCtrl.takesW y.memIf.toWrite with
        | true => rw [Bool.toNat_true]; omega
        | false =>
          rw [hvalid, MemIfSP.toWrite, MemIfSP.validO_write] at hv
          obtain ⟨hf, hread⟩ := reads_of_waiting y.memIf x.q hv hw
          rw [rrFlag_of_reads y x hread, hf]
          simp only [Bool.toNat_false, Bool.not_true, Bool.toNat_true]
          omega

/-- The writing side within `N` steps of the responses to the bursts `as`. -/
def WriteWithin (as : List (AddrReq i u)) (N : Nat) (y : Monitor m i u) : Prop :=
  ∃ started awq taken wq k bq, y.WriteSide started awq taken wq k bq ∧ as <+: y.aws ∧
    totalBeats as ≤ y.ws.length ∧
    writeSteps as.length (totalBeats as) started.length taken.length k y ≤ N

/-- The states that a run from the reset reaches. -/
structure Reached (y : Monitor m i u) : Prop where
  follows : y.Follows
  error : y.memIf.writeCtrl.CS = .ERROR → y.WrongLast

theorem reached_start : (start : Monitor m i u).Reached :=
  ⟨follows_start, fun h => by cases h⟩

theorem Reached.step (h : y.Reached) (x : MemIfIn i u) : (y.step x).Reached := by
  obtain ⟨⟨_, _, _, _, _, _, hw⟩, -⟩ := h.follows
  exact ⟨h.follows.step x, hw.wrongLast x h.error⟩

theorem Reached.run (h : y.Reached) (xs : List (MemIfIn i u)) :
    (Machine.run Monitor.step y xs).Reached :=
  Machine.run_invariant (A := fun _ => True) (fun _ x _ h => h.step x) h fun _ _ => trivial

/-- **The writing side answers**: a master that takes every response has got the response to each of
the bursts `as`, all of whose beats it has given, after at most
`6 * as.length + 2 * totalBeats as + 2` cycles, unless it has given the last beat of a burst without
`WLAST`. -/
theorem Reached.write_progress (h : y.Reached) {as : List (AddrReq i u)} (has : as <+: y.aws)
    (hws : totalBeats as ≤ y.ws.length) {xs : List (MemIfIn i u)}
    (hxs : ∀ x ∈ xs, x.bready = true) (hlen : 6 * as.length + 2 * totalBeats as + 1 < xs.length) :
    as.length ≤ (Machine.run Monitor.step y xs).bs.length ∨
      (Machine.run Monitor.step y xs).WrongLast := by
  have hgoal : ∀ (s : Monitor m i u) x, as.length ≤ s.bs.length ∨ s.WrongLast →
      as.length ≤ (s.step x).bs.length ∨ (s.step x).WrongLast := by
    rintro s x (hs | hs)
    · exact .inl (hs.trans (prefix_step_bs s x).length_le)
    · exact .inr (hs.step x)
  have hstep : ∀ N (s : Monitor m i u) (x : MemIfIn i u), x.bready = true →
      s.Reached ∧ WriteWithin as N s → (as.length ≤ s.bs.length ∨ s.WrongLast) ∨
        ∃ N' < N, (s.step x).Reached ∧ WriteWithin as N' (s.step x) := by
    rintro N s x hx ⟨hs, started, awq, taken, wq, k, bq, hside, has, hws, hN⟩
    by_cases hcs : s.memIf.writeCtrl.CS = .ERROR
    · exact .inl (.inr (hs.error hcs))
    rcases Nat.lt_or_ge s.bs.length as.length with hlt | hge
    · refine .inr ⟨_, (hside.writeSteps_lt x hx has hws hlt hcs).trans_le hN, hs.step x, _, _, _, _,
        _, _, hside.step x, has.trans (prefix_step_aws s x),
        hws.trans (prefix_step_ws s x).length_le, ?_⟩
      rw [length_append_ite, length_append_ite]
    · exact .inl (.inl hge)
  obtain ⟨⟨started, awq, taken, wq, k, bq, hw⟩, -⟩ := h.follows
  have hstart : WriteWithin as (6 * as.length + 2 * totalBeats as + 1) y := by
    refine ⟨started, awq, taken, wq, k, bq, hw, has, hws, ?_⟩
    have hflag := toNat_le_succ y.memIf.rrFlag false
    rw [Bool.toNat_false] at hflag
    rw [writeSteps]
    omega
  exact Machine.run_progress (G := fun s : Monitor m i u => as.length ≤ s.bs.length ∨ s.WrongLast)
    hgoal hstep ⟨h, hstart⟩ hxs hlen

end Write

/-- **The memory interface answers.** After any run, a master that takes what it is offered gets the
beats of all the reads that it has asked for, and the responses to the first bursts whose beats it
has given, unless it has given a last beat without `WLAST`; whatever bursts it has asked for behind
them and whatever else it asks for in the meantime. -/
theorem run_responsive (xs ys : List (MemIfIn i u)) :
    let y := Machine.run step (start : Monitor m i u) xs
    let z := Machine.run step y ys
    ((∀ x ∈ ys, x.rready = true) → 6 * totalBeats y.ars + 1 < ys.length →
        totalBeats y.ars ≤ z.rs.length) ∧
      ((∀ x ∈ ys, x.bready = true) → ∀ as, as <+: y.aws → totalBeats as ≤ y.ws.length →
        6 * as.length + 2 * totalBeats as + 1 < ys.length →
        as.length ≤ z.bs.length ∨ z.WrongLast) := by
  have hy := (reached_start : (start : Monitor m i u).Reached).run xs
  exact ⟨fun hready hlen => hy.follows.read_progress (Nat.le_refl _) hready hlen,
    fun hready _ has hws hlen => hy.write_progress has hws hready hlen⟩

/-- A read and a write of one word, asked for together. -/
def oneOfEach : MemIfIn 2 1 where
  awvalid := true
  aw := ⟨1, 0x8, 0, 0⟩
  wvalid := true
  w := ⟨0x1234, 0xF, true⟩
  bready := false
  arvalid := true
  ar := ⟨2, 0xC, 0, 1⟩
  rready := false
  testEn := false
  q := 0

/-- A master that asks for another burst of three words and gives none of them. -/
def anotherBurst : MemIfIn 2 1 :=
  { oneOfEach with
    aw := ⟨1, 0x10, 2, 0⟩
    wvalid := false
    arvalid := false }

/-- A master that asks for nothing and takes what it is offered. -/
def taking : MemIfIn 2 1 :=
  { oneOfEach with
    awvalid := false
    wvalid := false
    bready := true
    arvalid := false
    rready := true }

/-- The first write is answered, though the beats of the second are still to come. -/
theorem run_responsive_oneOfEach :
    let y := Machine.run step (start : Monitor 4 2 1) [oneOfEach, anotherBurst]
    let z := Machine.run step y (List.replicate 10 taking)
    y.ars = [oneOfEach.ar] ∧ y.aws = [oneOfEach.aw, anotherBurst.aw] ∧ y.ws = [oneOfEach.w] ∧
      1 ≤ z.rs.length ∧ (1 ≤ z.bs.length ∨ z.WrongLast) := by
  intro y z
  obtain ⟨hread, hwrite⟩ := run_responsive (m := 4) [oneOfEach, anotherBurst]
    (List.replicate 10 taking)
  have htaken : ∀ x ∈ List.replicate 10 taking, x.bready = true ∧ x.rready = true :=
    fun x hx => by rw [List.eq_of_mem_replicate hx]; exact ⟨rfl, rfl⟩
  refine ⟨rfl, rfl, rfl, ?_, ?_⟩
  · exact hread (fun x hx => (htaken x hx).2) (by decide)
  · exact hwrite (fun x hx => (htaken x hx).1) [oneOfEach.aw] ⟨[anotherBurst.aw], rfl⟩
      (by decide) (by decide)

end Monitor

end ShakeAccel.Axi
