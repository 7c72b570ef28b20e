import Mathlib.Data.Nat.Log
import ShakeAccel.Lib.Machine
import ShakeAccel.Lib.Ring

/-!
# The buffer of an AXI channel (`generic_fifo.sv`)

`DATA_DEPTH` registers, a pointer to push at, a pointer to pop from and a state that tells an empty
buffer from a full one. A word is pushed in a cycle with `valid_i` and `grant_o`, and popped in a
cycle with `valid_o` and `grant_i`. The pointers have `$clog2(DATA_DEPTH)` bits. In `EMPTY` the push
pointer is incremented without the comparison with `DATA_DEPTH-1` that the other states make, so it
leaves the registers unless the depth is a power of two (`refines_queue_iff`).
-/

namespace ShakeAccel.Axi

/-- The states of `generic_fifo`. -/
inductive FifoState where
  | EMPTY
  | FULL
  | MIDDLE
deriving DecidableEq

/-- The inputs of `generic_fifo` in one cycle. -/
structure FifoIn (α : Type*) where
  dataI : α
  validI : Bool
  grantI : Bool
  testModeI : Bool

/-- The registers of `generic_fifo` with `DATA_DEPTH = d`. -/
structure GenericFifo (α : Type*) (d : Nat) where
  CS : FifoState
  popPointerCS : Nat
  pushPointerCS : Nat
  fifoRegisters : Vector α d

/-- What the always_comb block of `generic_fifo` computes from state and inputs. -/
structure FifoNext where
  NS : FifoState
  pushPointerNS : Nat
  popPointerNS : Nat
  gateClock : Bool

namespace GenericFifo

variable {α : Type*} {d : Nat}

/-- `ADDR_DEPTH = $clog2(DATA_DEPTH)`. -/
def addrDepth (d : Nat) : Nat := Nat.clog 2 d

/-- The state after the reset; `zero` is the word of zero bits. -/
def reset (zero : α) (d : Nat) : GenericFifo α d := ⟨.EMPTY, 0, 0, .replicate d zero⟩

/-- `grant_o`. -/
def grantO (f : GenericFifo α d) : Bool :=
  match f.CS with
  | .EMPTY | .MIDDLE => true
  | .FULL => false

/-- `valid_o`. -/
def validO (f : GenericFifo α d) : Bool :=
  match f.CS with
  | .EMPTY => false
  | .MIDDLE | .FULL => true

/-- `data_o`; a register outside the array reads as an unknown word. -/
def dataO (f : GenericFifo α d) (unknown : α) : α :=
  f.fifoRegisters[f.popPointerCS]?.getD unknown

/-- A pointer plus one, in `ADDR_DEPTH` bits. -/
def succ (d p : Nat) : Nat := (p + 1) % 2 ^ addrDepth d

/-- A pointer plus one, with the comparison with `DATA_DEPTH-1`. -/
def wrap (d p : Nat) : Nat := if p = d - 1 then 0 else succ d p

/-- The always_comb block. The subtractions in its comparisons are made in 32 bits, so that pointer
0 has no predecessor. -/
def computeNext (f : GenericFifo α d) (i : FifoIn α) : FifoNext :=
  match f.CS with
  | .EMPTY =>
    if i.validI then ⟨.MIDDLE, succ d f.pushPointerCS, f.popPointerCS, false⟩
    else ⟨.EMPTY, f.pushPointerCS, f.popPointerCS, true⟩
  | .MIDDLE =>
    match i.validI, i.grantI with
    | false, true =>
      { NS :=
          if f.popPointerCS + 1 = f.pushPointerCS ∨
              (f.popPointerCS = d - 1 ∧ f.pushPointerCS = 0) then .EMPTY
          else .MIDDLE
        pushPointerNS := f.pushPointerCS
        popPointerNS := wrap d f.popPointerCS
        gateClock := true }
    | false, false => ⟨.MIDDLE, f.pushPointerCS, f.popPointerCS, true⟩
    | true, true => ⟨.MIDDLE, wrap d f.pushPointerCS, wrap d f.popPointerCS, false⟩
    | true, false =>
      { NS :=
          if f.pushPointerCS + 1 = f.popPointerCS ∨
              (f.pushPointerCS = d - 1 ∧ f.popPointerCS = 0) then .FULL
          else .MIDDLE
        pushPointerNS := wrap d f.pushPointerCS
        popPointerNS := f.popPointerCS
        gateClock := false }
  | .FULL =>
    if i.grantI then ⟨.MIDDLE, f.pushPointerCS, wrap d f.popPointerCS, true⟩
    else ⟨.FULL, f.pushPointerCS, f.popPointerCS, true⟩

/-- The rising edge. The registers have the gated clock, which runs in test mode too; a write
outside the array has no effect. -/
def clock (f : GenericFifo α d) (i : FifoIn α) : GenericFifo α d :=
  let n := f.computeNext i
  { CS := n.NS
    popPointerCS := n.popPointerNS
    pushPointerCS := n.pushPointerNS
    fifoRegisters :=
      if (!n.gateClock || i.testModeI) && f.grantO && i.validI then
        f.fifoRegisters.setIfInBounds f.pushPointerCS i.dataI
      else f.fifoRegisters }

/-- The word that a cycle pushes. -/
def pushed (f : GenericFifo α d) (i : FifoIn α) : List α :=
  if i.validI && f.grantO then [i.dataI] else []

/-- The word that a cycle pops. -/
def popped (unknown : α) (f : GenericFifo α d) (i : FifoIn α) : List α :=
  if f.validO && i.grantI then [f.dataO unknown] else []

/-! ## The buffer as a queue -/

/-- What the ports of a buffer that holds the queue `q` show. -/
structure ShowsQueue (unknown : α) (f : GenericFifo α d) (q : List α) : Prop where
  length_le : q.length ≤ d
  grantO : f.grantO = decide (q.length < d)
  validO : f.validO = !q.isEmpty
  dataO : ∀ x ∈ q.head?, f.dataO unknown = x

/-- The registers of a buffer that holds the queue `q`. -/
structure Represents (f : GenericFifo α d) (q : List α) : Prop where
  holds : Ring.Holds f.fifoRegisters f.popPointerCS q
  pop_lt : f.popPointerCS < d
  push_eq : f.pushPointerCS = (f.popPointerCS + q.length) % d
  empty_iff : f.CS = .EMPTY ↔ q.length = 0
  full_iff : f.CS = .FULL ↔ q.length = d

/-- The queue after a cycle. -/
def queueStep (d : Nat) (q : List α) (i : FifoIn α) : List α :=
  (if i.grantI then q.tail else q) ++ if i.validI && decide (q.length < d) then [i.dataI] else []

theorem represents_reset (hd : 0 < d) (zero : α) : Represents (reset zero d) [] where
  holds := .nil _ _
  pop_lt := hd
  push_eq := (Nat.zero_mod d).symm
  empty_iff := by simp [reset]
  full_iff := by simp [reset]; omega

theorem Represents.showsQueue {f : GenericFifo α d} {q : List α} (h : f.Represents q)
    (unknown : α) : f.ShowsQueue unknown q where
  length_le := h.holds.length_le
  grantO := by
    have hle := h.holds.length_le
    have hfull := h.full_iff
    rw [GenericFifo.grantO]
    cases hcs : f.CS with
    | EMPTY | MIDDLE => simp [hcs] at hfull; simp; omega
    | FULL => simp [hcs] at hfull; simp [hfull]
  validO := by
    have hempty := h.empty_iff
    rw [GenericFifo.validO]
    cases hcs : f.CS with
    | EMPTY => simp [hcs] at hempty; simp [hempty]
    | MIDDLE | FULL => simp [hcs] at hempty; simp [hempty]
  dataO x hx := by
    cases q with
    | nil => cases hx
    | cons y q =>
      obtain rfl := Option.some.inj hx
      rw [GenericFifo.dataO, h.holds.head h.pop_lt, Option.getD_some]

/-! ## A depth that is a power of two -/

section PowerOfTwo

variable {f : GenericFifo α d} {q : List α} {i : FifoIn α}

theorem succ_eq (hpow : d = 2 ^ addrDepth d) (p : Nat) : succ d p = (p + 1) % d := by
  rw [succ, ← hpow]

theorem wrap_eq (hpow : d = 2 ^ addrDepth d) {p : Nat} (hp : p < d) : wrap d p = (p + 1) % d := by
  rw [wrap, succ_eq hpow]
  split
  · next hlast => rw [show p + 1 = d by omega, Nat.mod_self]
  · rfl

/-- The comparison of the always_comb block finds the pointer after `p`. -/
theorem isSucc_iff {p p' : Nat} (hp : p < d) (hp' : p' < d) :
    p + 1 = p' ∨ (p = d - 1 ∧ p' = 0) ↔ p' = (p + 1) % d := by
  rcases Nat.lt_or_ge (p + 1) d with hlt | hge
  · rw [Nat.mod_eq_of_lt hlt]; omega
  · rw [show p + 1 = d by omega, Nat.mod_self]; omega

theorem Represents.push_lt (h : f.Represents q) : f.pushPointerCS < d := by
  rw [h.push_eq]
  exact Nat.mod_lt _ (Nat.zero_lt_of_lt h.pop_lt)

/-- The push pointer after a push. -/
theorem Represents.push_succ (h : f.Represents q) :
    (f.pushPointerCS + 1) % d = (f.popPointerCS + (q.length + 1)) % d := by
  rw [h.push_eq, Nat.mod_add_mod, Nat.add_assoc]

/-- The test for the last word. -/
theorem Represents.last_iff (h : f.Represents q) (h2 : 2 ≤ d) (hlt : q.length < d) :
    f.popPointerCS + 1 = f.pushPointerCS ∨ (f.popPointerCS = d - 1 ∧ f.pushPointerCS = 0) ↔
      q.length = 1 := by
  rw [isSucc_iff h.pop_lt h.push_lt, h.push_eq]
  exact ⟨Ring.offset_inj hlt h2, fun h1 => by rw [h1]⟩

/-- The test for the last free register. -/
theorem Represents.lastFree_iff (h : f.Represents q) (hlt : q.length < d) :
    f.pushPointerCS + 1 = f.popPointerCS ∨ (f.pushPointerCS = d - 1 ∧ f.popPointerCS = 0) ↔
      q.length + 1 = d := by
  have hpop : f.popPointerCS = (f.popPointerCS + 0) % d := (Nat.mod_eq_of_lt h.pop_lt).symm
  rw [isSucc_iff h.push_lt h.pop_lt, h.push_succ]
  constructor
  · intro heq
    rcases Nat.lt_or_ge (q.length + 1) d with hroom | hfull
    · have h0 := Ring.offset_inj (Nat.zero_lt_of_lt hroom) hroom (hpop.symm.trans heq)
      omega
    · omega
  · intro heq
    rw [heq, Nat.add_mod_right, Nat.mod_eq_of_lt h.pop_lt]

/-- A buffer with room after a push. -/
theorem Represents.push (h : f.Represents q) (hroom : q.length < d) (x : α) :
    Represents ⟨if q.length + 1 = d then .FULL else .MIDDLE, f.popPointerCS,
      (f.pushPointerCS + 1) % d, f.fifoRegisters.setIfInBounds f.pushPointerCS x⟩ (q ++ [x]) where
  holds := by
    rw [h.push_eq]
    exact h.holds.push hroom x
  pop_lt := h.pop_lt
  push_eq := by rw [List.length_append, List.length_singleton]; exact h.push_succ
  empty_iff := by
    rw [List.length_append, List.length_singleton]
    dsimp only
    split <;> simp
  full_iff := by
    rw [List.length_append, List.length_singleton]
    dsimp only
    split <;> simp [*]

/-- A buffer after a pop. -/
theorem Represents.pop {x : α} (h : f.Represents (x :: q)) :
    Represents ⟨if q.length = 0 then .EMPTY else .MIDDLE, (f.popPointerCS + 1) % d,
      f.pushPointerCS, f.fifoRegisters⟩ q where
  holds := h.holds.pop
  pop_lt := Nat.mod_lt _ (Nat.zero_lt_of_lt h.pop_lt)
  push_eq := by
    rw [h.push_eq, List.length_cons, Nat.mod_add_mod, Nat.add_assoc, Nat.add_comm 1]
  empty_iff := by
    dsimp only
    split <;> simp [*]
  full_iff := by
    have hle := h.holds.length_le
    rw [List.length_cons] at hle
    dsimp only
    split <;> simp <;> omega

/-- A cycle of the buffer is a cycle of the queue. -/
theorem Represents.clock (h : f.Represents q) (h2 : 2 ≤ d) (hpow : d = 2 ^ addrDepth d)
    (i : FifoIn α) : (f.clock i).Represents (queueStep d q i) := by
  have hle := h.holds.length_le
  have hpush := wrap_eq hpow h.push_lt
  have hpop := wrap_eq hpow h.pop_lt
  cases hcs : f.CS with
  | EMPTY =>
    obtain rfl : q = [] := List.length_eq_zero_iff.1 (h.empty_iff.1 hcs)
    have hd : 0 < d := Nat.zero_lt_of_lt h2
    cases hv : i.validI with
    | false => simpa [queueStep, GenericFifo.clock, computeNext, hcs, hv] using hcs ▸ h
    | true =>
      have hp := h.push hd i.dataI
      rw [if_neg (by simp; omega), ← succ_eq hpow] at hp
      simpa [queueStep, GenericFifo.clock, computeNext, grantO, hcs, hv, hd] using hp
  | MIDDLE =>
    have hne : q.length ≠ 0 := fun h0 => by simpa [hcs] using h.empty_iff.2 h0
    have hroom : q.length < d :=
      lt_of_le_of_ne hle fun hd => by simpa [hcs] using h.full_iff.2 hd
    obtain ⟨x, q, rfl⟩ := List.exists_cons_of_length_pos (Nat.pos_of_ne_zero hne)
    have hroom' : q.length + 1 < d := hroom
    cases hv : i.validI <;> cases hg : i.grantI
    · simpa [queueStep, GenericFifo.clock, computeNext, hcs, hv, hg] using hcs ▸ h
    · have hp := h.pop
      simpa [queueStep, GenericFifo.clock, computeNext, hcs, hv, hg, hpop,
        h.last_iff h2 hroom] using hp
    · have hp := h.push hroom i.dataI
      simpa [queueStep, GenericFifo.clock, computeNext, grantO, hcs, hv, hg, hpush,
        h.lastFree_iff hroom, hroom'] using hp
    · -- a push and a pop: the queue keeps its length
      have hp := (h.push hroom i.dataI).pop
      simpa [queueStep, GenericFifo.clock, computeNext, grantO, hcs, hv, hg, hpush, hpop,
        hroom'] using hp
  | FULL =>
    have hfull : q.length = d := h.full_iff.1 hcs
    cases hg : i.grantI with
    | false =>
      simpa [queueStep, GenericFifo.clock, computeNext, grantO, hcs, hg, hfull] using hcs ▸ h
    | true =>
      obtain ⟨x, q, rfl⟩ := List.exists_cons_of_length_pos (l := q) (by omega)
      have hp := h.pop
      rw [List.length_cons] at hfull
      rw [if_neg (by omega)] at hp
      simpa [queueStep, GenericFifo.clock, computeNext, grantO, hcs, hg, hpop, hfull] using hp

end PowerOfTwo

/-- What a cycle pushes and pops, on the queue. -/
theorem ShowsQueue.transfer {f : GenericFifo α d} {q : List α} {unknown : α}
    (h : f.ShowsQueue unknown q) (i : FifoIn α) :
    q ++ f.pushed i = f.popped unknown i ++ queueStep d q i := by
  rw [pushed, popped, queueStep, h.grantO, h.validO]
  cases q with
  | nil => cases i.grantI <;> simp
  | cons x q =>
    rw [h.dataO x rfl]
    cases i.grantI <;> simp

/-- What goes into a buffer and out of it in a cycle. -/
theorem Represents.transfer {f : GenericFifo α d} {q : List α} (h : f.Represents q) (unknown : α)
    (i : FifoIn α) : q ++ f.pushed i = f.popped unknown i ++ queueStep d q i :=
  (h.showsQueue unknown).transfer i

/-- Every run of a buffer whose depth is a power of two is a run of a queue. -/
theorem Represents.run {f : GenericFifo α d} {q : List α} (h : f.Represents q) (h2 : 2 ≤ d)
    (hpow : d = 2 ^ addrDepth d) (unknown : α) (ins : List (FifoIn α)) :
    ∃ q', (Machine.run GenericFifo.clock f ins).Represents q' ∧
      q ++ Machine.collect GenericFifo.clock pushed f ins =
        Machine.collect GenericFifo.clock (popped unknown) f ins ++ q' :=
  Machine.run_conserves
    (fun _ q i h => ⟨queueStep d q i, h.clock h2 hpow i, h.transfer unknown i⟩) h ins

/-! ## Any other depth -/

section OtherDepth

variable {f : GenericFifo α d}

/-- The cycles that push `x` and pop it again. -/
def pushPop (x : α) : List (FifoIn α) := [⟨x, true, false, false⟩, ⟨x, false, true, false⟩]

/-- An empty buffer with both pointers at `n`, after `x` has been pushed `n` times. -/
structure EmptyAt (x : α) (n : Nat) (f : GenericFifo α d) : Prop where
  state : f.CS = .EMPTY
  pop : f.popPointerCS = n
  push : f.pushPointerCS = n
  first : 0 < n → f.fifoRegisters[0]? = some x

/-- The push pointer after a push at `n`, with a depth that is no power of two. -/
theorem succ_of_lt (hd : d < 2 ^ addrDepth d) {n : Nat} (hn : n < d) : succ d n = n + 1 :=
  Nat.mod_eq_of_lt (by omega)

/-- An empty buffer after the push of a word, the push pointer not on the last register. -/
theorem EmptyAt.clock_push {x : α} {n : Nat} (h : f.EmptyAt x n) (hd : d < 2 ^ addrDepth d)
    (hn : n < d) (w : α) :
    f.clock ⟨w, true, false, false⟩ =
      ⟨.MIDDLE, n, n + 1, f.fifoRegisters.setIfInBounds n w⟩ := by
  simp [clock, computeNext, grantO, h.state, h.pop, h.push, succ_of_lt hd hn]

theorem EmptyAt.run_pushPop {x : α} {n : Nat} (h : f.EmptyAt x n) (hd : d < 2 ^ addrDepth d)
    (hn : n < d) :
    Machine.run clock f (pushPop x) =
      ⟨.EMPTY, wrap d n, n + 1, f.fifoRegisters.setIfInBounds n x⟩ := by
  rw [pushPop, Machine.run_cons, h.clock_push hd hn]
  simp [clock, computeNext]

theorem EmptyAt.first_set {x : α} {n : Nat} (h : f.EmptyAt x n) (hn : n < d) :
    (f.fifoRegisters.setIfInBounds n x)[0]? = some x := by
  rcases Nat.eq_zero_or_pos n with rfl | hpos
  · exact Vector.getElem?_setIfInBounds_self_of_lt hn
  · rw [Vector.getElem?_setIfInBounds_ne (Nat.ne_of_gt hpos)]
    exact h.first hpos

theorem EmptyAt.pushPop {x : α} {n : Nat} (h : f.EmptyAt x n) (hd : d < 2 ^ addrDepth d)
    (hn : n + 1 < d) : (Machine.run clock f (pushPop x)).EmptyAt x (n + 1) := by
  have hwrap : wrap d n = n + 1 := by
    rw [wrap, if_neg (by omega), succ_of_lt hd (by omega)]
  rw [h.run_pushPop hd (by omega), hwrap]
  exact ⟨rfl, rfl, rfl, fun _ => h.first_set (by omega)⟩

/-- The cycles that bring both pointers to the last register. -/
theorem exists_emptyAt_last (hd : d < 2 ^ addrDepth d) (zero x : α) :
    ∀ n < d, ∃ ins, (Machine.run clock (reset zero d) ins).EmptyAt x n
  | 0, _ => ⟨[], rfl, rfl, rfl, fun h => absurd h (Nat.lt_irrefl 0)⟩
  | n + 1, hn => by
    obtain ⟨ins, h⟩ := exists_emptyAt_last hd zero x n (by omega)
    refine ⟨ins ++ pushPop x, ?_⟩
    rw [Machine.run_append]
    exact h.pushPop hd hn

/-- A push with the push pointer beyond the registers writes nothing. -/
theorem clock_lost (cells : Vector α d) (y : α) :
    clock ⟨.EMPTY, 0, d, cells⟩ ⟨y, true, false, false⟩ = ⟨.MIDDLE, 0, succ d d, cells⟩ := by
  have hlost : cells.setIfInBounds d y = cells := Vector.setIfInBounds_eq_of_size_le (Nat.le_refl d)
  simp [clock, computeNext, grantO, hlost]

/-- **`generic_fifo` is a queue exactly if its depth is a power of two.** At every other depth a
word is lost that is pushed when the push pointer has left the registers. -/
theorem refines_queue_iff [Nontrivial α] (h2 : 2 ≤ d) (zero unknown : α) :
    (∀ ins : List (FifoIn α), ∃ q,
        (Machine.run clock (reset zero d) ins).ShowsQueue unknown q ∧
          Machine.collect clock pushed (reset zero d) ins =
            Machine.collect clock (popped unknown) (reset zero d) ins ++ q) ↔
      ∃ k, d = 2 ^ k := by
  constructor
  · intro hqueue
    refine ⟨addrDepth d, ?_⟩
    by_contra hpow
    have hd : d < 2 ^ addrDepth d := lt_of_le_of_ne (Nat.le_pow_clog Nat.one_lt_two d) hpow
    obtain ⟨x, y, hxy⟩ := exists_pair_ne α
    obtain ⟨ins, h⟩ := exists_emptyAt_last hd zero x (d - 1) (by omega)
    have hrun := h.run_pushPop hd (by omega)
    have hfirst := h.first_set (show d - 1 < d by omega)
    rw [wrap, if_pos rfl, Nat.sub_add_cancel (by omega), ← Machine.run_append] at hrun
    -- the buffer is empty, then `y` is pushed: it is the only word, but `x` shows
    obtain ⟨q, hq, heq⟩ := hqueue (ins ++ pushPop x)
    obtain ⟨q', hq', heq'⟩ := hqueue ((ins ++ pushPop x) ++ [⟨y, true, false, false⟩])
    rw [hrun] at hq
    obtain rfl : q = [] := by simpa [validO] using hq.validO
    rw [List.append_nil] at heq
    rw [Machine.run_append, hrun, Machine.run_cons, Machine.run_nil, clock_lost] at hq'
    rw [Machine.collect_append _ _ _ (ins ++ pushPop x),
      Machine.collect_append _ _ _ (ins ++ pushPop x), heq, hrun] at heq'
    obtain rfl : [y] = q' := by
      simpa [Machine.collect, pushed, popped, grantO, validO] using heq'
    exact hxy (by simpa [dataO, hfirst] using hq'.dataO y rfl)
  · rintro ⟨k, rfl⟩ ins
    have hpow : 2 ^ k = 2 ^ addrDepth (2 ^ k) := by rw [addrDepth, Nat.clog_pow _ _ Nat.one_lt_two]
    obtain ⟨q, hq, heq⟩ := (represents_reset (Nat.zero_lt_of_lt h2) zero).run h2 hpow unknown ins
    exact ⟨q, hq.showsQueue unknown, heq⟩

/-- A buffer of three registers is not a queue. -/
theorem not_refines_queue_three : ¬∀ ins : List (FifoIn Bool), ∃ q,
    (Machine.run clock (reset false 3) ins).ShowsQueue false q ∧
      Machine.collect clock pushed (reset false 3) ins =
        Machine.collect clock (popped false) (reset false 3) ins ++ q := by
  intro hqueue
  obtain ⟨k, hk⟩ := (refines_queue_iff (show 2 ≤ 3 by decide) false false).1 hqueue
  rcases k with _ | k
  · cases hk
  · omega

end OtherDepth

end GenericFifo

end ShakeAccel.Axi
