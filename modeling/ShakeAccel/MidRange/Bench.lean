import Mathlib.Data.List.GetD
import ShakeAccel.Lib.Sponge
import ShakeAccel.MidRange.Permutation
import ShakeAccel.MidRange.Ring

/-!
# The testbench of the mid-range core (`tb_keccak.vhd` of `mid_range_core`)

The testbench reads the padded messages of a file block by block, hashes them and writes 256 bits of
output for each. It keeps the last word of a block on `din` for one cycle more, which is the turn of
the ring that the seventeenth place needs.
-/

namespace ShakeAccel.MidRange

/-- `st_type`. -/
inductive BenchSt where
  | initial | readFirstInput | st0 | st1 | st1a | END_HASH1 | END_HASH2 | STOP
deriving DecidableEq, Repr

/-- The lines of the files: the number of tests, a word in hexadecimal digits, and the lines that
begin with `-` and `.`. -/
inductive Line where
  | number (numTest : Nat)
  | word (temp : Lane)
  | dash
  | dot
deriving DecidableEq

/-- The registers and variables of `p_main`, the core and the lines of the two files: those that are
still to be read, those that are written. -/
structure Bench where
  st : BenchSt
  counter : Nat
  init : Bool
  go : Bool
  absorb : Bool
  squeeze : Bool
  din : Lane
  core : Core
  filein : List Line
  fileout : List Line
deriving DecidableEq

namespace Bench

/-- The state that the reset leaves, for a file that is to be read. -/
def reset (core : Core) (filein : List Line) : Bench where
  st := .initial
  counter := 0
  init := false
  go := false
  absorb := false
  squeeze := false
  din := 0
  core := core.reset
  filein
  fileout := []

/-- What the testbench drives on the ports of the core. -/
def toCore (b : Bench) : CoreIn := ⟨b.init, b.go, b.absorb, b.squeeze, b.din⟩

/-- A rising edge. A line that is not there or not of the kind that is read ends the simulation with
an error. -/
def step (b : Bench) : Option Bench :=
  let b' := { b with core := b.core.step b.toCore }
  match b.st with
  | .initial =>
    match b.filein with
    | .number _ :: rest => some { b' with st := .readFirstInput, init := true, filein := rest }
    | _ => none
  | .readFirstInput =>
    let b' := { b' with init := false }
    match b.filein with
    | .dot :: rest => some { b' with st := .STOP, filein := rest }
    | .dash :: rest => some { b' with st := .END_HASH1, filein := rest }
    | .word temp :: rest =>
      some { b' with din := temp, absorb := true, st := .st0, counter := 0, filein := rest }
    | _ => none
  | .st0 =>
    if b.counter < 16 then
      if b.counter < 15 then
        match b.filein with
        | .word temp :: rest =>
          some { b' with din := temp, absorb := true, counter := b.counter + 1, filein := rest }
        | _ => none
      else some { b' with counter := b.counter + 1 }
    else some { b' with st := .st1, absorb := false, go := true }
  | .st1 => some { b' with go := false, st := .st1a }
  | .st1a =>
    if !b.core.ready then some { b' with st := .st1 } else some { b' with st := .readFirstInput }
  | .END_HASH1 =>
    if !b.core.ready then some b'
    else some { b' with squeeze := true, st := .END_HASH2, counter := 0 }
  | .END_HASH2 =>
    let b' := { b' with squeeze := true, fileout := b.fileout ++ [Line.word b.core.dout] }
    if b.counter < 3 then some { b' with counter := b.counter + 1 }
    else
      some { b' with squeeze := false, init := true, st := .readFirstInput,
                     fileout := b.fileout ++ [Line.word b.core.dout, .dash] }
  | .STOP => some b'

/-! ## What the testbench is for -/

/-- A block of 1024 bits is XORed into the first sixteen words. -/
def xorBlock (A : State) (ws : List Lane) : State :=
  .ofFn fun k => A.getD k 0 ^^^ if k.val < 16 then ws.getD k 0 else 0

/-- The sponge of rate 1024 on the blocks of a padded message. -/
def sponge (blocks : List (List Lane)) : State :=
  Sponge.absorb keccakF1600StatePermute xorBlock (.replicate 25 0) blocks

/-- The lines of the first file for a message. -/
def linesOf (blocks : List (List Lane)) : List Line := blocks.flatten.map Line.word ++ [.dash]

/-- The lines of the first file. -/
def inputOf (numTest : Nat) (messages : List (List (List Lane))) : List Line :=
  .number numTest :: messages.flatMap linesOf ++ [.dot]

/-- The lines of the second file for a message: the first four words of the sponge. -/
def hashLines (blocks : List (List Lane)) : List Line :=
  (List.range 4).map (fun k => Line.word ((sponge blocks).getD k 0)) ++ [.dash]

/-- The cycles for a message. -/
def cycles (blocks : List (List Lane)) : Nat := 844 * blocks.length + 6

/-! ## A block -/

theorem getD_xorBlock (A : State) (ws : List Lane) {k : Nat} (hk : k < 25) :
    (xorBlock A ws).getD k 0 = A.getD k 0 ^^^ if k < 16 then ws.getD k 0 else 0 := by
  rw [Vec.getD_of_lt _ _ hk, xorBlock, Vector.getElem_ofFn]

/-- The core rests on a state. -/
def Resting (A : State) (c : Core) : Prop := c.permutationComputed = true ∧ c.regData.toWords = A

/-- A quiet cycle of a resting core. -/
theorem Resting.step {A : State} {c : Core} (h : Resting A c) {i : CoreIn} (hi : i.Quiet) :
    Resting A (c.step i) := by
  obtain ⟨h1, h2, h3, h4⟩ := hi
  simp only [Core.step, h1, h2, h3, h4, h.1, Bool.or_self, Bool.not_true, Bool.false_eq_true,
    if_false]
  exact ⟨rfl, h.2⟩

/-- The testbench is about to read the first line of a block or of the end of a message; the core
rests on `A`, or will rest on zero after its `init`. -/
structure Between (A : State) (b : Bench) : Prop where
  st : b.st = .readFirstInput
  go : b.go = false
  absorb : b.absorb = false
  squeeze : b.squeeze = false
  core : Resting A (b.core.step b.toCore)

/-- The words after the first of a block. The core takes the word before with each, and the last one
twice more. -/
theorem words {b : Bench} (hst : b.st = .st0) (habs : b.absorb = true) {ws : List Lane}
    (hc : b.counter + ws.length = 15) {rest : List Line}
    (hf : b.filein = ws.map Line.word ++ rest) :
    ∃ b', Machine.runFor step (ws.length + 2) b = some b' ∧ b'.st = .st1 ∧ b'.init = b.init ∧
      b'.go = true ∧ b'.absorb = false ∧ b'.squeeze = b.squeeze ∧ b'.filein = rest ∧
      b'.fileout = b.fileout ∧
      b'.core = Machine.run Core.step b.core
        ((b.din :: ws ++ [(b.din :: ws).getLast (List.cons_ne_nil _ _)]).map
          fun d => ⟨b.init, b.go, true, b.squeeze, d⟩) := by
  induction ws generalizing b with
  | nil =>
    obtain ⟨st, c, i, g, a, s, d, core, fin, fout⟩ := b
    simp only [List.length_nil, Nat.add_zero] at hst habs hc hf
    subst hst habs hc hf
    exact ⟨_, Machine.runFor_succ rfl (Machine.runFor_one rfl), rfl, rfl, rfl, rfl, rfl, rfl, rfl,
      rfl⟩
  | cons w ws ih =>
    obtain ⟨st, c, i, g, a, s, d, core, fin, fout⟩ := b
    rw [List.length_cons] at hc ⊢
    simp only at hst habs hc hf
    subst hst habs hf
    have hstep : step ⟨.st0, c, i, g, true, s, d, core, (w :: ws).map Line.word ++ rest, fout⟩ =
        some ⟨.st0, c + 1, i, g, true, s, w, core.step ⟨i, g, true, s, d⟩,
          ws.map Line.word ++ rest, fout⟩ := by
      simp only [step, if_pos (show c < 16 by omega), if_pos (show c < 15 by omega)]
      rfl
    obtain ⟨b', hrun, h1, h2, h3, h4, h5, h6, h7, h8⟩ :=
      ih (b := ⟨.st0, c + 1, i, g, true, s, w, core.step ⟨i, g, true, s, d⟩,
        ws.map Line.word ++ rest, fout⟩) rfl rfl (show c + 1 + ws.length = 15 by omega) rfl
    refine ⟨b', Machine.runFor_succ hstep hrun, h1, h2, h3, h4, h5, h6, h7, ?_⟩
    rw [h8, List.getLast_cons (List.cons_ne_nil w ws)]
    rfl

/-- The words of a block in the ring. -/
theorem Resting.absorb {A : State} {c : Core} (h : Resting A c) {ws : List Lane}
    (hws : ws.length = 16) (hne : ws ≠ []) :
    Resting (xorBlock A ws) (Machine.run Core.step c
      ((ws ++ [ws.getLast hne]).map fun d => ⟨false, false, true, false, d⟩)) := by
  have hi : ∀ i ∈ (ws ++ [ws.getLast hne]).map fun d => (⟨false, false, true, false, d⟩ : CoreIn),
      i.Turns := by
    intro i hi
    obtain ⟨d, -, rfl⟩ := List.mem_map.1 hi
    exact ⟨rfl, rfl, rfl⟩
  have hlen : ((ws ++ [ws.getLast hne]).map fun d =>
      (⟨false, false, true, false, d⟩ : CoreIn)).length = 17 := by
    rw [List.length_map, List.length_append, hws, List.length_singleton]
  have hword : ((ws ++ [ws.getLast hne]).map fun d => (⟨false, false, true, false, d⟩ : CoreIn)).map
      CoreIn.word = ws ++ [ws.getLast hne] := by
    rw [List.map_map]
    exact List.map_id _
  refine ⟨(Core.rest_run c hi).2.2.2.1.trans h.1, Vec.ext_getD 0 fun k hk => ?_⟩
  have hy : k / 5 < 5 := by omega
  have hx := Nat.mod_lt k (show 0 < 5 by decide)
  have hlane := Core.lane_run c hi hlen hy hx
  have hA : c.regData.lane (k / 5) (k % 5) = A.getD k 0 := by
    rw [← h.2, Vec.getD_of_lt _ _ hk, KState.getElem_toWords _ hk]
  have hlast : (ws ++ [ws.getLast hne]).getD 16 0 = ws.getD 15 0 := by
    rw [List.getD_eq_getElem?_getD, List.getElem?_append_right (by omega), hws,
      List.getLast_eq_getElem, List.getD_eq_getElem ws 0 (by omega : 15 < ws.length)]
    simp only [hws, Nat.sub_self, List.getElem?_cons_zero, Option.getD_some, Nat.add_one_sub_one]
  rw [hword, Nat.div_add_mod, hA] at hlane
  rw [Vec.getD_of_lt _ _ hk, KState.getElem_toWords _ hk, hlane, getD_xorBlock A ws hk]
  by_cases hlt : k < 15
  · rw [if_pos hlt, if_pos (by omega), List.getD_append _ _ _ _ (by omega)]
  · by_cases heq : k = 15
    · subst heq
      rw [if_neg (by decide), if_pos rfl, if_pos (by decide), hlast]
    · rw [if_neg hlt, if_neg heq, if_neg (by omega)]

/-- The core while the testbench polls it, `t` quiet cycles after `go`. -/
structure Polling (S : KState) (t : Nat) (b : Bench) : Prop where
  st : b.st = if t % 2 = 0 then .st1a else .st1
  quiet : b.toCore.Quiet
  core : At S t b.core

/-- A cycle of polling. -/
theorem Polling.step {S : KState} {t : Nat} {b : Bench} (h : Polling S t b) (ht : t < 824) :
    ∃ b', b.step = some b' ∧ Polling S (t + 1) b' ∧ b'.filein = b.filein ∧
      b'.fileout = b.fileout := by
  have hready : b.core.ready = false := by
    rw [← Bool.not_eq_true, h.core.ready (by omega)]
    omega
  have hcore := h.core.step ht h.quiet
  obtain ⟨st, c, i, g, a, s, d, core, fin, fout⟩ := b
  obtain ⟨hst, hquiet, -⟩ := h
  obtain ⟨h1, h2, h3, h4⟩ := hquiet
  simp only [toCore] at h1 h2 h3 h4 hst
  subst h1 h2 h3 h4 hst
  by_cases hev : t % 2 = 0
  · have hst : (if (t + 1) % 2 = 0 then BenchSt.st1a else .st1) = .st1 := if_neg (by omega)
    simp only [Bench.step, if_pos hev, hready, Bool.not_false, if_true]
    exact ⟨_, rfl, ⟨hst.symm, ⟨rfl, rfl, rfl, rfl⟩, hcore⟩, rfl, rfl⟩
  · have hst : (if (t + 1) % 2 = 0 then BenchSt.st1a else .st1) = .st1a := if_pos (by omega)
    simp only [Bench.step, if_neg hev]
    exact ⟨_, rfl, ⟨hst.symm, ⟨rfl, rfl, rfl, rfl⟩, hcore⟩, rfl, rfl⟩

/-- The cycles of polling. -/
theorem Polling.run {S : KState} {b : Bench} (h : Polling S 0 b) {n : Nat} (hn : n ≤ 824) :
    ∃ b', Machine.runFor Bench.step n b = some b' ∧ Polling S n b' ∧ b'.filein = b.filein ∧
      b'.fileout = b.fileout := by
  induction n with
  | zero => exact ⟨b, rfl, h, rfl, rfl⟩
  | succ n ih =>
    obtain ⟨b₁, hrun, h₁, hf₁, ho₁⟩ := ih (by omega)
    obtain ⟨b', hstep, h', hf', ho'⟩ := h₁.step (by omega)
    exact ⟨b', Machine.runFor_trans hrun (Machine.runFor_one hstep), h', hf'.trans hf₁,
      ho'.trans ho₁⟩

/-- The end of polling. -/
theorem Polling.last {S : KState} {b : Bench} (h : Polling S 824 b) :
    ∃ b', b.step = some b' ∧ Between (keccakF1600StatePermute S.toWords) b' ∧
      b'.filein = b.filein ∧ b'.fileout = b.fileout := by
  have hready : b.core.ready = true := (h.core.ready (Nat.le_refl _)).2 rfl
  have hrest : Resting (keccakF1600StatePermute S.toWords) b.core := by
    have := h.core
    rw [At, if_neg (by decide), if_neg (by decide)] at this
    exact ⟨this.1, by rw [this.2, permute24_toWords]⟩
  have hcore := hrest.step h.quiet
  obtain ⟨st, c, i, g, a, s, d, core, fin, fout⟩ := b
  obtain ⟨hst, hquiet, -⟩ := h
  obtain ⟨h1, h2, h3, h4⟩ := hquiet
  simp only [toCore] at h1 h2 h3 h4 hst
  subst h1 h2 h3 h4 hst
  simp only [Bench.step, hready, Bool.not_true, Bool.false_eq_true, if_false]
  exact ⟨_, rfl, ⟨rfl, rfl, rfl, rfl, hcore.step ⟨rfl, rfl, rfl, rfl⟩⟩, rfl, rfl⟩

/-- A block: its words are absorbed. -/
theorem Between.block {A : State} {b : Bench} (h : Between A b) {ws : List Lane}
    (hws : ws.length = 16) {rest : List Line} (hf : b.filein = ws.map Line.word ++ rest) :
    ∃ b', Machine.runFor step 844 b = some b' ∧
      Between (keccakF1600StatePermute (xorBlock A ws)) b' ∧ b'.filein = rest ∧
      b'.fileout = b.fileout := by
  obtain ⟨w, ws, rfl⟩ : ∃ w ws', ws = w :: ws' := List.exists_cons_of_length_pos (by omega)
  obtain ⟨st, c, i, g, a, s, d, core, fin, fout⟩ := b
  obtain ⟨hst, hgo, habs, hsq, hcore⟩ := h
  simp only at hst hgo habs hsq hf
  subst hst hgo habs hsq hf
  rw [List.length_cons] at hws
  have hstep : step ⟨.readFirstInput, c, i, false, false, false, d, core,
      (w :: ws).map Line.word ++ rest, fout⟩ =
      some ⟨.st0, 0, false, false, true, false, w, core.step ⟨i, false, false, false, d⟩,
        ws.map Line.word ++ rest, fout⟩ := rfl
  obtain ⟨b₂, hrun₂, hst₂, hi₂, hg₂, ha₂, hs₂, hf₂, ho₂, hc₂⟩ :=
    words (b := ⟨.st0, 0, false, false, true, false, w, core.step ⟨i, false, false, false, d⟩,
      ws.map Line.word ++ rest, fout⟩) rfl rfl (show 0 + ws.length = 15 by omega) rfl
  have hrest : Resting (xorBlock A (w :: ws)) b₂.core := by
    rw [hc₂]
    exact hcore.absorb (show (w :: ws).length = 16 by rw [List.length_cons]; omega)
      (List.cons_ne_nil w ws)
  have hgo₂ := at_go b₂.core (i := b₂.toCore) hi₂ hg₂
  obtain ⟨b₃, hstep₃, hpoll, hf₃, ho₃⟩ : ∃ b₃, b₂.step = some b₃ ∧
      Polling b₂.core.regData 0 b₃ ∧ b₃.filein = b₂.filein ∧ b₃.fileout = b₂.fileout := by
    refine ⟨{ b₂ with core := b₂.core.step b₂.toCore, go := false, st := .st1a }, ?_,
      ⟨rfl, ⟨hi₂, rfl, ha₂, hs₂⟩, hgo₂⟩, rfl, rfl⟩
    simp only [step, hst₂]
  obtain ⟨b₄, hrun₄, h₄, hf₄, ho₄⟩ := hpoll.run (Nat.le_refl 824)
  obtain ⟨b₅, hstep₅, h₅, hf₅, ho₅⟩ := h₄.last
  have hrun := Machine.runFor_succ hstep (Machine.runFor_trans hrun₂
    (Machine.runFor_succ hstep₃ (Machine.runFor_trans hrun₄ (Machine.runFor_one hstep₅))))
  rw [show ws.length + 2 + (824 + 1 + 1) + 1 = 844 by omega] at hrun
  rw [hrest.2] at h₅
  exact ⟨b₅, hrun, h₅, by rw [hf₅, hf₄, hf₃, hf₂], by rw [ho₅, ho₄, ho₃, ho₂]⟩

/-- The blocks of a message. -/
theorem Between.blocks {A : State} {b : Bench} (h : Between A b) {blocks : List (List Lane)}
    (hlen : ∀ ws ∈ blocks, ws.length = 16) {rest : List Line}
    (hf : b.filein = blocks.flatten.map Line.word ++ rest) :
    ∃ b', Machine.runFor step (844 * blocks.length) b = some b' ∧
      Between (Sponge.absorb keccakF1600StatePermute xorBlock A blocks) b' ∧ b'.filein = rest ∧
      b'.fileout = b.fileout := by
  induction blocks generalizing A b with
  | nil => exact ⟨b, rfl, h, hf, rfl⟩
  | cons ws blocks ih =>
    rw [List.flatten_cons, List.map_append, List.append_assoc] at hf
    obtain ⟨b₁, hrun₁, h₁, hf₁, ho₁⟩ := h.block (hlen ws (.head _)) hf
    obtain ⟨b', hrun, h', hf', ho'⟩ := ih h₁ (fun ws hw => hlen ws (.tail _ hw)) hf₁
    rw [List.length_cons, Nat.mul_succ, Nat.add_comm]
    exact ⟨b', Machine.runFor_trans hrun₁ hrun, h', hf', ho'.trans ho₁⟩

/-! ## The output -/

/-- The testbench writes the output and has written `n` words of it; the core was resting on `A`
before. -/
structure Writing (A : State) (n : Nat) (b : Bench) : Prop where
  st : b.st = .END_HASH2
  counter : b.counter = n
  squeezing : b.toCore = ⟨false, false, false, true, b.din⟩
  core : ∃ c ins, Resting A c ∧ b.core = Machine.run Core.step c ins ∧ ins.length = n ∧
    ∀ i ∈ ins, i.Turns

/-- The word that is written. -/
theorem Writing.dout {A : State} {n : Nat} {b : Bench} (h : Writing A n b) (hn : n < 5) :
    b.core.dout = A.getD n 0 := by
  obtain ⟨c, ins, hc, hcore, hlen, hi⟩ := h.core
  rw [hcore, Core.dout_run c hi (by omega), hlen, ← hc.2, Vec.getD_of_lt _ _ (by omega),
    KState.getElem_toWords _ (by omega)]

/-- A word of the output but the last. -/
theorem Writing.step {A : State} {n : Nat} {b : Bench} (h : Writing A n b) (hn : n < 3) :
    ∃ b', b.step = some b' ∧ Writing A (n + 1) b' ∧ b'.filein = b.filein ∧
      b'.fileout = b.fileout ++ [.word (A.getD n 0)] := by
  have hdout := h.dout (by omega)
  obtain ⟨st, cnt, i, g, a, s, d, core, fin, fout⟩ := b
  obtain ⟨hst, hc, hsq, c, ins, hrest, hcore, hlen, hi⟩ := h
  simp only [toCore, CoreIn.mk.injEq] at hst hc hsq hcore
  obtain ⟨rfl, rfl, rfl, rfl, -⟩ := hsq
  subst hst hc
  simp only [Bench.step, if_pos hn, hdout]
  refine ⟨_, rfl, ⟨rfl, rfl, rfl, c, ins ++ [⟨false, false, false, true, d⟩], hrest, ?_, ?_, ?_⟩,
    rfl, rfl⟩
  · rw [Machine.run_append, ← hcore]
    rfl
  · rw [List.length_append, hlen, List.length_singleton]
  · intro i hmem
    rcases List.mem_append.1 hmem with hmem | hmem
    · exact hi i hmem
    · obtain rfl := List.mem_singleton.1 hmem
      exact ⟨rfl, rfl, rfl⟩

/-- `init` leaves the core resting on zero. -/
theorem resting_init (c : Core) {i : CoreIn} (hi : i.init = true) :
    Resting (.replicate 25 0) (c.step i) := by
  simp only [Core.step, hi, if_true]
  refine ⟨rfl, Vec.ext_getD 0 fun k hk => ?_⟩
  rw [Vec.getD_of_lt _ _ hk, KState.getElem_toWords _ hk, KState.zero,
    KState.lane_ofLanes (by omega) (Nat.mod_lt k (by decide)), Vec.getD_replicate _ _ hk]

/-- The last word of the output, and the `init` for the next message. -/
theorem Writing.last {A : State} {b : Bench} (h : Writing A 3 b) :
    ∃ b', b.step = some b' ∧ Between (.replicate 25 0) b' ∧ b'.filein = b.filein ∧
      b'.fileout = b.fileout ++ [.word (A.getD 3 0), .dash] := by
  have hdout := h.dout (by decide)
  obtain ⟨st, cnt, i, g, a, s, d, core, fin, fout⟩ := b
  obtain ⟨hst, hc, hsq, -⟩ := h
  simp only [toCore, CoreIn.mk.injEq] at hst hc hsq
  obtain ⟨rfl, rfl, rfl, rfl, -⟩ := hsq
  subst hst hc
  simp only [Bench.step, if_neg (Nat.lt_irrefl 3), hdout]
  exact ⟨_, rfl, ⟨rfl, rfl, rfl, rfl, resting_init _ rfl⟩, rfl, rfl⟩

/-- The end of a message: its output is written. -/
theorem Between.hash {A : State} {b : Bench} (h : Between A b) {rest : List Line}
    (hf : b.filein = .dash :: rest) :
    ∃ b', Machine.runFor step 6 b = some b' ∧ Between (.replicate 25 0) b' ∧ b'.filein = rest ∧
      b'.fileout = b.fileout ++ ((List.range 4).map (fun k => .word (A.getD k 0)) ++ [.dash]) := by
  obtain ⟨st, c, i, g, a, s, d, core, fin, fout⟩ := b
  obtain ⟨hst, hgo, habs, hsq, hcore⟩ := h
  simp only at hst hgo habs hsq hf
  subst hst hgo habs hsq hf
  have hstep : step ⟨.readFirstInput, c, i, false, false, false, d, core, .dash :: rest, fout⟩ =
      some ⟨.END_HASH1, c, false, false, false, false, d, core.step ⟨i, false, false, false, d⟩,
        rest, fout⟩ := rfl
  have hready : (core.step ⟨i, false, false, false, d⟩).ready = true := hcore.1
  have hrest := hcore.step (i := ⟨false, false, false, false, d⟩) ⟨rfl, rfl, rfl, rfl⟩
  simp only [toCore] at hrest
  generalize core.step ⟨i, false, false, false, d⟩ = core₁ at hstep hready hrest
  have hstep₁ : step ⟨.END_HASH1, c, false, false, false, false, d, core₁, rest, fout⟩ =
      some ⟨.END_HASH2, 0, false, false, false, true, d, core₁.step ⟨false, false, false, false, d⟩,
        rest, fout⟩ := by
    simp only [step, hready, Bool.not_true, Bool.false_eq_true, if_false, toCore]
  have h₀ : Writing A 0 ⟨.END_HASH2, 0, false, false, false, true, d,
      core₁.step ⟨false, false, false, false, d⟩, rest, fout⟩ :=
    ⟨rfl, rfl, rfl, _, [], hrest, rfl, rfl, fun _ h => absurd h List.not_mem_nil⟩
  obtain ⟨b₁, hs₁, h₁, hf₁, ho₁⟩ := h₀.step (by decide)
  obtain ⟨b₂, hs₂, h₂, hf₂, ho₂⟩ := h₁.step (by decide)
  obtain ⟨b₃, hs₃, h₃, hf₃, ho₃⟩ := h₂.step (by decide)
  obtain ⟨b₄, hs₄, h₄, hf₄, ho₄⟩ := h₃.last
  refine ⟨b₄, Machine.runFor_succ hstep (Machine.runFor_succ hstep₁ (Machine.runFor_succ hs₁
    (Machine.runFor_succ hs₂ (Machine.runFor_succ hs₃ (Machine.runFor_one hs₄))))), h₄,
    by rw [hf₄, hf₃, hf₂, hf₁], ?_⟩
  rw [ho₄, ho₃, ho₂, ho₁, List.append_assoc, List.append_assoc, List.append_assoc]
  rfl

/-! ## The run -/

/-- The messages of a file. -/
theorem Between.messages {b : Bench} (h : Between (.replicate 25 0) b)
    {messages : List (List (List Lane))} (hlen : ∀ m ∈ messages, ∀ ws ∈ m, ws.length = 16)
    (hf : b.filein = messages.flatMap linesOf ++ [.dot]) :
    ∃ b', Machine.runFor step ((messages.map cycles).sum + 1) b = some b' ∧ b'.st = .STOP ∧
      b'.filein = [] ∧ b'.fileout = b.fileout ++ messages.flatMap hashLines := by
  induction messages generalizing b with
  | nil =>
    obtain ⟨st, c, i, g, a, s, d, core, fin, fout⟩ := b
    obtain ⟨hst, -⟩ := h
    simp only at hst hf
    subst hst hf
    exact ⟨_, Machine.runFor_one rfl, rfl, rfl, (List.append_nil fout).symm⟩
  | cons m messages ih =>
    have hf' : b.filein = m.flatten.map Line.word ++
        (.dash :: (messages.flatMap linesOf ++ [.dot])) := by
      rw [hf, List.flatMap_cons, linesOf, List.append_assoc, List.append_assoc]
      rfl
    obtain ⟨b₁, hrun₁, h₁, hf₁, ho₁⟩ := h.blocks (hlen m (.head _)) hf'
    obtain ⟨b₂, hrun₂, h₂, hf₂, ho₂⟩ := h₁.hash hf₁
    obtain ⟨b', hrun, hst, hfin, hout⟩ := ih h₂ (fun m hm => hlen m (.tail _ hm)) hf₂
    refine ⟨b', ?_, hst, hfin, ?_⟩
    · rw [List.map_cons, List.sum_cons, Nat.add_assoc]
      exact Machine.runFor_trans (Machine.runFor_trans hrun₁ hrun₂) hrun
    · rw [hout, ho₂, ho₁, List.flatMap_cons, List.append_assoc]
      rfl

/-- The first edge reads the number of tests. -/
theorem reset_step (core : Core) (numTest : Nat) (messages : List (List (List Lane))) :
    ∃ b, (reset core (inputOf numTest messages)).step = some b ∧ Between (.replicate 25 0) b ∧
      b.filein = messages.flatMap linesOf ++ [.dot] ∧ b.fileout = [] :=
  ⟨_, rfl, ⟨rfl, rfl, rfl, rfl, resting_init _ rfl⟩, rfl, rfl⟩

/-- **The testbench hashes.** For a file with any number of messages of any number of blocks of
sixteen words, the simulation ends after `844` cycles for each block, six for each message and two
more, and the second file holds the first four words of the sponge of each message. -/
theorem testbench_hashes (core : Core) (numTest : Nat) (messages : List (List (List Lane)))
    (hlen : ∀ m ∈ messages, ∀ ws ∈ m, ws.length = 16) :
    ∃ b', Machine.runFor step ((messages.map cycles).sum + 2)
        (reset core (inputOf numTest messages)) = some b' ∧
      b'.st = .STOP ∧ b'.filein = [] ∧ b'.fileout = messages.flatMap hashLines := by
  obtain ⟨b, hstep, h, hin, hout⟩ := reset_step core numTest messages
  obtain ⟨b', hrun, hst, hfin, hout'⟩ := h.messages hlen hin
  exact ⟨b', Machine.runFor_succ hstep hrun, hst, hfin, by rw [hout', hout, List.nil_append]⟩

/-- A message of two blocks and an empty one. -/
theorem testbench_hashes_two :
    let messages : List (List (List Lane)) := [[List.replicate 16 1, List.replicate 16 2], []]
    let core : Core := ⟨.zero, 0b10110, 7, 19, false, false, false, 3⟩
    ∃ b', Machine.runFor step ((messages.map cycles).sum + 2)
        (reset core (inputOf 2 messages)) = some b' ∧
      b'.st = .STOP ∧ b'.filein = [] ∧ b'.fileout = messages.flatMap hashLines :=
  testbench_hashes _ _ _ (by decide)

end Bench

end ShakeAccel.MidRange
