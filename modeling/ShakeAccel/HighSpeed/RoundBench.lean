import Mathlib.Data.List.GetD
import ShakeAccel.Keccak.RoundAgree
import ShakeAccel.LowArea.Bench

/-!
# The testbench of the round (`tb_keccak_permutation.vhd`)

The testbench drives the combinational entities `keccak_round` and `keccak_round_constants_gen`: it
reads the 25 words of a state in one cycle, applies a round in each of the next 24 and writes the
words of the result. The files are those of the testbench of the low-area coprocessor.
-/

namespace ShakeAccel.HighSpeed

open LowArea (Line)

/-- `st_type`. -/
inductive RoundBenchSt where
  | st0 | st1 | STOP
deriving DecidableEq, Repr

/-- The registers of `tbgen` and the lines of the two files: those that are still to be read, those
that are written. -/
structure RoundBench where
  st : RoundBenchSt
  counter : Nat
  roundIn : KState
  filein : List Line
  fileout : List Line

namespace RoundBench

/-- The state that the reset leaves, for a file that is to be read; it leaves `round_in` as it
is. -/
def reset (roundIn : KState) (filein : List Line) : RoundBench where
  st := .st0
  counter := 0
  roundIn
  filein
  fileout := []

/-- The loop that reads `n` words, from the line `lineIn` that is already there; after each word the
next line is read, also after the last one. -/
def readWords : (n : Nat) → (lineIn : Line) → List Line → Option (List Lane × List Line)
  | 0, _, filein => some ([], filein)
  | n + 1, .word temp, lineIn :: filein =>
    (readWords n lineIn filein).map fun r => (temp :: r.1, r.2)
  | _, _, _ => none

/-- The signal `round_out`. -/
def roundOut (b : RoundBench) : KState := keccakRound b.roundIn (keccakRoundConstantsGen b.counter)

/-- The lines of a state, row by row. -/
def linesOf (s : KState) : List Line :=
  (List.range 5).flatMap (fun row => (List.range 5).map fun col => .word (s.lane row col)) ++
    [.dash]

/-- A rising edge. A line that is not there or not of the kind that is read ends the simulation with
an error. -/
def step (b : RoundBench) : Option RoundBench :=
  match b.st with
  | .st0 =>
    match b.filein with
    | [] => none
    | .dot :: rest => some { b with st := .STOP, filein := rest }
    | lineIn :: rest =>
      (readWords 25 lineIn rest).map fun r =>
        { b with
          roundIn := .ofLanes fun row col => r.1.getD (5 * row + col) 0
          counter := 0
          st := .st1
          filein := r.2 }
  | .st1 =>
    if b.counter < 23 then some { b with roundIn := b.roundOut, counter := b.counter + 1 }
    else some { b with st := .st0, fileout := b.fileout ++ linesOf b.roundOut }
  | .STOP => some b

/-- The words of a block, with the line after them. -/
theorem readWords_eq (ws : List Lane) (lineIn : Line) (rest : List Line) :
    ∀ l ls, ws.map Line.word ++ lineIn :: rest = l :: ls →
      readWords ws.length l ls = some (ws, rest) := by
  induction ws with
  | nil =>
    intro l ls h
    rw [List.map_nil, List.nil_append, List.cons.injEq] at h
    rw [h.2]
    rfl
  | cons w ws ih =>
    intro l ls h
    rw [List.map_cons, List.cons_append, List.cons.injEq] at h
    obtain ⟨rfl, h⟩ := h
    cases ls with
    | nil => exact absurd h (by simp)
    | cons l ls =>
      rw [List.length_cons, readWords, ih l ls h]
      rfl

/-- The state whose words a block holds. -/
def stateOf (ws : List Lane) : KState := .ofLanes fun row col => ws.getD (5 * row + col) 0

/-- The rounds. -/
theorem rounds {b : RoundBench} (hst : b.st = .st1) {X : KState} {n : Nat}
    (hX : b.roundIn = applyRounds (23 - n) X) (hc : b.counter + n = 23) :
    ∃ b', Machine.runFor step (n + 1) b = some b' ∧ b'.st = .st0 ∧ b'.filein = b.filein ∧
      b'.fileout = b.fileout ++ linesOf (permute24 X) := by
  have hround : b.roundOut = applyRounds (23 - n + 1) X := by
    rw [roundOut, hX, applyRounds_succ, show b.counter = 23 - n by omega]
  induction n generalizing b with
  | zero =>
    have hstep : b.step = some { b with
        st := .st0, fileout := b.fileout ++ linesOf b.roundOut } := by
      simp only [step, hst, if_neg (show ¬b.counter < 23 by omega)]
    refine ⟨_, Machine.runFor_one hstep, rfl, rfl, ?_⟩
    rw [hround]
    rfl
  | succ n ih =>
    have hstep : b.step = some { b with roundIn := b.roundOut, counter := b.counter + 1 } := by
      simp only [step, hst, if_pos (show b.counter < 23 by omega)]
    have hX' : b.roundOut = applyRounds (23 - n) X := by
      rw [hround, show 23 - (n + 1) + 1 = 23 - n by omega]
    obtain ⟨b', hrun, hst', hin, hout⟩ := ih (b := { b with
      roundIn := b.roundOut, counter := b.counter + 1 }) hst hX' (by simp only; omega) (by
        rw [roundOut, hX', applyRounds_succ]
        simp only
        rw [show b.counter + 1 = 23 - n by omega])
    exact ⟨b', Machine.runFor_succ hstep hrun, hst', hin, hout⟩

/-- The words of a state that is read from a block. -/
theorem toWords_stateOf {ws : List Lane} (hws : ws.length = 25) (A : State) :
    (stateOf ws).toWords = LowArea.Bench.overwrite A ws := by
  apply Vec.ext_getD 0
  intro k hk
  rw [Vec.getD_of_lt _ _ hk, Vec.getD_of_lt _ _ hk, KState.getElem_toWords _ hk, stateOf,
    KState.lane_ofLanes (by omega) (Nat.mod_lt k (by decide)), Nat.div_add_mod,
    LowArea.Bench.overwrite, Vector.getElem_ofFn, List.getD_eq_getElem _ _ (by omega),
    List.getD_eq_getElem _ _ (by omega)]

/-- The lines of a state are those of its words. -/
theorem linesOf_eq (s : KState) : linesOf s = LowArea.Bench.linesOf s.toWords := by
  have hword : ∀ row < 5, ∀ col < 5, s.lane row col = s.toWords.getD (5 * row + col) 0 := by
    intro row hrow col hcol
    rw [Vec.getD_of_lt _ _ (by omega), KState.getElem_toWords _ (by omega),
      show (5 * row + col) / 5 = row by omega, show (5 * row + col) % 5 = col by omega]
  have hlines : (List.range 5).flatMap (fun row => (List.range 5).map fun col =>
        Line.word (s.lane row col)) =
      (List.range 5).flatMap fun row => (List.range 5).map fun col =>
        Line.word (s.toWords.getD (5 * row + col) 0) :=
    List.flatMap_congr fun row hrow => List.map_congr_left fun col hcol => by
      rw [hword row (List.mem_range.1 hrow) col (List.mem_range.1 hcol)]
  rw [linesOf, hlines]
  rfl

/-- A block: its state is permuted and written. -/
theorem block {b : RoundBench} (hst : b.st = .st0) {ws : List Lane} (hws : ws.length = 25)
    {rest : List Line} (hf : b.filein = ws.map Line.word ++ .dash :: rest) (A : State) :
    ∃ b', Machine.runFor step 25 b = some b' ∧ b'.st = .st0 ∧ b'.filein = rest ∧
      b'.fileout = b.fileout ++ LowArea.Bench.linesOf
        (keccakF1600StatePermute (LowArea.Bench.overwrite A ws)) := by
  have hstep : b.step = some { b with
      roundIn := stateOf ws, counter := 0, st := .st1, filein := rest } := by
    obtain ⟨w, ws', rfl⟩ := List.exists_cons_of_length_eq_add_one hws
    have hread := readWords_eq (w :: ws') .dash rest (.word w) (ws'.map Line.word ++ .dash :: rest)
      rfl
    rw [hws] at hread
    simp only [step, hst, hf, List.map_cons, List.cons_append, hread, Option.map_some, stateOf]
  obtain ⟨b', hrun, hst', hin, hout⟩ := rounds (b := { b with
    roundIn := stateOf ws, counter := 0, st := .st1, filein := rest }) rfl (X := stateOf ws)
    (n := 23) rfl rfl
  refine ⟨b', Machine.runFor_succ hstep hrun, hst', hin, ?_⟩
  rw [hout, linesOf_eq, permute24_toWords, toWords_stateOf hws A]

/-- The blocks of a file. -/
theorem blocks {b : RoundBench} (hst : b.st = .st0) {blocks : List (List Lane)}
    (hlen : ∀ ws ∈ blocks, ws.length = 25) (hf : b.filein = LowArea.Bench.inputOf blocks)
    (A : State) :
    ∃ b', Machine.runFor step (25 * blocks.length + 1) b = some b' ∧ b'.st = .STOP ∧
      b'.filein = [] ∧ b'.fileout = b.fileout ++ LowArea.Bench.expected A blocks := by
  induction blocks generalizing b A with
  | nil =>
    have hstep : b.step = some { b with st := .STOP, filein := [] } := by
      simp only [step, hst, hf, LowArea.Bench.inputOf, List.flatMap_nil, List.nil_append]
    exact ⟨_, Machine.runFor_one hstep, rfl, rfl, (List.append_nil b.fileout).symm⟩
  | cons ws blocks ih =>
    have hf' : b.filein = ws.map Line.word ++ .dash :: LowArea.Bench.inputOf blocks := by
      rw [hf, LowArea.Bench.inputOf, List.flatMap_cons, List.append_assoc, List.append_assoc]
      rfl
    obtain ⟨b₁, hrun₁, h₁, hin₁, hout₁⟩ := block hst (hlen ws (.head _)) hf' A
    obtain ⟨b', hrun, hst', hfin, hout⟩ := ih h₁ (fun ws h => hlen ws (.tail _ h)) hin₁
      (keccakF1600StatePermute (LowArea.Bench.overwrite A ws))
    refine ⟨b', ?_, hst', hfin, ?_⟩
    · rw [List.length_cons, show 25 * (blocks.length + 1) + 1 = 25 + (25 * blocks.length + 1) by
        omega]
      exact Machine.runFor_trans hrun₁ hrun
    · rw [hout, hout₁, List.append_assoc]
      rfl

/-- **The testbench of the round.** For a file of any number of states the simulation ends after 25
cycles for each of them and one more, and the second file holds their permutations: it is the file
that the testbench of the low-area coprocessor writes. -/
theorem round_testbench (roundIn : KState) (states : List (List Lane))
    (hlen : ∀ ws ∈ states, ws.length = 25) :
    ∃ b', Machine.runFor step (25 * states.length + 1)
        (reset roundIn (LowArea.Bench.inputOf states)) = some b' ∧
      b'.st = .STOP ∧ b'.filein = [] ∧
      b'.fileout = LowArea.Bench.expected (.replicate 25 0) states :=
  blocks rfl hlen rfl _

/-- Two states. -/
theorem round_testbench_two :
    let states := [List.replicate 25 1, List.replicate 25 2]
    ∃ b', Machine.runFor step (25 * states.length + 1)
        (reset .zero (LowArea.Bench.inputOf states)) = some b' ∧
      b'.st = .STOP ∧ b'.filein = [] ∧
      b'.fileout = LowArea.Bench.expected (.replicate 25 0) states :=
  round_testbench .zero _ (by decide)

end RoundBench

end ShakeAccel.HighSpeed
