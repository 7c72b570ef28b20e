import ShakeAccel.LowArea.Permutation

/-!
# The testbench of the low-area coprocessor (`tb_keccak_copro.vhd`)

The testbench loads the words of a state from a file, hands the memory to the coprocessor until it
is done and writes the 25 words of the state to a second file, again for every state of the file.
A signal that the reset leaves undefined is not `'1'`.
-/

namespace ShakeAccel.LowArea

/-- `st_type`. -/
inductive BenchSt where
  | st0 | st1 | st2 | st3 | st4 | STOP
deriving DecidableEq, Repr

/-- The lines of the files: a word in hexadecimal digits, and the lines that begin with `-` and
`.`. -/
inductive Line where
  | word (temp : Lane)
  | dash
  | dot
deriving DecidableEq

/-- The registers of `tbgen`, the components and the lines of the two files: those that are still to
be read, those that are written. -/
structure Bench where
  st : BenchSt
  counter : Nat
  start : Bool
  enRTb : Bool
  enWTb : Bool
  addrTb : Nat
  dataToMemTb : Lane
  sys : System
  filein : List Line
  fileout : List Line
deriving DecidableEq

namespace Bench

/-- The state that the reset leaves, for a file that is to be read. -/
def init (sys : System) (dataToMemTb : Lane) (filein : List Line) : Bench where
  st := .st0
  counter := 0
  start := false
  enRTb := false
  enWTb := false
  addrTb := 0
  dataToMemTb
  sys := sys.reset
  filein
  fileout := []

/-- The components at a rising edge. The coprocessor has the ports of the memory in `st1`. -/
def stepSys (b : Bench) : System :=
  ⟨b.sys.copro.step b.start b.sys.mem.memOutput,
    if b.st = .st1 then
      b.sys.mem.step b.sys.copro.fsm.enR b.sys.copro.fsm.enW b.sys.copro.fsm.memAddr
        b.sys.copro.dataToMem
    else b.sys.mem.step b.enRTb b.enWTb b.addrTb b.dataToMemTb⟩

/-- A rising edge. A line that is not there and a `counter` beyond its range end the simulation with
an error. -/
def step (b : Bench) : Option Bench :=
  let b' := { b with sys := b.stepSys }
  let dataFromMem := b.sys.mem.memOutput
  match b.st with
  | .st0 =>
    match b.filein with
    | [] => none
    | .dot :: rest => some { b' with st := .STOP, filein := rest }
    | .dash :: rest => some { b' with st := .st1, start := true, filein := rest }
    | .word temp :: rest =>
      if b.counter + 1 ≤ 25 then
        some { b' with enWTb := true, enRTb := false, dataToMemTb := temp,
                       counter := b.counter + 1, addrTb := b.counter, filein := rest }
      else none
  | .st1 =>
    let b' := { b' with start := false }
    if b.sys.copro.fsm.done then
      some { b' with st := .st2, counter := 1, addrTb := 0, enRTb := true, enWTb := false }
    else some b'
  | .st2 =>
    if b.counter + 1 ≤ 25 then
      some { b' with st := .st3, addrTb := b.counter, counter := b.counter + 1 }
    else none
  | .st3 =>
    let b' := { b' with fileout := b.fileout ++ [Line.word dataFromMem] }
    if b.counter = 25 then some { b' with st := .st4, counter := 0 }
    else if b.counter + 1 ≤ 25 then
      some { b' with addrTb := b.counter, counter := b.counter + 1 }
    else none
  | .st4 =>
    some { b' with fileout := b.fileout ++ [Line.word dataFromMem, .dash], addrTb := 0, st := .st0 }
  | .STOP => some b'

/-! ## What the testbench is for -/

/-- The words of a block over those of a state. -/
def overwrite (A : State) (ws : List Lane) : State := .ofFn fun k => ws.getD k (A.getD k 0)

/-- The lines for a state. -/
def linesOf (A : State) : List Line :=
  (List.range 25).map (fun k => Line.word (A.getD k 0)) ++ [.dash]

/-- The lines of the second file: each block is written over the state before and permuted. -/
def expected : State → List (List Lane) → List Line
  | _, [] => []
  | A, ws :: blocks =>
    let A := keccakF1600StatePermute (overwrite A ws)
    linesOf A ++ expected A blocks

/-- The lines of the first file. -/
def inputOf (blocks : List (List Lane)) : List Line :=
  blocks.flatMap (fun ws => ws.map Line.word ++ [.dash]) ++ [.dot]

/-! ## Loading -/

/-- The testbench has loaded `k` words of a block, and the memory will hold `M`. -/
structure Loading (b : Bench) (k : Nat) (M : MemTable) : Prop where
  st : b.st = .st0
  counter : b.counter = k
  start : b.start = false
  idle : b.sys.copro.fsm.fsmSt = .INIT
  loaded : b.sys.mem.written b.enWTb b.addrTb b.dataToMemTb = M

/-- An idle coprocessor without `start` stays idle and drives no write. -/
theorem step_idle {f : Fsm} (h : f.fsmSt = .INIT) :
    (f.step false).fsmSt = .INIT ∧ (f.step false).enW = false := by
  obtain ⟨st, a, c, eR, eW, x, p, n, d⟩ := f
  cases h
  exact ⟨rfl, rfl⟩

/-- A word of a block. -/
theorem Loading.word {b : Bench} {k : Nat} {M : MemTable} (h : b.Loading k M) (hk : k < 25)
    {w : Lane} {rest : List Line} (hf : b.filein = .word w :: rest) :
    ∃ b', b.step = some b' ∧ b'.Loading (k + 1) (M.setIfInBounds k w) ∧ b'.filein = rest ∧
      b'.fileout = b.fileout := by
  obtain ⟨st, c, start, eR, eW, a, d, sys, fin, fout⟩ := b
  obtain ⟨rfl, rfl, rfl, hidle, rfl⟩ := h
  simp only at hf hidle hk
  subst hf
  simp only [step, if_pos (show c + 1 ≤ 25 from hk)]
  exact ⟨_, rfl, ⟨rfl, rfl, rfl, (step_idle hidle).1, rfl⟩, rfl, rfl⟩

/-- The words of a block. -/
theorem Loading.words {b : Bench} {k : Nat} {M : MemTable} (h : b.Loading k M) {ws : List Lane}
    (hk : k + ws.length ≤ 25) {rest : List Line} (hf : b.filein = ws.map Line.word ++ rest) :
    ∃ b' M', Machine.runFor step ws.length b = some b' ∧ b'.Loading (k + ws.length) M' ∧
      b'.filein = rest ∧ b'.fileout = b.fileout ∧
      ∀ j < 25, M'.getD j 0 = if j < k then M.getD j 0 else ws.getD (j - k) (M.getD j 0) := by
  induction ws generalizing b k M with
  | nil =>
    refine ⟨b, M, rfl, h, hf, rfl, fun j _ => ?_⟩
    rw [List.getD_nil, ite_self]
  | cons w ws ih =>
    rw [List.length_cons] at hk ⊢
    obtain ⟨b₁, hstep, h₁, hf₁, ho₁⟩ := h.word (by omega) hf
    obtain ⟨b', M', hrun, h', hf', ho', hM'⟩ := ih h₁ (by omega) hf₁
    refine ⟨b', M', Machine.runFor_succ hstep hrun, by rwa [Nat.add_assoc, Nat.add_comm 1] at h',
      hf', ho'.trans ho₁, fun j hj => ?_⟩
    rw [hM' j hj, Vec.getD_setIfInBounds]
    by_cases hlt : j < k
    · rw [if_pos (by omega), if_neg (by omega), if_pos hlt]
    · rw [if_neg hlt]
      by_cases heq : k = j
      · subst heq
        rw [if_pos (Nat.lt_succ_self k), if_pos ⟨rfl, by omega⟩, Nat.sub_self, List.getD_cons_zero]
      · rw [if_neg (by omega), if_neg (by omega), show j - k = j - (k + 1) + 1 by omega,
          List.getD_cons_succ]

/-- The end of a block: the coprocessor takes over a settled memory and will see `start`. -/
theorem Loading.dash {b : Bench} {k : Nat} {M : MemTable} (h : b.Loading k M) {rest : List Line}
    (hf : b.filein = .dash :: rest) :
    ∃ b', b.step = some b' ∧ b'.st = .st1 ∧ b'.start = true ∧ b'.sys.copro.fsm.fsmSt = .INIT ∧
      b'.sys.copro.fsm.done = false ∧ b'.sys.settled = M ∧ b'.filein = rest ∧
      b'.fileout = b.fileout := by
  obtain ⟨st, c, start, eR, eW, a, d, sys, fin, fout⟩ := b
  obtain ⟨rfl, rfl, rfl, hidle, rfl⟩ := h
  simp only at hf hidle
  subst hf
  obtain ⟨⟨⟨st, a', c', eR', eW', x, p, n, d'⟩, q⟩, mem⟩ := sys
  cases hidle
  exact ⟨_, rfl, rfl, rfl, rfl, rfl, rfl, rfl, rfl⟩

/-! ## The permutation -/

/-- A cycle of waiting leaves the coprocessor and the memory to themselves. -/
theorem step_waiting {b : Bench} (hst : b.st = .st1) (hdone : b.sys.copro.fsm.done = false) :
    b.step = some { b with start := false, sys := b.sys.step b.start } := by
  simp only [step, hst, hdone, Bool.false_eq_true, if_false, stepSys, if_true]
  rfl

/-- The cycles of waiting. -/
theorem waiting {b : Bench} (hst : b.st = .st1) (hstart : b.start = true)
    (hidle : b.sys.copro.fsm.fsmSt = .INIT) (hdone : b.sys.copro.fsm.done = false) {n : Nat}
    (hn : n ≤ 215 * 24) :
    Machine.runFor step (n + 1) b = some { b with
      start := false
      sys := Machine.run System.step b.sys (true :: List.replicate n false) } := by
  induction n with
  | zero =>
    have h := step_waiting hst hdone
    rw [hstart] at h
    exact Machine.runFor_one h
  | succ n ih =>
    have hlen : (List.replicate n false).length ≤ 215 * 24 := by
      rw [List.length_replicate]
      omega
    have hrun := System.run_of_start hidle hlen rfl
    have hbusy : (Machine.run System.step b.sys (true :: List.replicate n false)).copro.fsm.done =
        false := by
      rw [← Bool.not_eq_true, hrun.1, List.length_replicate]
      omega
    have h := step_waiting (b := { b with
      start := false
      sys := Machine.run System.step b.sys (true :: List.replicate n false) }) hst hbusy
    refine Machine.runFor_trans (ih (by omega)) (Machine.runFor_one ?_)
    rw [List.replicate_succ', ← List.cons_append, Machine.run_append]
    exact h

/-- The testbench has written the first `c - 2` words of the memory `M`, and the next is at its
input. -/
structure Dumping (b : Bench) (c : Nat) (M : MemTable) : Prop where
  st : b.st = .st3
  counter : b.counter = c
  start : b.start = false
  enR : b.enRTb = true
  enW : b.enWTb = false
  addr : b.addrTb = c - 1
  idle : b.sys.copro.fsm.fsmSt = .INIT
  ram : b.sys.mem.ram = M
  output : b.sys.mem.memOutput = M.getD (c - 2) 0

/-- The permutation, until the testbench begins to read. -/
theorem permuting {b : Bench} {M : MemTable} (hst : b.st = .st1) (hstart : b.start = true)
    (hidle : b.sys.copro.fsm.fsmSt = .INIT) (hdone : b.sys.copro.fsm.done = false)
    (hM : b.sys.settled = M) :
    ∃ b', Machine.runFor step 5163 b = some b' ∧
      b'.Dumping 2 ((List.range 24).foldl storeRound M) ∧ b'.filein = b.filein ∧
      b'.fileout = b.fileout := by
  have hwait := waiting hst hstart hidle hdone (Nat.le_refl _)
  obtain ⟨hd, hend⟩ := System.run_of_start hidle
    (Nat.le_of_eq (List.length_replicate (n := 215 * 24) (a := false))) rfl
  rw [hM] at hend
  generalize Machine.run System.step b.sys (true :: List.replicate (215 * 24) false) = t at *
  generalize (List.range 24).foldl storeRound M = M' at *
  have hd := hd.2 List.length_replicate
  obtain ⟨hinit, hw, hram⟩ := hend List.length_replicate
  clear hend
  obtain ⟨⟨⟨st, a, c, eR, eW, x, p, n, d⟩, q⟩, ram, o⟩ := t
  obtain ⟨bst, cnt, start, eRt, eWt, at', dt, sys, fin, fout⟩ := b
  simp only at hd hinit hw hram hst hwait
  subst hd hinit hw hram hst
  exact ⟨_, Machine.runFor_trans hwait (Machine.runFor_succ rfl (Machine.runFor_one rfl)),
    ⟨rfl, rfl, rfl, rfl, rfl, rfl, rfl, rfl, rfl⟩, rfl, rfl⟩

/-- A word is written. -/
theorem Dumping.word {b : Bench} {c : Nat} {M : MemTable} (h : b.Dumping c M) (h2 : 2 ≤ c)
    (hc : c < 25) :
    ∃ b', b.step = some b' ∧ b'.Dumping (c + 1) M ∧ b'.filein = b.filein ∧
      b'.fileout = b.fileout ++ [.word (M.getD (c - 2) 0)] := by
  obtain ⟨st, cnt, start, eR, eW, a, d, ⟨copro, ram, o⟩, fin, fout⟩ := b
  obtain ⟨h₁, h₂, h₃, h₄, h₅, h₆, hidle, h₇, h₈⟩ := h
  simp only at h₁ h₂ h₃ h₄ h₅ h₆ hidle h₇ h₈
  subst h₁ h₂ h₃ h₄ h₅ h₆ h₇ h₈
  have hne : ¬cnt = 25 := by omega
  simp only [step, if_neg hne, if_pos (show cnt + 1 ≤ 25 from hc)]
  refine ⟨_, rfl, ⟨rfl, rfl, rfl, rfl, rfl, rfl, (step_idle hidle).1, rfl, ?_⟩, rfl, rfl⟩
  rw [show cnt + 1 - 2 = cnt - 1 by omega]
  rfl

/-- The words up to the last but two. -/
theorem Dumping.words {b : Bench} {c : Nat} {M : MemTable} (h : b.Dumping c M) (h2 : 2 ≤ c)
    {n : Nat} (hn : c + n ≤ 25) :
    ∃ b', Machine.runFor step n b = some b' ∧ b'.Dumping (c + n) M ∧ b'.filein = b.filein ∧
      b'.fileout = b.fileout ++ (List.range' (c - 2) n).map fun k => .word (M.getD k 0) := by
  induction n generalizing b c with
  | zero => exact ⟨b, rfl, h, rfl, by rw [List.range'_zero, List.map_nil, List.append_nil]⟩
  | succ n ih =>
    obtain ⟨b₁, hstep, h₁, hf₁, ho₁⟩ := h.word h2 (by omega)
    obtain ⟨b', hrun, h', hf', ho'⟩ := ih h₁ (by omega) (by omega)
    refine ⟨b', Machine.runFor_succ hstep hrun, by rwa [Nat.add_assoc, Nat.add_comm 1] at h',
      hf'.trans hf₁, ?_⟩
    rw [ho', ho₁, List.append_assoc, List.range'_succ, List.map_cons, List.singleton_append,
      show c + 1 - 2 = c - 2 + 1 by omega]

/-- The last two words and the mark after them. -/
theorem Dumping.last {b : Bench} {M : MemTable} (h : b.Dumping 25 M) :
    ∃ b', Machine.runFor step 2 b = some b' ∧ b'.Loading 0 M ∧ b'.filein = b.filein ∧
      b'.fileout = b.fileout ++ [.word (M.getD 23 0), .word (M.getD 24 0), .dash] := by
  obtain ⟨st, cnt, start, eR, eW, a, d, ⟨copro, ram, o⟩, fin, fout⟩ := b
  obtain ⟨h₁, h₂, h₃, h₄, h₅, h₆, hidle, h₇, h₈⟩ := h
  simp only at h₁ h₂ h₃ h₄ h₅ h₆ hidle h₇ h₈
  subst h₁ h₂ h₃ h₄ h₅ h₆ h₇ h₈
  refine ⟨_, Machine.runFor_succ rfl (Machine.runFor_one rfl),
    ⟨rfl, rfl, rfl, (step_idle (step_idle hidle).1).1, rfl⟩, rfl, ?_⟩
  exact List.append_assoc fout _ _

/-! ## The run -/

/-- The lines of a block are the words of the permuted state. -/
theorem linesOf_eq {M : MemTable} {A : State} (h : ∀ k < 25, A.getD k 0 = M.getD k 0) :
    linesOf A = ((List.range' 0 23).map fun k => .word (M.getD k 0)) ++
      [.word (M.getD 23 0), .word (M.getD 24 0), .dash] := by
  have hmap : ((List.range 25).map fun k => Line.word (A.getD k 0)) =
      (List.range 25).map fun k => .word (M.getD k 0) :=
    List.map_congr_left fun k hk => by rw [h k (List.mem_range.1 hk)]
  rw [linesOf, hmap]
  rfl

/-- A block: its words overwrite the state, which is permuted and written. -/
theorem Loading.block {b : Bench} {M : MemTable} (h : b.Loading 0 M) {ws : List Lane}
    (hws : ws.length ≤ 25) {rest : List Line}
    (hf : b.filein = ws.map Line.word ++ .dash :: rest) :
    ∃ b' M', Machine.runFor step (ws.length + 5189) b = some b' ∧ b'.Loading 0 M' ∧
      state M' = keccakF1600StatePermute (overwrite (state M) ws) ∧ b'.filein = rest ∧
      b'.fileout = b.fileout ++ linesOf (state M') := by
  obtain ⟨b₁, M₁, hrun₁, h₁, hf₁, ho₁, hM₁⟩ := h.words (by omega) hf
  obtain ⟨b₂, hstep, hst, hstart, hidle, hdone, hM₂, hf₂, ho₂⟩ := h₁.dash hf₁
  obtain ⟨b₃, hrun₃, h₃, hf₃, ho₃⟩ := permuting hst hstart hidle hdone hM₂
  obtain ⟨b₄, hrun₄, h₄, hf₄, ho₄⟩ := h₃.words (Nat.le_refl 2) (show 2 + 23 ≤ 25 by decide)
  obtain ⟨b₅, hrun₅, h₅, hf₅, ho₅⟩ := h₄.last
  have hstate : state M₁ = overwrite (state M) ws := by
    apply Vec.ext_getD 0
    intro k hk
    rw [getD_state _ hk, hM₁ k hk, if_neg (Nat.not_lt_zero k), overwrite, Vec.getD_of_lt _ _ hk,
      Vector.getElem_ofFn, getD_state M hk, Nat.sub_zero]
  refine ⟨b₅, _, Machine.runFor_trans hrun₁ (Machine.runFor_succ hstep
    (Machine.runFor_trans hrun₃ (Machine.runFor_trans hrun₄ hrun₅))), h₅, ?_, ?_, ?_⟩
  · rw [System.state_rounds, hstate]
  · rw [hf₅, hf₄, hf₃, hf₂]
  · rw [ho₅, ho₄, ho₃, ho₂, ho₁, List.append_assoc,
      linesOf_eq fun k hk => getD_state _ hk]

/-- The blocks of a file. -/
theorem Loading.blocks {b : Bench} {M : MemTable} (h : b.Loading 0 M) {blocks : List (List Lane)}
    (hlen : ∀ ws ∈ blocks, ws.length ≤ 25) (hf : b.filein = inputOf blocks) :
    ∃ b', Machine.runFor step ((blocks.map fun ws => ws.length + 5189).sum + 1) b = some b' ∧
      b'.st = .STOP ∧ b'.filein = [] ∧ b'.fileout = b.fileout ++ expected (state M) blocks := by
  induction blocks generalizing b M with
  | nil =>
    obtain ⟨st, c, start, eR, eW, a, d, sys, fin, fout⟩ := b
    obtain ⟨rfl, rfl, rfl, -, rfl⟩ := h
    simp only at hf
    subst hf
    exact ⟨_, Machine.runFor_one rfl, rfl, rfl, (List.append_nil fout).symm⟩
  | cons ws blocks ih =>
    have hf' : b.filein = ws.map Line.word ++ .dash :: inputOf blocks := by
      rw [hf, inputOf, List.flatMap_cons, List.append_assoc, List.append_assoc]
      rfl
    obtain ⟨b₁, M₁, hrun₁, h₁, hM₁, hf₁, ho₁⟩ := h.block (hlen ws (.head _)) hf'
    obtain ⟨b', hrun, hst, hfin, hout⟩ := ih h₁ (fun ws h => hlen ws (.tail _ h)) hf₁
    refine ⟨b', ?_, hst, hfin, ?_⟩
    · rw [List.map_cons, List.sum_cons, Nat.add_assoc]
      exact Machine.runFor_trans hrun₁ hrun
    · rw [hout, ho₁, List.append_assoc, hM₁]
      rfl

/-- The reset leaves a memory of zeros. -/
theorem init_loading (sys : System) (dataToMemTb : Lane) (filein : List Line) :
    (init sys dataToMemTb filein).Loading 0 (.replicate 64 0) ∧
      state (.replicate 64 0) = .replicate 25 0 := by
  refine ⟨⟨rfl, rfl, rfl, rfl, rfl⟩, Vec.ext_getD 0 fun k hk => ?_⟩
  rw [getD_state _ hk, Vec.getD_replicate _ _ hk, Vec.getD_replicate _ _ (by omega)]

/-- **The testbench.** For a file of any number of blocks of up to 25 words the simulation ends
after `length + 5189` cycles for each block and one more, and the second file holds, for each block,
the permutation of the state before overwritten by the block's words; the first state is zero. -/
theorem testbench_output (sys : System) (dataToMemTb : Lane) (blocks : List (List Lane))
    (hlen : ∀ ws ∈ blocks, ws.length ≤ 25) :
    ∃ b', Machine.runFor step ((blocks.map fun ws => ws.length + 5189).sum + 1)
        (init sys dataToMemTb (inputOf blocks)) = some b' ∧
      b'.st = .STOP ∧ b'.filein = [] ∧ b'.fileout = expected (.replicate 25 0) blocks := by
  obtain ⟨hload, hzero⟩ := init_loading sys dataToMemTb (inputOf blocks)
  obtain ⟨b', hrun, hst, hfin, hout⟩ := hload.blocks hlen rfl
  rw [hzero] at hout
  exact ⟨b', hrun, hst, hfin, hout⟩

/-- A block of one word and an empty one, which permutes the state again. -/
theorem testbench_output_two :
    ∃ b', Machine.runFor step (([[1], []].map fun ws : List Lane => ws.length + 5189).sum + 1)
        (init ⟨⟨⟨.chi5, 0, 0, true, true, 4, 4, 7, true⟩, ⟨0, 0, 0⟩⟩, ⟨.replicate 64 1, 0⟩⟩ 5
          (inputOf [[1], []])) = some b' ∧
      b'.st = .STOP ∧ b'.filein = [] ∧ b'.fileout = expected (.replicate 25 0) [[1], []] :=
  testbench_output _ 5 [[1], []] (by decide)

end Bench

end ShakeAccel.LowArea
