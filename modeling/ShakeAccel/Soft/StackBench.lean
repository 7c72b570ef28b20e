import ShakeAccel.Lib.Log
import ShakeAccel.Lib.Vec
import ShakeAccel.Lib.Watermark
import ShakeAccel.Accel.Ram

/-!
# The stack benchmark (`stackbench.c`)

`write_stack` paints words with a canary and `check_stack` counts those that have lost it. The stack
grows down from `STACK_ADDR_START`, its first word is the one below that address; the word at the
address itself is the first word of the data RAM, whose addresses wrap.
-/

namespace ShakeAccel

open Watermark

/-- `STACK_ADDR_START`, which is the linker's `_stack_start`. -/
def stackAddrStart : BitVec 32 := 0x00102000

/-- `STACK_WORDS`. -/
def stackWords : Nat := 1024

/-- `CANARY`. -/
def canary : Word := 0xc01dc0fe

/-! ## The data RAM -/

/-- The data RAM, 8192 bytes in words of 32 bits. -/
abbrev DataRam := Vector Word 2048

namespace DataRam

/-- The word that an address of the core selects: `core_data_addr[12:0]` without the byte offset. -/
def index (addr : BitVec 32) : Fin 2048 := (addr.extractLsb' 2 11).toFin

def load (mem : DataRam) (addr : BitVec 32) : Word := mem.get (index addr)

def store (mem : DataRam) (addr : BitVec 32) (v : Word) : DataRam :=
  mem.set (index addr) v (index addr).isLt

theorem load_store (mem : DataRam) (a b : BitVec 32) (v : Word) :
    (mem.store a v).load b = if index a = index b then v else mem.load b :=
  Vec.get_set mem (index a) (index b) v

end DataRam

/-- `write_stack`. -/
def writeStack (mem : DataRam) : DataRam :=
  ((List.range stackWords).foldl (fun s _ => (s.1 - 4, s.2.store s.1 canary))
    (stackAddrStart, mem)).2

/-- `check_stack`, which stores nothing. -/
def checkStack (mem : DataRam) : Word :=
  ((List.range stackWords).foldl
    (fun s _ => (s.1 - 4, if mem.load s.1 ≠ canary then s.2 + 4 else s.2))
    (stackAddrStart, (0 : Word))).2

/-- The address of the word `d` words below `STACK_ADDR_START`. -/
def stackAddr (d : Nat) : BitVec 32 := stackAddrStart - BitVec.ofNat 32 d * 4

/-- The stack ends at the end of the data RAM; the word at its start address is word 0. -/
theorem index_stackAddr {d : Nat} (hd : d ≤ 2048) :
    (DataRam.index (stackAddr d)).val = (2048 - d) % 2048 := by
  have hval : (stackAddr d).toNat = 0x00102000 - 4 * d := by
    rw [stackAddr, stackAddrStart]
    bv_omega
  rw [DataRam.index, BitVec.val_toFin, BitVec.extractLsb'_toNat, hval, Nat.shiftRight_eq_div_pow]
  omega

/-- Words of different depth are different words. -/
theorem index_stackAddr_inj {d e : Nat} (hd : d < 2048) (he : e < 2048)
    (h : DataRam.index (stackAddr d) = DataRam.index (stackAddr e)) : d = e := by
  have hval := congrArg Fin.val h
  rw [index_stackAddr (Nat.le_of_lt hd), index_stackAddr (Nat.le_of_lt he)] at hval
  omega

/-! ## The two functions -/

/-- The loop of `write_stack`, depth by depth. -/
theorem foldl_paint (mem : DataRam) (n : Nat) :
    ((List.range n).foldl (fun s _ => (s.1 - 4, s.2.store s.1 canary)) (stackAddrStart, mem)).2 =
      (List.range n).foldl (fun mem d => mem.store (stackAddr d) canary) mem :=
  congrArg Prod.snd
    (foldl_descend (fun (mem : DataRam) a => mem.store a canary) stackAddrStart 4 mem n)

theorem get_foldl_paint (mem : DataRam) (n : Nat) (k : Fin 2048) :
    ((List.range n).foldl (fun mem d => mem.store (stackAddr d) canary) mem).get k =
      if ∃ d < n, DataRam.index (stackAddr d) = k then canary else mem.get k := by
  induction n with
  | zero => exact (if_neg fun h => absurd h.choose_spec.1 (Nat.not_lt_zero _)).symm
  | succ n ih =>
    rw [List.range_succ, List.foldl_append, List.foldl_cons, List.foldl_nil, DataRam.store,
      Vec.get_set, ih]
    by_cases hk : DataRam.index (stackAddr n) = k
    · rw [if_pos hk, if_pos ⟨n, Nat.lt_succ_self n, hk⟩]
    · have hiff : (∃ d < n + 1, DataRam.index (stackAddr d) = k) ↔
          ∃ d < n, DataRam.index (stackAddr d) = k := by
        constructor
        · rintro ⟨d, hd, rfl⟩
          rcases Nat.lt_succ_iff_lt_or_eq.1 hd with hlt | rfl
          · exact ⟨d, hlt, rfl⟩
          · exact absurd rfl hk
        · rintro ⟨d, hd, rfl⟩
          exact ⟨d, Nat.lt_succ_of_lt hd, rfl⟩
      rw [if_neg hk]
      simp only [hiff]

/-- `write_stack` paints the words of depth 0 to 1023 and no other. -/
theorem get_writeStack (mem : DataRam) (k : Fin 2048) :
    (writeStack mem).get k =
      if ∃ d < stackWords, DataRam.index (stackAddr d) = k then canary else mem.get k := by
  rw [writeStack, foldl_paint, get_foldl_paint]

theorem load_writeStack (mem : DataRam) {d : Nat} (hd : d < stackWords) :
    (writeStack mem).load (stackAddr d) = canary := by
  rw [DataRam.load, get_writeStack, if_pos ⟨d, hd, rfl⟩]

/-- A loop that adds 4 for each marked number. -/
theorem foldl_count (p : Nat → Prop) [DecidablePred p] (n : Nat) :
    (List.range n).foldl (fun (cnt : Word) d => if p d then cnt + 4 else cnt) 0 =
      BitVec.ofNat 32 (4 * Nat.count p n) := by
  induction n with
  | zero => rfl
  | succ n ih =>
    rw [List.range_succ, List.foldl_append, ih, List.foldl_cons, List.foldl_nil, Nat.count_succ]
    by_cases hp : p n
    · rw [if_pos hp, if_pos hp, Nat.mul_add, BitVec.ofNat_add]
      rfl
    · rw [if_neg hp, if_neg hp, Nat.add_zero]

/-- The loop of `check_stack`, depth by depth. -/
theorem foldl_check (mem : DataRam) (n : Nat) :
    ((List.range n).foldl
        (fun s _ => (s.1 - 4, if mem.load s.1 ≠ canary then s.2 + 4 else s.2))
        (stackAddrStart, (0 : Word))).2 =
      BitVec.ofNat 32 (4 * Nat.count (fun d => mem.load (stackAddr d) ≠ canary) n) :=
  (congrArg Prod.snd
    (foldl_descend (fun (cnt : Word) a => if mem.load a ≠ canary then cnt + 4 else cnt)
      stackAddrStart 4 0 n)).trans (foldl_count (fun d => mem.load (stackAddr d) ≠ canary) n)

/-- `check_stack` counts the words of depth 0 to 1023 that do not hold the canary. -/
theorem toNat_checkStack (mem : DataRam) :
    (checkStack mem).toNat =
      4 * Nat.count (fun d => mem.load (stackAddr d) ≠ canary) stackWords := by
  have hle := Nat.count_le (p := fun d => mem.load (stackAddr d) ≠ canary) (n := stackWords)
  rw [checkStack, foldl_check, BitVec.toNat_ofNat, Nat.mod_eq_of_lt]
  rw [stackWords] at hle ⊢
  omega

/-! ## The measured code -/

/-- A store of the measured code into its stack: the depth of the word below `STACK_ADDR_START`, one
of 1 to 1023, and the value. -/
structure StackStore where
  depth : Nat
  value : Word
  pos : 0 < depth
  lt : depth < stackWords

/-- The stores of the measured code, in order. -/
def runStores (mem : DataRam) (code : List StackStore) : DataRam :=
  code.foldl (fun mem c => mem.store (stackAddr c.depth) c.value) mem

/-- The last value that the measured code stores at a depth. -/
def lastStored (code : List StackStore) (d : Nat) : Option Word :=
  Log.last (fun c => if c.depth = d then some c.value else none) code

/-- The depth of the deepest word of the stack that differs between two memories, 0 if there is
none. -/
def deepestChange (before after : DataRam) : Nat :=
  Nat.findGreatest (fun d => after.load (stackAddr d) ≠ before.load (stackAddr d)) (stackWords - 1)

/-- What the benchmark is for: painting changes only the `STACK_WORDS` words below
`STACK_ADDR_START`, and the check finds the depth to which the measured code has changed them. -/
structure Measures (mem : DataRam) (code : List StackStore) : Prop where
  frame : ∀ k, (∀ d, 1 ≤ d → d ≤ stackWords → DataRam.index (stackAddr d) ≠ k) →
    (writeStack mem).get k = mem.get k
  mark : (checkStack (runStores (writeStack mem) code)).toNat =
    4 * deepestChange (writeStack mem) (runStores (writeStack mem) code)

theorem getD_lastStored_cons (c : StackStore) (code : List StackStore) (d : Nat) (v : Word) :
    (lastStored (c :: code) d).getD v =
      (lastStored code d).getD (if c.depth = d then c.value else v) := by
  rw [lastStored, Log.getD_last_cons, ← lastStored]
  split <;> rfl

theorem load_runStores (mem : DataRam) (code : List StackStore) {d : Nat} (hd : d < stackWords) :
    (runStores mem code).load (stackAddr d) =
      (lastStored code d).getD (mem.load (stackAddr d)) := by
  induction code generalizing mem with
  | nil => rfl
  | cons c code ih =>
    have hiff : DataRam.index (stackAddr c.depth) = DataRam.index (stackAddr d) ↔ c.depth = d :=
      ⟨index_stackAddr_inj (Nat.lt_trans c.lt (by decide)) (Nat.lt_trans hd (by decide)),
        fun h => by rw [h]⟩
    rw [runStores, List.foldl_cons, ← runStores, ih, DataRam.load_store, getD_lastStored_cons]
    simp only [hiff]

/-- Depth 0 is not among the depths of the measured code. -/
theorem lastStored_zero (code : List StackStore) : lastStored code 0 = none := by
  induction code with
  | nil => rfl
  | cons c code ih =>
    rw [lastStored, ← List.singleton_append, Log.last_append, ← lastStored, ih, Log.last_singleton,
      if_neg (Nat.ne_of_gt c.pos)]
    rfl

/-- The measured code leaves something other than the canary at a depth. -/
def Marks (code : List StackStore) (d : Nat) : Prop := (lastStored code d).getD canary ≠ canary

instance (code : List StackStore) : DecidablePred (Marks code) := fun d =>
  inferInstanceAs (Decidable ((lastStored code d).getD canary ≠ canary))

theorem not_marks_zero (code : List StackStore) : ¬Marks code 0 := by
  rw [Marks, lastStored_zero]
  exact not_not.2 rfl

theorem load_after (mem : DataRam) (code : List StackStore) {d : Nat} (hd : d < stackWords) :
    (runStores (writeStack mem) code).load (stackAddr d) = (lastStored code d).getD canary := by
  rw [load_runStores _ _ hd, load_writeStack mem hd]

/-- The word at `STACK_ADDR_START` is the only one outside the stack that is painted. -/
theorem frame_iff (mem : DataRam) :
    (∀ k, (∀ d, 1 ≤ d → d ≤ stackWords → DataRam.index (stackAddr d) ≠ k) →
      (writeStack mem).get k = mem.get k) ↔ mem.load stackAddrStart = canary := by
  have hstart : stackAddr 0 = stackAddrStart := by decide
  constructor
  · intro h
    have hout : ∀ d, 1 ≤ d → d ≤ stackWords →
        DataRam.index (stackAddr d) ≠ DataRam.index (stackAddr 0) := fun d h1 hd heq =>
      absurd (index_stackAddr_inj (Nat.lt_of_le_of_lt hd (by decide)) (by decide) heq) (by omega)
    have hpaint := load_writeStack mem (d := 0) (by decide)
    rw [DataRam.load, h _ hout, hstart] at hpaint
    exact hpaint
  · intro h k hk
    rw [get_writeStack]
    split
    · next hex =>
      obtain ⟨d, hd, rfl⟩ := hex
      obtain rfl : d = 0 := by
        by_contra hne
        exact hk d (Nat.pos_of_ne_zero hne) (Nat.le_of_lt hd) rfl
      rw [hstart]
      exact h.symm
    · rfl

/-- The result of the check is the number of words that the measured code marks. -/
theorem toNat_checkStack_after (mem : DataRam) (code : List StackStore) :
    (checkStack (runStores (writeStack mem) code)).toNat =
      4 * Nat.count (Marks code) (stackWords - 1 + 1) := by
  rw [toNat_checkStack]
  refine congrArg (4 * ·) (count_congr fun d hd => ?_)
  rw [load_after mem code hd, Marks]

/-- The words that the measured code changes are those that it marks. -/
theorem deepestChange_after (mem : DataRam) (code : List StackStore) :
    deepestChange (writeStack mem) (runStores (writeStack mem) code) =
      Nat.findGreatest (Marks code) (stackWords - 1) :=
  findGreatest_congr fun d hd => by
    have hlt : d < stackWords := Nat.lt_of_le_pred (by decide) hd
    rw [load_after mem code hlt, load_writeStack mem hlt, Marks]

/-- The number of marked words is the depth of the deepest one if there is no gap. -/
theorem mark_iff (mem : DataRam) (code : List StackStore) :
    (checkStack (runStores (writeStack mem) code)).toNat =
        4 * deepestChange (writeStack mem) (runStores (writeStack mem) code) ↔
      NoGap (Marks code) (stackWords - 1) := by
  rw [toNat_checkStack_after, deepestChange_after, Nat.mul_right_inj (by decide),
    count_eq_findGreatest_iff (not_marks_zero code)]

/-- **When the benchmark measures the stack**: exactly if the word at `STACK_ADDR_START` already
holds the canary, and the measured code leaves no gap above the deepest word that it changes. -/
theorem measures_iff (mem : DataRam) (code : List StackStore) :
    Measures mem code ↔
      mem.load stackAddrStart = canary ∧ NoGap (Marks code) (stackWords - 1) :=
  ⟨fun h => ⟨(frame_iff mem).1 h.frame, (mark_iff mem code).1 h.mark⟩,
    fun h => ⟨(frame_iff mem).2 h.1, (mark_iff mem code).2 h.2⟩⟩

/-- A measured code that stores one word at depth 2 and none at depth 1. -/
def skippingCode : List StackStore := [⟨2, 0, by decide, by decide⟩]

/-- On a data RAM of zeros the word at `STACK_ADDR_START` is overwritten, and the code that uses two
words of stack is reported with one. -/
theorem not_measures_zeros :
    ¬Measures (.replicate 2048 0) skippingCode ∧
      (writeStack (.replicate 2048 0)).load stackAddrStart ≠
        DataRam.load (.replicate 2048 0) stackAddrStart ∧
      deepestChange (writeStack (.replicate 2048 0))
          (runStores (writeStack (.replicate 2048 0)) skippingCode) = 2 ∧
      (checkStack (runStores (writeStack (.replicate 2048 0)) skippingCode)).toNat = 4 := by
  have hzero : DataRam.load (.replicate 2048 0) stackAddrStart = 0 :=
    Vector.getElem_replicate (DataRam.index stackAddrStart).isLt
  have hstart : (writeStack (.replicate 2048 0)).load stackAddrStart = canary :=
    load_writeStack _ (d := 0) (by decide)
  refine ⟨fun h => ?_, ?_, ?_, ?_⟩
  · have hframe := (frame_iff _).1 h.frame
    rw [hzero] at hframe
    exact absurd hframe (by decide)
  · rw [hstart, hzero]
    decide
  · rw [deepestChange_after]
    decide +kernel
  · rw [toNat_checkStack_after]
    decide +kernel

end ShakeAccel
