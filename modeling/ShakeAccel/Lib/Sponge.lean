import Mathlib.Logic.Function.Iterate

/-!
# The sponge construction

A sponge over a state type `σ` with a permutation `f`: `absorb` injects one block after the other
and permutes after each, `squeeze` reads one block after the other and permutes in between. The
construction is independent of the state's representation (`absorb_map`, `squeeze_map`). Byte
messages are padded to whole blocks by `pad` and cut by `blocks`.
-/

namespace Sponge

variable {σ τ β γ α : Type*}

/-- Absorbing: each block is injected into the state, which is then permuted. -/
def absorb (f : σ → σ) (inj : σ → β → σ) (s : σ) (bs : List β) : σ :=
  bs.foldl (fun s b => f (inj s b)) s

@[simp] theorem absorb_nil (f : σ → σ) (inj : σ → β → σ) (s : σ) : absorb f inj s [] = s := rfl

@[simp] theorem absorb_cons (f : σ → σ) (inj : σ → β → σ) (s : σ) (b : β) (bs : List β) :
    absorb f inj s (b :: bs) = absorb f inj (f (inj s b)) bs := rfl

theorem absorb_concat (f : σ → σ) (inj : σ → β → σ) (s : σ) (bs : List β) (b : β) :
    absorb f inj s (bs ++ [b]) = f (inj (absorb f inj s bs) b) := by
  simp only [absorb, List.foldl_append, List.foldl_cons, List.foldl_nil]

/-- Absorbing is a bijection of the states, whatever the blocks are. -/
theorem absorb_bijective {f : σ → σ} {inj : σ → β → σ} (hf : Function.Bijective f)
    (hinj : ∀ b, Function.Bijective fun s => inj s b) (bs : List β) :
    Function.Bijective fun s => absorb f inj s bs := by
  induction bs with
  | nil => exact Function.bijective_id
  | cons b bs ih => exact ih.comp (hf.comp (hinj b))

/-- Squeezing: the first `n` output blocks of a state, with one permutation between two of them. -/
def squeeze (f : σ → σ) (ext : σ → γ) : Nat → σ → List γ
  | 0, _ => []
  | n + 1, s => ext s :: squeeze f ext n (f s)

/-- Output blocks are squeezed in sequence. -/
theorem squeeze_add (f : σ → σ) (ext : σ → γ) (m n : Nat) (s : σ) :
    squeeze f ext (m + n) s = squeeze f ext m s ++ squeeze f ext n (f^[m] s) := by
  induction m generalizing s with
  | zero => simp [squeeze]
  | succ m ih =>
    rw [Nat.succ_add, squeeze, squeeze, ih, List.cons_append, Function.iterate_succ_apply]

/-- Element `i` of the output stream of a state, when a block has `r` elements. -/
def stream (f : σ → σ) (ext : σ → Nat → α) (r : Nat) (s : σ) (i : Nat) : α :=
  ext (f^[i / r] s) (i % r)

theorem stream_of_lt (f : σ → σ) (ext : σ → Nat → α) {r i : Nat} (s : σ) (h : i < r) :
    stream f ext r s i = ext s i := by
  rw [stream, Nat.div_eq_of_lt h, Nat.mod_eq_of_lt h, Function.iterate_zero_apply]

theorem stream_add_mul (f : σ → σ) (ext : σ → Nat → α) {r : Nat} (hr : 0 < r) (s : σ) (k i : Nat) :
    stream f ext r s (k * r + i) = stream f ext r (f^[k] s) i := by
  rw [stream, stream, ← Function.iterate_add_apply, Nat.mul_comm, Nat.mul_add_div hr,
    Nat.mul_add_mod, Nat.add_comm]

/-- The squeezed blocks are the beginning of the stream. -/
theorem flatten_squeeze (f : σ → σ) (ext : σ → Nat → α) {r : Nat} (hr : 0 < r) (n : Nat) (s : σ) :
    (squeeze f (fun s => (List.range r).map (ext s)) n s).flatten =
      (List.range (n * r)).map (stream f ext r s) := by
  induction n generalizing s with
  | zero => simp [squeeze]
  | succ n ih =>
    have hfirst : (List.range r).map (ext s) = (List.range r).map (stream f ext r s) :=
      List.map_congr_left fun i hi => (stream_of_lt f ext s (List.mem_range.1 hi)).symm
    have hrest : (List.range (n * r)).map (stream f ext r (f s)) =
        ((List.range (n * r)).map (r + ·)).map (stream f ext r s) := by
      rw [List.map_map]
      refine List.map_congr_left fun i _ => ?_
      have hi := stream_add_mul f ext hr s 1 i
      rw [Nat.one_mul, Function.iterate_one] at hi
      exact hi.symm
    rw [squeeze, List.flatten_cons, ih, hfirst, hrest, ← List.map_append, ← List.range_add,
      Nat.succ_mul, Nat.add_comm]

/-- Absorbing commutes with a change of representation of the state. -/
theorem absorb_map {f : σ → σ} {inj : σ → β → σ} {f' : τ → τ} {inj' : τ → γ → τ} (e : σ → τ)
    (g : β → γ) (hf : ∀ s, e (f s) = f' (e s)) (hinj : ∀ s b, e (inj s b) = inj' (e s) (g b))
    (s : σ) (bs : List β) : e (absorb f inj s bs) = absorb f' inj' (e s) (bs.map g) := by
  induction bs generalizing s with
  | nil => rfl
  | cons b bs ih => rw [absorb_cons, ih, hf, hinj, List.map_cons, absorb_cons]

/-- A list cut into `n` blocks of `r` elements. -/
def blocks (r : Nat) : Nat → List α → List (List α)
  | 0, _ => []
  | n + 1, l => l.take r :: blocks r n (l.drop r)

/-- The last block is what follows the blocks before it. -/
theorem blocks_succ (r n : Nat) (l : List α) :
    blocks r (n + 1) l = blocks r n l ++ [(l.drop (r * n)).take r] := by
  induction n generalizing l with
  | zero => rfl
  | succ n ih =>
    rw [blocks, ih, blocks, List.cons_append, List.drop_drop, Nat.mul_succ, Nat.add_comm r]

/-- Appending to a list does not change the blocks it already fills. -/
theorem blocks_append {r n : Nat} {l : List α} (h : r * n ≤ l.length) (x : List α) :
    blocks r n (l ++ x) = blocks r n l := by
  induction n generalizing l with
  | zero => rfl
  | succ n ih =>
    rw [Nat.mul_succ] at h
    have hr : r ≤ l.length := by omega
    rw [blocks, blocks, List.take_append_of_le_length hr, List.drop_append_of_le_length hr,
      ih (by rw [List.length_drop]; omega)]

/-- A byte string with `0x80` ORed into its last byte. -/
def closeLast (l : List (BitVec 8)) : List (BitVec 8) :=
  l.set (l.length - 1) (l.getD (l.length - 1) 0 ||| 0x80)

/-- The message `m` padded to whole blocks of `r` bytes: the suffix byte `p`, zero bytes, and `0x80`
ORed into the last byte. -/
def pad (r : Nat) (p : BitVec 8) (m : List (BitVec 8)) : List (BitVec 8) :=
  closeLast (m ++ p :: List.replicate (r - m.length % r - 1) 0)

/-- The number of blocks of the padded message. -/
def padBlocks (r : Nat) (m : List (BitVec 8)) : Nat := m.length / r + 1

theorem closeLast_append (a : List (BitVec 8)) {l : List (BitVec 8)} (hl : 0 < l.length) :
    closeLast (a ++ l) = a ++ closeLast l := by
  have hi : a.length + l.length - 1 - a.length = l.length - 1 := by omega
  rw [closeLast, closeLast, List.length_append, List.set_append_right _ _ (by omega),
    List.getD_eq_getElem?_getD, List.getElem?_append_right (by omega),
    ← List.getD_eq_getElem?_getD, hi]

theorem length_pad {r : Nat} (hr : 0 < r) (p : BitVec 8) (m : List (BitVec 8)) :
    (pad r p m).length = padBlocks r m * r := by
  have h1 := Nat.mod_lt m.length hr
  have h2 := Nat.div_add_mod m.length r
  rw [pad, closeLast, List.length_set, List.length_append, List.length_cons, List.length_replicate,
    padBlocks, Nat.add_mul, Nat.mul_comm (m.length / r) r]
  omega

/-- The bytes of the padded message, when it is a single block. -/
theorem getD_pad {r : Nat} (p : BitVec 8) {m : List (BitVec 8)} (h : m.length < r) {i : Nat}
    (hi : i < r) :
    (pad r p m).getD i 0 =
      (if i < m.length then m.getD i 0 else if i = m.length then p else 0) |||
        if i = r - 1 then 0x80 else 0 := by
  have hbody : (m ++ p :: List.replicate (r - m.length % r - 1) 0).getD i 0 =
      if i < m.length then m.getD i 0 else if i = m.length then p else 0 := by
    simp only [List.getD_eq_getElem?_getD]
    rcases Nat.lt_trichotomy i m.length with hlt | rfl | hgt
    · rw [if_pos hlt, List.getElem?_append_left hlt]
    · rw [if_neg (Nat.lt_irrefl _), if_pos rfl, List.getElem?_append_right (Nat.le_refl _)]
      simp
    · rw [if_neg (by omega), if_neg (by omega), List.getElem?_append_right (by omega),
        show i - m.length = i - m.length - 1 + 1 by omega, List.getElem?_cons_succ,
        List.getElem?_replicate]
      split <;> rfl
  have hlen : (m ++ p :: List.replicate (r - m.length % r - 1) 0).length = r := by
    rw [List.length_append, List.length_cons, List.length_replicate, Nat.mod_eq_of_lt h]
    omega
  rw [pad, closeLast, hlen]
  by_cases hlast : i = r - 1
  · subst hlast
    rw [if_pos rfl, ← hbody, List.getD_eq_getElem?_getD, List.getElem?_set_self (by omega)]
    rfl
  · rw [if_neg hlast, List.getD_eq_getElem?_getD, List.getElem?_set_ne (by omega),
      ← List.getD_eq_getElem?_getD, hbody]
    exact BitVec.or_zero.symm

/-- A full block at the head of the message is the first block of the padded message. -/
theorem pad_of_le {r : Nat} (p : BitVec 8) {m : List (BitVec 8)} (h : r ≤ m.length) :
    pad r p m = m.take r ++ pad r p (m.drop r) := by
  have hne : 0 < (m.drop r ++ p :: List.replicate (r - (m.drop r).length % r - 1) 0).length := by
    rw [List.length_append, List.length_cons]
    omega
  rw [pad, pad, ← closeLast_append _ hne, ← List.append_assoc, List.take_append_drop,
    List.length_drop, ← Nat.mod_eq_sub_mod h]

/-- The padded message, block by block: a full block of the message comes first. -/
theorem blocks_pad_of_le {r : Nat} (hr : 0 < r) (p : BitVec 8) {m : List (BitVec 8)}
    (h : r ≤ m.length) :
    blocks r (padBlocks r m) (pad r p m) =
      m.take r :: blocks r (padBlocks r (m.drop r)) (pad r p (m.drop r)) := by
  have hlen : (m.take r).length = r := by rw [List.length_take, Nat.min_eq_left h]
  have hn : padBlocks r m = padBlocks r (m.drop r) + 1 := by
    rw [padBlocks, padBlocks, List.length_drop, Nat.div_eq_sub_div hr h]
  rw [hn, blocks, pad_of_le p h, List.take_left' hlen, List.drop_left' hlen]

/-- A block in front of the message is the first block of the padded message. -/
theorem blocks_pad_append {r : Nat} (hr : 0 < r) (p : BitVec 8) {b : List (BitVec 8)}
    (hb : b.length = r) (m : List (BitVec 8)) :
    blocks r (padBlocks r (b ++ m)) (pad r p (b ++ m)) =
      b :: blocks r (padBlocks r m) (pad r p m) := by
  have hle : r ≤ (b ++ m).length := by
    rw [List.length_append]
    omega
  rw [blocks_pad_of_le hr p hle, List.take_left' hb, List.drop_left' hb]

/-- A message shorter than a block is padded to the single block `pad r p m`. -/
theorem blocks_pad_of_lt {r : Nat} (p : BitVec 8) {m : List (BitVec 8)} (h : m.length < r) :
    blocks r (padBlocks r m) (pad r p m) = [pad r p m] := by
  have hn : padBlocks r m = 1 := by rw [padBlocks, Nat.div_eq_of_lt h]
  have hlen : (pad r p m).length = r := by
    rw [length_pad (by omega), hn, Nat.one_mul]
  rw [hn, blocks, blocks, List.take_of_length_le (Nat.le_of_eq hlen)]

end Sponge
