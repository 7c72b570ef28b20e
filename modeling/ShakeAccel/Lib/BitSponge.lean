import Mathlib.Data.List.GetD
import ShakeAccel.Lib.Sponge

/-!
# Sponges over bit strings

The sponge construction for messages of any number of bits, with the padding `10*1`: a one, the
least number of zeros, a one. `absorbWhole` absorbs the whole blocks of a bit string, `final` the
padded message. A duplex object absorbs one padded input a call; by the duplexing-sponge lemma
(`duplex_concat`) its state after a call is that of a sponge on the inputs so far, all but the last
one padded.
-/

namespace BitSponge

open Sponge

variable {σ : Type*}

/-- The first `n` bits of a byte string, each byte from its least significant bit on. -/
def bits (b : Nat → BitVec 8) (n : Nat) : List Bool :=
  (List.range n).map fun i => (b (i / 8)).getLsbD (i % 8)

@[simp] theorem length_bits (b : Nat → BitVec 8) (n : Nat) : (bits b n).length = n := by
  rw [bits, List.length_map, List.length_range]

theorem getD_bits (b : Nat → BitVec 8) {n i : Nat} (h : i < n) :
    (bits b n).getD i false = (b (i / 8)).getLsbD (i % 8) := by
  rw [bits, List.getD_eq_getElem?_getD, List.getElem?_map, List.getElem?_range h]
  rfl

/-- A bit string that agrees with the bytes is the string of their bits. -/
theorem bits_eq_of_getD {b : Nat → BitVec 8} {n : Nat} {l : List Bool} (hl : l.length = n)
    (h : ∀ i < n, (b (i / 8)).getLsbD (i % 8) = l.getD i false) : bits b n = l := by
  apply List.ext_getElem (by rw [length_bits, hl])
  intro i hi hi'
  have hn : i < n := by rwa [length_bits] at hi
  have hget := h i hn
  rw [List.getD_eq_getElem _ _ hi', ← getD_bits b hn, List.getD_eq_getElem _ _ hi] at hget
  exact hget

theorem bits_congr {a b : Nat → BitVec 8} {n : Nat} (h : ∀ k, 8 * k < n → a k = b k) :
    bits a n = bits b n := by
  refine List.map_congr_left fun i hi => ?_
  have := List.mem_range.1 hi
  rw [h (i / 8) (by omega)]

/-- Bits after whole bytes. -/
theorem bits_add (b : Nat → BitVec 8) {p : Nat} (hp : p % 8 = 0) (n : Nat) :
    bits b (p + n) = bits b p ++ bits (fun k => b (p / 8 + k)) n := by
  rw [bits, List.range_add, List.map_append, List.map_map]
  congr 1
  refine List.map_congr_left fun i _ => ?_
  have hdiv : (p + i) / 8 = p / 8 + i / 8 := by omega
  have hmod : (p + i) % 8 = i % 8 := by omega
  rw [Function.comp_apply, hdiv, hmod]

/-- The padding `10*1` of a message, for blocks of `r` bits. -/
def pad (r : Nat) (m : List Bool) : List Bool :=
  m ++ true :: (List.replicate ((r - (m.length + 2) % r) % r) false ++ [true])

theorem length_pad (r : Nat) (m : List Bool) :
    (pad r m).length = m.length + 2 + (r - (m.length + 2) % r) % r := by
  rw [pad, List.length_append, List.length_cons, List.length_append, List.length_replicate,
    List.length_singleton]
  omega

/-- The padded message fills its blocks. -/
theorem length_pad_mod {r : Nat} (hr : 0 < r) (m : List Bool) : (pad r m).length % r = 0 := by
  have hlt := Nat.mod_lt (m.length + 2) hr
  rw [length_pad, Nat.add_mod, Nat.mod_mod]
  rcases Nat.eq_zero_or_pos ((m.length + 2) % r) with h | h
  · rw [h, Nat.sub_zero, Nat.mod_self, Nat.add_zero, Nat.zero_mod]
  · rw [Nat.mod_eq_of_lt (show r - (m.length + 2) % r < r by omega),
      show (m.length + 2) % r + (r - (m.length + 2) % r) = r by omega, Nat.mod_self]

/-- Whole blocks in front of a message stay in front of the padded message. -/
theorem pad_append {r : Nat} {b : List Bool} (hb : b.length % r = 0) (m : List Bool) :
    pad r (b ++ m) = b ++ pad r m := by
  rw [pad, pad, List.length_append, Nat.add_assoc, Nat.add_mod b.length, hb, Nat.zero_add,
    Nat.mod_mod, List.append_assoc]

/-- A message that leaves two bits of a block is padded to that block. -/
theorem pad_of_add_two_le {r : Nat} {m : List Bool} (h : m.length + 2 ≤ r) :
    pad r m = m ++ true :: (List.replicate (r - 2 - m.length) false ++ [true]) := by
  rw [pad]
  rcases Nat.lt_or_eq_of_le h with hlt | heq
  · rw [Nat.mod_eq_of_lt hlt, Nat.mod_eq_of_lt (by omega),
      show r - (m.length + 2) = r - 2 - m.length by omega]
  · rw [heq, Nat.mod_self, Nat.sub_zero, Nat.mod_self, show r - 2 - m.length = 0 by omega]

theorem length_pad_of_add_two_le {r : Nat} {m : List Bool} (h : m.length + 2 ≤ r) :
    (pad r m).length = r := by
  rw [pad_of_add_two_le h, List.length_append, List.length_cons, List.length_append,
    List.length_replicate, List.length_singleton]
  omega

/-- A message that leaves one bit of a block: the padding's first bit fills the block, and a block
of zeros with the last bit set follows. -/
theorem pad_of_add_one_eq {r : Nat} (hr : 1 < r) {m : List Bool} (h : m.length + 1 = r) :
    pad r m = (m ++ [true]) ++ (List.replicate (r - 1) false ++ [true]) := by
  have hmod : (m.length + 2) % r = 1 := by
    rw [← h, show m.length + 2 = m.length + 1 + 1 by omega, Nat.add_mod_left,
      Nat.mod_eq_of_lt (by omega)]
  rw [pad, hmod, Nat.mod_eq_of_lt (by omega), List.append_assoc]
  rfl

/-- The bits of a message and a one behind it. -/
theorem getD_append_true (m : List Bool) (i : Nat) :
    (m ++ [true]).getD i false = (m.getD i false || decide (m.length = i)) := by
  rcases Nat.lt_trichotomy i m.length with h | rfl | h
  · rw [List.getD_append _ _ _ _ h, decide_eq_false (by omega), Bool.or_false]
  · rw [List.getD_append_right _ _ _ _ (Nat.le_refl _), Nat.sub_self, decide_eq_true rfl,
      Bool.or_true]
    rfl
  · rw [List.getD_eq_default _ _ (by rw [List.length_append, List.length_singleton]; omega),
      List.getD_eq_default _ _ (Nat.le_of_lt h), decide_eq_false (by omega), Bool.or_false]

theorem getD_replicate_false (n i : Nat) : (List.replicate n false).getD i false = false := by
  by_cases h : i < n
  · rw [List.getD_eq_getElem _ _ (by rwa [List.length_replicate]), List.getElem_replicate]
  · exact List.getD_eq_default _ _ (by rw [List.length_replicate]; omega)

/-- The bits of a padded message: those of the message, the one behind it, and the last one. -/
theorem getD_pad (r : Nat) (m : List Bool) (i : Nat) :
    (pad r m).getD i false =
      (m.getD i false || decide (m.length = i) || decide ((pad r m).length - 1 = i)) := by
  generalize hz : (r - (m.length + 2) % r) % r = z
  have hsplit : pad r m = (m ++ true :: List.replicate z false) ++ [true] := by
    rw [pad, hz, List.append_assoc]
    rfl
  have hlast : (pad r m).length - 1 = (m ++ true :: List.replicate z false).length := by
    simp only [hsplit, List.length_append, List.length_singleton, Nat.add_sub_cancel]
  have hone : (m ++ true :: List.replicate z false).getD i false = (m ++ [true]).getD i false := by
    rw [← List.singleton_append, ← List.append_assoc]
    by_cases hi : i < (m ++ [true]).length
    · rw [List.getD_append _ _ _ _ hi]
    · rw [List.getD_append_right _ _ _ _ (by omega), getD_replicate_false,
        List.getD_eq_default _ _ (by omega)]
  rw [hlast, hsplit, getD_append_true, hone, getD_append_true]

/-! ## Absorbing -/

/-- Whole blocks of the bits of a byte string. -/
theorem blocks_bits (b : Nat → BitVec 8) {r : Nat} (h8 : r % 8 = 0) (n : Nat) :
    blocks r n (bits b (r * n)) =
      (List.range n).map fun j => bits (fun k => b (j * (r / 8) + k)) r := by
  induction n with
  | zero => rfl
  | succ n ih =>
    have hdvd : 8 ∣ r := Nat.dvd_of_mod_eq_zero h8
    have hmod : r * n % 8 = 0 := Nat.mod_eq_zero_of_dvd (Nat.dvd_trans hdvd (Nat.dvd_mul_right r n))
    have hdiv : r * n / 8 = n * (r / 8) := by
      rw [Nat.mul_comm, Nat.mul_div_assoc _ hdvd]
    have hlen := length_bits b (r * n)
    rw [Nat.mul_succ, bits_add b hmod, blocks_succ, blocks_append (Nat.le_of_eq hlen.symm), ih,
      List.drop_left' hlen, List.take_of_length_le (Nat.le_of_eq (length_bits _ _)), hdiv,
      List.range_succ, List.map_append, List.map_singleton]

/-- The state after the whole blocks of a bit string. -/
def absorbWhole (f : σ → σ) (g : σ → List Bool → σ) (r : Nat) (s : σ) (m : List Bool) : σ :=
  absorb f g s (blocks r (m.length / r) m)

/-- The state after the padded message. -/
def final (f : σ → σ) (g : σ → List Bool → σ) (r : Nat) (s : σ) (m : List Bool) : σ :=
  absorbWhole f g r s (pad r m)

section
variable {f : σ → σ} {g : σ → List Bool → σ} {r : Nat}

theorem absorbWhole_of_lt (s : σ) {m : List Bool} (h : m.length < r) :
    absorbWhole f g r s m = s := by
  rw [absorbWhole, Nat.div_eq_of_lt h, blocks, absorb_nil]

theorem absorbWhole_cons (hr : 0 < r) (s : σ) {b : List Bool} (hb : b.length = r) (m : List Bool) :
    absorbWhole f g r s (b ++ m) = absorbWhole f g r (f (g s b)) m := by
  have hn : (b ++ m).length / r = m.length / r + 1 := by
    rw [List.length_append, hb, Nat.add_div_left _ hr]
  rw [absorbWhole, hn, blocks, List.take_left' hb, List.drop_left' hb, absorb_cons, absorbWhole]

theorem absorbWhole_block (hr : 0 < r) (s : σ) {b : List Bool} (hb : b.length = r) :
    absorbWhole f g r s b = f (g s b) := by
  have h := absorbWhole_cons (f := f) (g := g) hr s hb []
  rwa [List.append_nil, absorbWhole_of_lt (m := []) _ hr] at h

/-- Whole blocks are absorbed before what follows them. -/
theorem absorbWhole_append (hr : 0 < r) (s : σ) {b : List Bool} (hb : b.length % r = 0)
    (m : List Bool) :
    absorbWhole f g r s (b ++ m) = absorbWhole f g r (absorbWhole f g r s b) m := by
  induction h : b.length / r generalizing s b with
  | zero =>
    have hlen : b.length = 0 := by
      rw [← Nat.div_add_mod b.length r, h, hb, Nat.mul_zero]
    obtain rfl := List.length_eq_zero_iff.1 hlen
    rw [absorbWhole_of_lt (m := []) s hr, List.nil_append]
  | succ n ih =>
    have hle : r ≤ b.length := by
      by_contra hlt
      rw [Nat.div_eq_of_lt (by omega)] at h
      exact absurd h (Nat.succ_ne_zero n).symm
    have htake : (b.take r).length = r := by rw [List.length_take, Nat.min_eq_left hle]
    have hmod : (b.drop r).length % r = 0 := by rw [List.length_drop, ← Nat.mod_eq_sub_mod hle, hb]
    have hdiv : (b.drop r).length / r = n := by
      rw [Nat.div_eq_sub_div hr hle] at h
      rw [List.length_drop]
      omega
    rw [← List.take_append_drop r b, List.append_assoc, absorbWhole_cons hr s htake,
      absorbWhole_cons hr s htake, ih _ hmod hdiv]

/-- The whole blocks of the message are absorbed before its padded rest. -/
theorem final_append (hr : 0 < r) (s : σ) {b : List Bool} (hb : b.length % r = 0) (m : List Bool) :
    final f g r s (b ++ m) = final f g r (absorbWhole f g r s b) m := by
  rw [final, pad_append hb, absorbWhole_append hr s hb, final]

/-- A message that leaves two bits of a block needs one call of the permutation. -/
theorem final_of_add_two_le (s : σ) {m : List Bool} (h : m.length + 2 ≤ r) :
    final f g r s m = f (g s (pad r m)) := by
  rw [final, absorbWhole_block (by omega) s (length_pad_of_add_two_le h)]

/-- A message that leaves one bit of a block needs two. -/
theorem final_of_add_one_eq (hr : 1 < r) (s : σ) {m : List Bool} (h : m.length + 1 = r) :
    final f g r s m =
      f (g (f (g s (m ++ [true]))) (List.replicate (r - 1) false ++ [true])) := by
  have h1 : (m ++ [true]).length = r := by rw [List.length_append, List.length_singleton, h]
  have h2 : (List.replicate (r - 1) false ++ [true]).length = r := by
    rw [List.length_append, List.length_replicate, List.length_singleton]
    omega
  rw [final, pad_of_add_one_eq hr h, absorbWhole_cons (by omega) s h1,
    absorbWhole_block (by omega) _ h2]

end

/-! ## The incomplete block -/

/-- The whole blocks of a bit string. -/
def whole (r : Nat) (m : List Bool) : List Bool := m.take (r * (m.length / r))

/-- What follows the whole blocks of a bit string. -/
def rest (r : Nat) (m : List Bool) : List Bool := m.drop (r * (m.length / r))

theorem whole_append_rest (r : Nat) (m : List Bool) : whole r m ++ rest r m = m :=
  List.take_append_drop _ m

theorem length_whole_mod (r : Nat) (m : List Bool) : (whole r m).length % r = 0 := by
  rw [whole, List.length_take, Nat.min_eq_left (Nat.mul_div_le _ _), Nat.mul_mod_right]

theorem length_rest (r : Nat) (m : List Bool) : (rest r m).length = m.length % r := by
  have := Nat.div_add_mod m.length r
  rw [rest, List.length_drop]
  omega

theorem rest_of_mod_eq_zero {r : Nat} {m : List Bool} (h : m.length % r = 0) : rest r m = [] := by
  rw [← List.length_eq_zero_iff, length_rest, h]

theorem rest_append_of_lt {r : Nat} {m m' : List Bool}
    (h : m.length % r + m'.length < r) : rest r (m ++ m') = rest r m ++ m' := by
  have hle : r * (m.length / r) ≤ m.length := Nat.mul_div_le _ _
  have hdiv : (m ++ m').length / r = m.length / r := by
    have := Nat.div_add_mod m.length r
    rw [List.length_append]
    refine Nat.div_eq_of_lt_le ?_ ?_
    · rw [Nat.mul_comm]
      omega
    · rw [Nat.add_mul, Nat.mul_comm]
      omega
  rw [rest, hdiv, List.drop_append_of_le_length hle, rest]

section
variable {f : σ → σ} {g : σ → List Bool → σ} {r : Nat}

theorem absorbWhole_whole (hr : 0 < r) (s : σ) (m : List Bool) :
    absorbWhole f g r s (whole r m) = absorbWhole f g r s m := by
  have hlt : (rest r m).length < r := by
    rw [length_rest]
    exact Nat.mod_lt _ hr
  have h := absorbWhole_append (f := f) (g := g) hr s (length_whole_mod r m) (rest r m)
  rw [whole_append_rest, absorbWhole_of_lt _ hlt] at h
  exact h.symm

/-- The whole blocks of a bit string, then its incomplete block with what is appended. -/
theorem absorbWhole_rest (hr : 0 < r) (s : σ) (m m' : List Bool) :
    absorbWhole f g r s (m ++ m') =
      absorbWhole f g r (absorbWhole f g r s m) (rest r m ++ m') := by
  have h := absorbWhole_append (f := f) (g := g) hr s (length_whole_mod r m) (rest r m ++ m')
  rwa [← List.append_assoc, whole_append_rest, absorbWhole_whole hr] at h

/-- The padded message is absorbed as its whole blocks and its padded incomplete block. -/
theorem final_rest (hr : 0 < r) (s : σ) (m : List Bool) :
    final f g r s m = final f g r (absorbWhole f g r s m) (rest r m) := by
  have h := final_append (f := f) (g := g) hr s (length_whole_mod r m) (rest r m)
  rwa [whole_append_rest, absorbWhole_whole hr] at h

end

/-! ## Duplex objects -/

/-- The state of a duplex object after a sequence of inputs. -/
def duplex (f : σ → σ) (g : σ → List Bool → σ) (r : Nat) (s : σ) (ins : List (List Bool)) : σ :=
  ins.foldl (fun s i => f (g s (pad r i))) s

/-- The inputs of a duplex object, all padded. -/
def padded (r : Nat) (ins : List (List Bool)) : List Bool := (ins.map (pad r)).flatten

section
variable {f : σ → σ} {g : σ → List Bool → σ} {r : Nat}

theorem duplex_eq_absorbWhole (hr : 0 < r) (s : σ) {ins : List (List Bool)}
    (h : ∀ i ∈ ins, i.length + 2 ≤ r) :
    (padded r ins).length % r = 0 ∧
      duplex f g r s ins = absorbWhole f g r s (padded r ins) := by
  induction ins generalizing s with
  | nil => exact ⟨Nat.zero_mod r, (absorbWhole_of_lt (m := []) s hr).symm⟩
  | cons i ins ih =>
    have hi := length_pad_of_add_two_le (h i (.head _))
    obtain ⟨hlen, heq⟩ := ih (f (g s (pad r i))) fun j hj => h j (.tail _ hj)
    have hcons : padded r (i :: ins) = pad r i ++ padded r ins := rfl
    refine ⟨by rw [hcons, List.length_append, hi, Nat.add_mod_left, hlen], ?_⟩
    rw [hcons, absorbWhole_cons hr s hi, ← heq]
    rfl

/-- **Duplexing-sponge lemma.** The state of a duplex object after a call is the state of a sponge
that has absorbed the padded earlier inputs followed by the input of the call. -/
theorem duplex_concat (hr : 0 < r) (s : σ) {ins : List (List Bool)} {i : List Bool}
    (h : ∀ j ∈ ins, j.length + 2 ≤ r) (hi : i.length + 2 ≤ r) :
    duplex f g r s (ins ++ [i]) = final f g r s (padded r ins ++ i) := by
  obtain ⟨hlen, heq⟩ := duplex_eq_absorbWhole (f := f) (g := g) hr s h
  rw [final_append hr s hlen, final_of_add_two_le _ hi, ← heq, duplex, List.foldl_append]
  rfl

end

end BitSponge
