import Mathlib.Data.Nat.Basic

/-!
# Bits and bytes of bit vectors

A bit vector is built from a function of bit positions (`ofBits`) or of byte positions (`ofBytes`),
read byte by byte (`byteAt`, little-endian) and overwritten under a byte mask (`mergeBytes`).
Everything here is about bit vectors of any width.
-/

namespace Bits

variable {w : Nat}

/-- The bit vector whose bit `i` is `f i`. -/
def ofBits (w : Nat) (f : Nat → Bool) : BitVec w :=
  (BitVec.ofBoolListLE ((List.range w).map f)).cast (by simp)

@[simp] theorem getLsbD_ofBits (f : Nat → Bool) (i : Nat) :
    (ofBits w f).getLsbD i = (decide (i < w) && f i) := by
  rw [ofBits, BitVec.getLsbD_cast, BitVec.getLsbD_ofBoolListLE, List.getD_eq_getElem?_getD,
    List.getElem?_map]
  by_cases h : i < w
  · simp [h]
  · simp [h]

/-- Byte `k` of a bit vector, counted from the least significant end. -/
def byteAt (v : BitVec w) (k : Nat) : BitVec 8 :=
  v.extractLsb' (8 * k) 8

theorem getLsbD_byteAt (v : BitVec w) (k i : Nat) :
    (byteAt v k).getLsbD i = (decide (i < 8) && v.getLsbD (8 * k + i)) := by
  simp [byteAt]

/-- A byte is what a shift moves to the low end. -/
theorem setWidth_ushiftRight (v : BitVec w) (k : Nat) :
    (v >>> (8 * k)).setWidth 8 = byteAt v k := by
  apply BitVec.eq_of_getLsbD_eq
  intro i _
  rw [getLsbD_byteAt, BitVec.getLsbD_setWidth, BitVec.getLsbD_ushiftRight]

/-- Two bit vectors of `8 * n` bits with the same bytes are equal. -/
theorem eq_of_byteAt_eq {n : Nat} (hw : w = 8 * n) {u v : BitVec w}
    (h : ∀ k < n, byteAt u k = byteAt v k) : u = v := by
  apply BitVec.eq_of_getLsbD_eq
  intro i hi
  have hb := congrArg (·.getLsbD (i % 8)) (h (i / 8) (by omega))
  simp only [getLsbD_byteAt, Nat.mod_lt i (show 8 > 0 by omega), decide_true, Bool.true_and] at hb
  rwa [show 8 * (i / 8) + i % 8 = i by omega] at hb

@[simp] theorem byteAt_zero (k : Nat) : byteAt (0 : BitVec w) k = 0 := by
  apply BitVec.eq_of_getLsbD_eq
  intro i _
  rw [getLsbD_byteAt, BitVec.ofNat_eq_ofNat, BitVec.ofNat_eq_ofNat, BitVec.getLsbD_zero,
    BitVec.getLsbD_zero, Bool.and_false]

theorem byteAt_xor (u v : BitVec w) (k : Nat) : byteAt (u ^^^ v) k = byteAt u k ^^^ byteAt v k := by
  apply BitVec.eq_of_getLsbD_eq
  intro i hi
  simp only [BitVec.getLsbD_xor, getLsbD_byteAt, hi, decide_true, Bool.true_and]

/-- The bit vector whose byte `k` is `f k`. -/
def ofBytes (w : Nat) (f : Nat → BitVec 8) : BitVec w :=
  ofBits w fun i => (f (i / 8)).getLsbD (i % 8)

theorem byteAt_ofBytes {n : Nat} (hw : w = 8 * n) (f : Nat → BitVec 8) {k : Nat} (hk : k < n) :
    byteAt (ofBytes w f) k = f k := by
  apply BitVec.eq_of_getLsbD_eq
  intro i hi
  have hd : (8 * k + i) / 8 = k := by omega
  have hm : (8 * k + i) % 8 = i := by omega
  have hlt : 8 * k + i < w := by omega
  simp only [getLsbD_byteAt, ofBytes, getLsbD_ofBits, hd, hm, hlt, hi, decide_true, Bool.true_and]

/-- A byte moved to byte position `b`. -/
theorem byteAt_setWidth_shiftLeft {n : Nat} (hw : w = 8 * n) (d : BitVec 8) {b k : Nat}
    (hk : k < n) : byteAt (d.setWidth w <<< (8 * b)) k = if k = b then d else 0 := by
  apply BitVec.eq_of_getLsbD_eq
  intro i hi
  simp only [getLsbD_byteAt, BitVec.getLsbD_shiftLeft, BitVec.getLsbD_setWidth, hi, decide_true,
    Bool.true_and, show 8 * k + i < w by omega]
  rcases Nat.lt_trichotomy k b with h | h | h
  · rw [if_neg (by omega), decide_eq_true (by omega : 8 * k + i < 8 * b)]
    simp
  · subst h
    rw [if_pos rfl, decide_eq_false (by omega), show 8 * k + i - 8 * k = i by omega,
      decide_eq_true (by omega)]
    simp
  · rw [if_neg (by omega), BitVec.getLsbD_of_ge d _ (by omega)]
    simp

/-- `old` with the bytes that the mask enables taken from `new`. -/
def mergeBytes (be : Nat → Bool) (old new : BitVec w) : BitVec w :=
  ofBits w fun i => if be (i / 8) then new.getLsbD i else old.getLsbD i

theorem byteAt_mergeBytes {n : Nat} (hw : w = 8 * n) (be : Nat → Bool) (old new : BitVec w)
    {k : Nat} (hk : k < n) :
    byteAt (mergeBytes be old new) k = if be k then byteAt new k else byteAt old k := by
  apply BitVec.eq_of_getLsbD_eq
  intro i hi
  have hd : (8 * k + i) / 8 = k := by omega
  have hlt : 8 * k + i < w := by omega
  simp only [getLsbD_byteAt, mergeBytes, getLsbD_ofBits, hd, hlt, hi, decide_true, Bool.true_and]
  split <;> simp only [getLsbD_byteAt, hi, decide_true, Bool.true_and]

/-- Merging the same bytes again changes nothing. -/
theorem mergeBytes_idem (be : Nat → Bool) (old new : BitVec w) :
    mergeBytes be (mergeBytes be old new) new = mergeBytes be old new := by
  apply BitVec.eq_of_getLsbD_eq
  intro i hi
  simp only [mergeBytes, getLsbD_ofBits, hi, decide_true, Bool.true_and]
  cases be (i / 8) <;> rfl

end Bits
