import Mathlib.Algebra.GroupWithZero.Nat
import Mathlib.Data.Nat.Log

/-!
# Encodings of numbers and byte strings

The encodings with which a hash function separates its inputs: a number behind the count of its
bytes (`leftEncode`), a byte string behind its length in bits (`encodeString`), and a byte string
behind the length of a block, filled up to whole blocks with zeros (`bytepad`).
-/

namespace Encode

/-- The least positive number of bytes in which a number can be written. -/
def byteCount (x : Nat) : Nat := Nat.log 256 x + 1

theorem byteCount_le {x n : Nat} (hn : n ≠ 0) (h : x < 256 ^ n) : byteCount x ≤ n :=
  Nat.log_lt_of_lt_pow' hn h

/-- The count of the bytes of `x`, then these bytes, the most significant first. -/
def leftEncode (x : Nat) : List (BitVec 8) :=
  BitVec.ofNat 8 (byteCount x) ::
    (List.range (byteCount x)).map fun i => BitVec.ofNat 8 (x / 256 ^ (byteCount x - 1 - i))

/-- A number of one byte. -/
theorem leftEncode_of_lt {x : Nat} (h : x < 256) : leftEncode x = [1, BitVec.ofNat 8 x] := by
  have hcount : byteCount x = 1 :=
    Nat.le_antisymm (byteCount_le Nat.one_ne_zero (by rwa [Nat.pow_one])) (Nat.succ_pos _)
  rw [leftEncode, hcount, List.range_one, List.map_singleton, Nat.pow_zero, Nat.div_one]
  rfl

example : leftEncode 300 = [2, 1, 44] := by decide

/-- A byte string behind its length in bits. -/
def encodeString (s : List (BitVec 8)) : List (BitVec 8) := leftEncode (8 * s.length) ++ s

/-- The byte string `x` behind the block length `w`, filled up with zeros to a multiple of `w`. -/
def bytepad (x : List (BitVec 8)) (w : Nat) : List (BitVec 8) :=
  leftEncode w ++ x ++ List.replicate ((w - (leftEncode w ++ x).length % w) % w) 0

section
variable {x : List (BitVec 8)} {w : Nat}

/-- A byte string that fits into one block. -/
theorem bytepad_of_le (h : (leftEncode w ++ x).length ≤ w) :
    bytepad x w = leftEncode w ++ x ++ List.replicate (w - (leftEncode w ++ x).length) 0 := by
  have hpos : 0 < (leftEncode w ++ x).length := by
    rw [List.length_append, leftEncode, List.length_cons]
    omega
  have hfill : (w - (leftEncode w ++ x).length % w) % w = w - (leftEncode w ++ x).length := by
    rcases Nat.lt_or_eq_of_le h with hlt | heq
    · rw [Nat.mod_eq_of_lt hlt, Nat.mod_eq_of_lt (by omega)]
    · rw [heq, Nat.mod_self, Nat.sub_zero, Nat.mod_self, Nat.sub_self]
  rw [bytepad, hfill]

theorem length_bytepad_of_le (h : (leftEncode w ++ x).length ≤ w) : (bytepad x w).length = w := by
  rw [bytepad_of_le h]
  simp only [List.length_append, List.length_replicate] at h ⊢
  omega

end

end Encode
