import Mathlib.Data.Nat.Count
import Mathlib.Data.Nat.Find

/-!
# High-water marks

How far a region of memory has been used is the highest marked word of the region, counted from 1.
The number of marked words is a different measure: the two agree exactly if no word below a marked
one was skipped (`NoGap`). A region is scanned by a loop over a pointer (`foldl_descend`).
-/

namespace Watermark

/-- A loop that moves a pointer down by `stride` sees the addresses `a - i * stride`. -/
theorem foldl_descend {w : Nat} {γ : Type*} (f : γ → BitVec w → γ) (a stride : BitVec w) (x : γ)
    (n : Nat) :
    (List.range n).foldl (fun s _ => (s.1 - stride, f s.2 s.1)) (a, x) =
      (a - BitVec.ofNat w n * stride,
        (List.range n).foldl (fun x i => f x (a - BitVec.ofNat w i * stride)) x) := by
  induction n with
  | zero =>
    rw [List.range_zero, List.foldl_nil, List.foldl_nil, BitVec.zero_mul, BitVec.sub_zero]
  | succ n ih =>
    have hptr : a - BitVec.ofNat w n * stride - stride = a - BitVec.ofNat w (n + 1) * stride := by
      rw [BitVec.ofNat_add, BitVec.add_mul, BitVec.one_mul, BitVec.sub_sub]
    rw [List.range_succ, List.foldl_append, ih, List.foldl_append, List.foldl_cons, List.foldl_nil,
      List.foldl_cons, List.foldl_nil, hptr]

variable {p q : Nat → Prop} [DecidablePred p] [DecidablePred q]

/-- Below a marked word every word of the region is marked. -/
def NoGap (p : Nat → Prop) (n : Nat) : Prop := ∀ d ≤ n, p d → ∀ e, 1 ≤ e → e ≤ d → p e

theorem count_congr {n : Nat} (h : ∀ d < n, p d ↔ q d) : Nat.count p n = Nat.count q n :=
  Nat.le_antisymm (Nat.count_mono_left fun d hd => (h d hd).1)
    (Nat.count_mono_left fun d hd => (h d hd).2)

theorem findGreatest_congr {n : Nat} (h : ∀ d ≤ n, p d ↔ q d) :
    Nat.findGreatest p n = Nat.findGreatest q n := by
  induction n with
  | zero => rfl
  | succ n ih =>
    rw [Nat.findGreatest_succ, Nat.findGreatest_succ, ih fun d hd => h d (Nat.le_succ_of_le hd)]
    simp only [h (n + 1) (Nat.le_refl _)]

/-- The whole region is marked. -/
theorem count_eq_iff (h0 : ¬p 0) (n : Nat) :
    Nat.count p (n + 1) = n ↔ ∀ e, 1 ≤ e → e ≤ n → p e := by
  rw [Nat.count_succ', if_neg h0, Nat.add_zero, Nat.count_iff_forall]
  constructor
  · intro h e h1 he
    have hp := h (e - 1) (by omega)
    rwa [Nat.sub_add_cancel h1] at hp
  · intro h e he
    exact h (e + 1) (Nat.succ_pos e) he

/-- **Counting marked words is measuring the highest one** exactly if no word was skipped. -/
theorem count_eq_findGreatest_iff (h0 : ¬p 0) (n : Nat) :
    Nat.count p (n + 1) = Nat.findGreatest p n ↔ NoGap p n := by
  induction n with
  | zero =>
    rw [Nat.count_succ, if_neg h0, Nat.count_zero, Nat.findGreatest_zero]
    refine iff_of_true rfl fun d hd hp => absurd hp ?_
    obtain rfl := Nat.le_zero.1 hd
    exact h0
  | succ n ih =>
    rw [Nat.count_succ, Nat.findGreatest_succ]
    by_cases hn : p (n + 1)
    · rw [if_pos hn, if_pos hn, Nat.add_right_cancel_iff, count_eq_iff h0]
      constructor
      · intro h d hd _ e h1 he
        rcases Nat.lt_or_eq_of_le (Nat.le_trans he hd) with hlt | rfl
        · exact h e h1 (Nat.le_of_lt_succ hlt)
        · exact hn
      · intro h e h1 he
        exact h (n + 1) (Nat.le_refl _) hn e h1 (Nat.le_succ_of_le he)
    · rw [if_neg hn, if_neg hn, Nat.add_zero, ih]
      constructor
      · intro h d hd hp
        rcases Nat.lt_or_eq_of_le hd with hlt | rfl
        · exact h d (Nat.le_of_lt_succ hlt) hp
        · exact absurd hp hn
      · intro h d hd
        exact h d (Nat.le_succ_of_le hd)

end Watermark
