import Mathlib.Algebra.Group.Nat.Defs
import Mathlib.Logic.Function.Iterate
import Mathlib.Tactic.Abel

/-!
# Spreading bits over a group

`spread a b` adds to every bit of a pattern over an abelian group, modulo 2, the bits at the offsets
`a` and `b`. Applying it twice doubles the offsets, so that over a group of finite exponent some
power of it is the identity, and it is injective.
-/

namespace Spread

variable {G : Type*} [AddCommGroup G]

/-- Adds to every bit the two bits at the offsets `a` and `b`. -/
def spread (a b : G) (C : G → Bool) (g : G) : Bool := C g ^^ C (g + a) ^^ C (g + b)

/-- Twice with the same offsets is once with the doubled offsets: the other terms cancel. -/
theorem spread_spread (a b : G) (C : G → Bool) :
    spread a b (spread a b C) = spread (a + a) (b + b) C := by
  funext g
  simp only [spread, add_assoc, add_comm b a]
  cases C g <;> cases C (g + a) <;> cases C (g + b) <;> cases C (g + (a + b)) <;>
    cases C (g + (a + a)) <;> cases C (g + (b + b)) <;> rfl

theorem iterate_spread (a b : G) (k : Nat) :
    (spread a b)^[2 ^ k] = spread ((2 ^ k) • a) ((2 ^ k) • b) := by
  induction k with
  | zero => rw [pow_zero, Function.iterate_one, one_nsmul, one_nsmul]
  | succ k ih =>
    funext C
    rw [pow_succ, Nat.mul_two, Function.iterate_add_apply, ih, spread_spread, ← add_nsmul,
      ← add_nsmul]

/-- In a cycle of five, spreading to both neighbours has order three. -/
theorem spread_neg_three {a : G} (h : a + a + a + a + a = 0) (C : G → Bool) :
    spread a (-a) (spread a (-a) (spread a (-a) C)) = C := by
  have hwrap : a + a + a = -a + -a := by
    rw [← sub_eq_zero, ← h]
    abel
  funext g
  have h1 : g + (a + a) + a = g + (-a + -a) := by rw [add_assoc, hwrap]
  have h2 : g + (a + a) + -a = g + a := by abel
  have h3 : g + (-a + -a) + a = g + -a := by abel
  have h4 : g + (-a + -a) + -a = g + (a + a) := by
    rw [← hwrap]
    abel
  rw [spread_spread, spread, spread, spread, spread, h1, h2, h3, h4]
  cases C g <;> cases C (g + a) <;> cases C (g + -a) <;> cases C (g + (a + a)) <;>
    cases C (g + (-a + -a)) <;> rfl

/-- If the offsets, doubled some number of times, are opposite steps in a cycle of five, spreading
is injective. -/
theorem spread_injective {a b c : G} (k : Nat) (ha : (2 ^ k : Nat) • a = c)
    (hb : (2 ^ k : Nat) • b = -c) (h : c + c + c + c + c = 0) :
    Function.Injective (spread a b) := by
  intro C C' hC
  obtain ⟨m, hm⟩ : ∃ m, 2 ^ k = m + 1 :=
    Nat.exists_eq_succ_of_ne_zero (Nat.ne_of_gt (Nat.two_pow_pos k))
  have hiter : (spread a b)^[2 ^ k] C = (spread a b)^[2 ^ k] C' := by
    rw [hm, Function.iterate_succ_apply, Function.iterate_succ_apply, hC]
  rw [iterate_spread, ha, hb] at hiter
  rw [← spread_neg_three h C, hiter, spread_neg_three h C']

end Spread
