import Mathlib.Data.List.Basic

/-!
# Lists that are paired as they grow

Facts about `List.zipWith` and `List.take` where the lists are extended at their ends, as logs are.
-/

namespace Pairing

variable {α β γ : Type*} {f : α → β → γ}

/-- What is beyond the other list does not matter. -/
theorem zipWith_append_left {as : List α} {bs : List β} (h : bs.length ≤ as.length)
    (as' : List α) : List.zipWith f (as ++ as') bs = List.zipWith f as bs := by
  induction as generalizing bs with
  | nil => rw [List.length_eq_zero_iff.1 (Nat.le_zero.1 h), List.zipWith_nil_right,
      List.zipWith_nil_right]
  | cons a as ih =>
    cases bs with
    | nil => rfl
    | cons b bs => rw [List.cons_append, List.zipWith_cons_cons, List.zipWith_cons_cons,
        ih (Nat.le_of_succ_le_succ h)]

/-- One more element on the right. -/
theorem zipWith_concat {as : List α} {bs : List β} {a : α} (h : as[bs.length]? = some a) (b : β) :
    List.zipWith f as (bs ++ [b]) = List.zipWith f as bs ++ [f a b] := by
  induction bs generalizing as with
  | nil =>
    cases as with
    | nil => cases h
    | cons a' as =>
      obtain rfl := Option.some.inj h
      rw [List.nil_append, List.zipWith_cons_cons, List.zipWith_nil_right, List.zipWith_nil_right,
        List.nil_append]
  | cons b' bs ih =>
    cases as with
    | nil => cases h
    | cons a' as => rw [List.cons_append, List.zipWith_cons_cons, List.zipWith_cons_cons, ih h,
        List.cons_append]

/-- Pairing keeps prefixes. -/
theorem prefix_zipWith {as as' : List α} {bs bs' : List β} (ha : as <+: as') (hb : bs <+: bs') :
    List.zipWith f as bs <+: List.zipWith f as' bs' := by
  rw [List.prefix_iff_getElem?]
  intro k hk
  rw [List.length_zipWith, Nat.lt_min] at hk
  rw [List.getElem?_zipWith, List.prefix_iff_getElem?.1 ha k hk.1,
    List.prefix_iff_getElem?.1 hb k hk.2, List.getElem_zipWith]

/-- One more element of a growing list. -/
theorem take_succ_append {as as' : List α} {k : Nat} (hk : k ≤ as.length) {a : α}
    (h : (as ++ as')[k]? = some a) : (as ++ as').take (k + 1) = as.take k ++ [a] := by
  rw [List.take_add_one, h, Option.toList_some, List.take_append_of_le_length hk]

end Pairing
