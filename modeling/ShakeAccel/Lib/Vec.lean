import Mathlib.Data.List.Nodup

/-!
# Vectors read with a default

`Vector.getD` within and beyond the bounds, after an update and after a loop of updates.
-/

namespace Vec

/-- Reading a vector within its bounds does not use the default. -/
theorem getD_of_lt {α : Type*} {n i : Nat} (xs : Vector α n) (d : α) (h : i < n) :
    xs.getD i d = xs[i] := by
  simp [Vector.getD, Array.getD, h]

theorem getD_of_ge {α : Type*} {n i : Nat} (xs : Vector α n) (d : α) (h : n ≤ i) :
    xs.getD i d = d := by
  simp [Vector.getD, Array.getD, Nat.not_lt.2 h]

theorem getD_setIfInBounds {α : Type*} {n : Nat} (xs : Vector α n) (i j : Nat) (v d : α) :
    (xs.setIfInBounds i v).getD j d = if i = j ∧ j < n then v else xs.getD j d := by
  by_cases hj : j < n
  · rw [getD_of_lt _ _ hj, getD_of_lt _ _ hj, Vector.getElem_setIfInBounds]
    simp only [hj, and_true]
  · rw [getD_of_ge _ _ (Nat.not_lt.1 hj), getD_of_ge _ _ (Nat.not_lt.1 hj), if_neg (by omega)]

theorem get_set_self {α : Type*} {n i : Nat} (xs : Vector α n) (h : i < n) (v : α) :
    (xs.set i v h).get ⟨i, h⟩ = v :=
  Vector.getElem_set_self h

theorem get_set {α : Type*} {n : Nat} (xs : Vector α n) (i j : Fin n) (v : α) :
    (xs.set i v i.isLt).get j = if i = j then v else xs.get j := by
  have h : (xs.set i v i.isLt)[j.val] = if i.val = j.val then v else xs[j.val] :=
    Vector.getElem_set i.isLt j.isLt
  simp only [Fin.val_inj] at h
  exact h

/-- Two vectors that read alike within their bounds are equal. -/
theorem ext_getD {α : Type*} {n : Nat} {xs ys : Vector α n} (d : α)
    (h : ∀ i < n, xs.getD i d = ys.getD i d) : xs = ys := by
  apply Vector.ext
  intro i hi
  rw [← getD_of_lt xs d hi, ← getD_of_lt ys d hi, h i hi]

/-- The loop that sets the elements below `k`, element `i` to `f i`. -/
theorem getD_foldl_set {α : Type*} {n : Nat} (xs : Vector α n) (f : Nat → α) (d : α) (k j : Nat) :
    ((List.range k).foldl (fun xs i => xs.setIfInBounds i (f i)) xs).getD j d =
      if j < k ∧ j < n then f j else xs.getD j d := by
  induction k with
  | zero => rfl
  | succ k ih =>
    rw [List.range_succ, List.foldl_append, List.foldl_cons, List.foldl_nil, getD_setIfInBounds, ih]
    by_cases hjk : k = j
    · subst hjk
      by_cases hjn : k < n
      · rw [if_pos ⟨rfl, hjn⟩, if_pos ⟨Nat.lt_succ_self k, hjn⟩]
      · rw [if_neg fun h => hjn h.2, if_neg fun h => hjn h.2, if_neg fun h => hjn h.2]
    · rw [if_neg fun h => hjk h.1]
      by_cases hlt : j < k ∧ j < n
      · rw [if_pos hlt, if_pos (by omega)]
      · rw [if_neg hlt, if_neg (by omega)]

/-- The loop that sets the elements below `k` to one value. -/
theorem getD_fill {α : Type*} {n : Nat} (xs : Vector α n) (v d : α) (k j : Nat) :
    ((List.range k).foldl (fun xs i => xs.setIfInBounds i v) xs).getD j d =
      if j < k ∧ j < n then v else xs.getD j d :=
  getD_foldl_set xs (fun _ => v) d k j

/-- A loop that updates elements leaves the other elements as they are. -/
theorem getD_foldl_modify_of_notMem {α κ : Type*} {n : Nat} (pos : κ → Nat) (g : κ → α → α) (d : α)
    (xs : Vector α n) {ks : List κ} {j : Nat} (hj : j ∉ ks.map pos) :
    (ks.foldl (fun xs k => xs.setIfInBounds (pos k) (g k (xs.getD (pos k) d))) xs).getD j d =
      xs.getD j d := by
  induction ks generalizing xs with
  | nil => rfl
  | cons k ks ih =>
    rw [List.map_cons, List.mem_cons, not_or] at hj
    rw [List.foldl_cons, ih _ hj.2, getD_setIfInBounds, if_neg fun h => hj.1 h.1.symm]

/-- A loop that updates the elements at distinct positions updates each of them once. -/
theorem getD_foldl_modify {α κ : Type*} {n : Nat} (pos : κ → Nat) (g : κ → α → α) (d : α)
    (xs : Vector α n) {ks : List κ} (hnd : (ks.map pos).Nodup) {k : κ} (hk : k ∈ ks)
    (hpos : pos k < n) :
    (ks.foldl (fun xs k => xs.setIfInBounds (pos k) (g k (xs.getD (pos k) d))) xs).getD (pos k) d =
      g k (xs.getD (pos k) d) := by
  induction ks generalizing xs with
  | nil => cases hk
  | cons k' ks ih =>
    rw [List.map_cons, List.nodup_cons] at hnd
    rw [List.foldl_cons]
    rcases List.mem_cons.1 hk with rfl | hk'
    · rw [getD_foldl_modify_of_notMem _ _ _ _ hnd.1, getD_setIfInBounds, if_pos ⟨rfl, hpos⟩]
    · have hne : pos k' ≠ pos k := fun h => hnd.1 (h ▸ List.mem_map_of_mem hk')
      rw [ih _ hnd.2 hk', getD_setIfInBounds, if_neg fun h => hne h.1]

/-- A loop that stores computed values leaves the positions that it does not store to as they
are. -/
theorem getD_foldl_store_of_notMem {α κ : Type*} {n : Nat} (pos : κ → Nat)
    (val : Vector α n → κ → α) (d : α) (xs : Vector α n) {ks : List κ} {j : Nat}
    (hj : j ∉ ks.map pos) :
    (ks.foldl (fun xs k => xs.setIfInBounds (pos k) (val xs k)) xs).getD j d = xs.getD j d := by
  induction ks generalizing xs with
  | nil => rfl
  | cons k ks ih =>
    rw [List.map_cons, List.mem_cons, not_or] at hj
    rw [List.foldl_cons, ih _ hj.2, getD_setIfInBounds, if_neg fun h => hj.1 h.1.symm]

/-- A loop that stores computed values to distinct positions, when the values depend only on the
positions of `Q` and it stores to none of these: the values are those computed at its start. -/
theorem getD_foldl_store {α κ : Type*} {n : Nat} (pos : κ → Nat) (val : Vector α n → κ → α) (d : α)
    (Q : Nat → Prop) {ks : List κ} (hQ : ∀ k ∈ ks, ¬Q (pos k))
    (hval : ∀ k ∈ ks, ∀ xs ys : Vector α n, (∀ j, Q j → xs.getD j d = ys.getD j d) →
      val xs k = val ys k)
    (hnd : (ks.map pos).Nodup) (xs : Vector α n) {k : κ} (hk : k ∈ ks) (hpos : pos k < n) :
    (ks.foldl (fun xs k => xs.setIfInBounds (pos k) (val xs k)) xs).getD (pos k) d = val xs k := by
  induction ks generalizing xs with
  | nil => cases hk
  | cons k' ks ih =>
    rw [List.map_cons, List.nodup_cons] at hnd
    rw [List.foldl_cons]
    rcases List.mem_cons.1 hk with rfl | hk'
    · rw [getD_foldl_store_of_notMem _ _ _ _ hnd.1, getD_setIfInBounds, if_pos ⟨rfl, hpos⟩]
    · rw [ih (fun i hi => hQ i (.tail _ hi)) (fun i hi => hval i (.tail _ hi)) hnd.2 _ hk']
      refine hval k hk _ _ fun j hj => ?_
      rw [getD_setIfInBounds, if_neg]
      rintro ⟨rfl, -⟩
      exact hQ k' (.head _) hj

theorem getD_replicate {α : Type*} {n : Nat} (v d : α) {j : Nat} (hj : j < n) :
    (Vector.replicate n v).getD j d = v := by
  rw [getD_of_lt _ _ hj, Vector.getElem_replicate]

end Vec
