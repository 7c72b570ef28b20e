import Mathlib.Data.Nat.ModEq
import Mathlib.Data.List.Basic

/-!
# Queues in ring buffers

A vector of `d` cells read as a ring holds a queue: the element `i` of the queue is in the cell
`(p + i) % d`, where `p` is the position to pop from. A push fills the cell after the last element,
a pop moves `p` on.
-/

namespace Ring

variable {α : Type*} {d p : Nat} {cells : Vector α d} {q : List α} {x : α}

/-- The ring holds the queue `q` from position `p` on. -/
structure Holds (cells : Vector α d) (p : Nat) (q : List α) : Prop where
  length_le : q.length ≤ d
  cell : ∀ i (hi : i < q.length), cells[(p + i) % d]? = some q[i]

theorem Holds.nil (cells : Vector α d) (p : Nat) : Holds cells p [] :=
  ⟨Nat.zero_le d, fun _ hi => absurd hi (Nat.not_lt_zero _)⟩

/-- The cell to pop from. -/
theorem Holds.head (h : Holds cells p (x :: q)) (hp : p < d) : cells[p]? = some x := by
  have hcell := h.cell 0 (Nat.succ_pos _)
  rwa [Nat.add_zero, Nat.mod_eq_of_lt hp] at hcell

/-- Distinct offsets below the size are distinct cells. -/
theorem offset_inj {i j : Nat} (hi : i < d) (hj : j < d) (h : (p + i) % d = (p + j) % d) :
    i = j := by
  have hmod : Nat.ModEq d i j := Nat.ModEq.add_left_cancel' p h
  rwa [Nat.ModEq, Nat.mod_eq_of_lt hi, Nat.mod_eq_of_lt hj] at hmod

/-- A push into a ring with room. -/
theorem Holds.push (h : Holds cells p q) (hlt : q.length < d) (x : α) :
    Holds (cells.setIfInBounds ((p + q.length) % d) x) p (q ++ [x]) where
  length_le := by
    rw [List.length_append, List.length_singleton]
    exact hlt
  cell i hi := by
    have hpos : (p + q.length) % d < d := Nat.mod_lt _ (by omega)
    rw [List.length_append, List.length_singleton] at hi
    rcases Nat.lt_succ_iff_lt_or_eq.1 hi with hold | rfl
    · have hne : (p + q.length) % d ≠ (p + i) % d := fun heq =>
        absurd (offset_inj hlt (hold.trans hlt) heq) (by omega)
      rw [Vector.getElem?_setIfInBounds_ne hne, h.cell i hold, List.getElem_append_left hold]
    · rw [Vector.getElem?_setIfInBounds_self_of_lt hpos, List.getElem_concat_length rfl]

/-- A pop. -/
theorem Holds.pop (h : Holds cells p (x :: q)) : Holds cells ((p + 1) % d) q where
  length_le := (Nat.le_succ _).trans h.length_le
  cell i hi := by
    have hcell := h.cell (i + 1) (Nat.succ_lt_succ hi)
    rwa [List.getElem_cons_succ, Nat.add_comm i, ← Nat.add_assoc, ← Nat.mod_add_mod] at hcell

end Ring
