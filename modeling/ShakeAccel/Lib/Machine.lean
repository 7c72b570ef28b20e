import Mathlib.Data.List.Basic
import Mathlib.Logic.Function.Iterate

/-!
# Synchronous machines

A machine is a function `step : σ → ι → σ` that takes the state and the inputs of one clock cycle
to the state of the next. Runs over input lists, what a run outputs, invariants over runs, and
schedules: machines whose state is a known function of time as long as every input satisfies a rule,
alone or in lockstep with a second machine. Last the rule for a loop that a machine executes in a
fixed number of cycles an iteration, and machines whose step may fail.
-/

namespace Machine

variable {σ τ ι κ α : Type*}

/-- The state after a list of cycles. -/
def run (step : σ → ι → σ) (s : σ) (ins : List ι) : σ := ins.foldl step s

@[simp] theorem run_nil (step : σ → ι → σ) (s : σ) : run step s [] = s := rfl

@[simp] theorem run_cons (step : σ → ι → σ) (s : σ) (i : ι) (ins : List ι) :
    run step s (i :: ins) = run step (step s i) ins := rfl

theorem run_append (step : σ → ι → σ) (s : σ) (xs ys : List ι) :
    run step s (xs ++ ys) = run step (run step s xs) ys :=
  List.foldl_append

/-- What the cycles of a run output, in order. -/
def collect (step : σ → ι → σ) (out : σ → ι → List α) : σ → List ι → List α
  | _, [] => []
  | s, i :: ins => out s i ++ collect step out (step s i) ins

theorem collect_append (step : σ → ι → σ) (out : σ → ι → List α) (s : σ) (xs ys : List ι) :
    collect step out s (xs ++ ys) =
      collect step out s xs ++ collect step out (run step s xs) ys := by
  induction xs generalizing s with
  | nil => rfl
  | cons i xs ih => rw [List.cons_append, collect, collect, run_cons, ih, List.append_assoc]

/-- Every cycle of a run is allowed in the state in which it comes. -/
def Along (step : σ → ι → σ) (A : σ → ι → Prop) : σ → List ι → Prop
  | _, [] => True
  | s, i :: ins => A s i ∧ Along step A (step s i) ins

theorem along_append {step : σ → ι → σ} {A : σ → ι → Prop} {s : σ} {xs ys : List ι} :
    Along step A s (xs ++ ys) ↔ Along step A s xs ∧ Along step A (run step s xs) ys := by
  induction xs generalizing s with
  | nil => exact ⟨fun h => ⟨trivial, h⟩, fun h => h.2⟩
  | cons i xs ih => rw [List.cons_append, Along, Along, run_cons, ih, and_assoc]

/-- A rule for inputs that does not look at the state. -/
theorem along_of_forall {step : σ → ι → σ} {A : σ → ι → Prop} {ins : List ι}
    (h : ∀ i ∈ ins, ∀ s, A s i) (s : σ) : Along step A s ins := by
  induction ins generalizing s with
  | nil => trivial
  | cons i ins ih => exact ⟨h i (.head _) s, ih (fun j hj => h j (.tail _ hj)) _⟩

/-- A property that every cycle keeps where it is allowed holds after every allowed run. -/
theorem Along.invariant {step : σ → ι → σ} {I : σ → Prop} {A : σ → ι → Prop}
    (hstep : ∀ s i, A s i → I s → I (step s i)) {s : σ} (hs : I s) {ins : List ι}
    (hA : Along step A s ins) : I (run step s ins) := by
  induction ins generalizing s with
  | nil => exact hs
  | cons i ins ih => exact ih (hstep s i hA.1 hs) hA.2

/-- A property that every allowed cycle keeps holds after every allowed run. -/
theorem run_invariant {step : σ → ι → σ} {I : σ → Prop} {A : ι → Prop}
    (hstep : ∀ s i, A i → I s → I (step s i)) {s : σ} (hs : I s) {ins : List ι}
    (hA : ∀ i ∈ ins, A i) : I (run step s ins) :=
  (along_of_forall (A := fun _ i => A i) (fun i hi _ => hA i hi) s).invariant hstep hs

/-- A machine follows a schedule up to time `T`: if every allowed cycle before `T` takes time `t` to
time `t + 1`, then `n` allowed cycles take `n` units of time. -/
theorem run_schedule {step : σ → ι → σ} {R : Nat → σ → Prop} {A : ι → Prop} {T : Nat}
    (hstep : ∀ t s i, t < T → A i → R t s → R (t + 1) (step s i)) {t : Nat} {s : σ} (hs : R t s)
    {ins : List ι} (hA : ∀ i ∈ ins, A i) (hT : t + ins.length ≤ T) :
    R (t + ins.length) (run step s ins) := by
  induction ins generalizing t s with
  | nil => exact hs
  | cons i ins ih =>
    rw [List.length_cons] at hT ⊢
    have h := ih (hstep t s i (by omega) (hA i (.head _)) hs) (fun j hj => hA j (.tail _ hj))
      (by omega)
    rwa [Nat.add_assoc, Nat.add_comm 1] at h

/-- What a machine on a schedule outputs: at each time what the schedule says. -/
theorem collect_schedule {step : σ → ι → σ} {out : σ → ι → List α} {o : Nat → List α}
    {R : Nat → σ → Prop} {A : ι → Prop} {T : Nat}
    (hstep : ∀ t s i, t < T → A i → R t s → R (t + 1) (step s i))
    (hout : ∀ t s i, t < T → A i → R t s → out s i = o t) {t : Nat} {s : σ} (hs : R t s)
    {ins : List ι} (hA : ∀ i ∈ ins, A i) (hT : t + ins.length ≤ T) :
    collect step out s ins = (List.range' t ins.length).flatMap o := by
  induction ins generalizing t s with
  | nil => rfl
  | cons i ins ih =>
    rw [List.length_cons] at hT
    have hi := hA i (.head _)
    have hrest := ih (hstep t s i (by omega) hi hs) (fun j hj => hA j (.tail _ hj)) (by omega)
    rw [collect, hout t s i (by omega) hi hs, hrest, List.length_cons, List.range'_succ,
      List.flatMap_cons]

/-- Two runs of one machine over the same inputs stay related if every cycle keeps the relation. -/
theorem run_related {step : σ → ι → σ} {R : σ → σ → Prop}
    (hstep : ∀ s t i, R s t → R (step s i) (step t i)) {s t : σ} (h : R s t) (ins : List ι) :
    R (run step s ins) (run step t ins) := by
  induction ins generalizing s t with
  | nil => exact h
  | cons i ins ih => exact ih (hstep s t i h)

/-- Two machines in lockstep up to time `T`: if every pair of allowed cycles before `T` keeps the
relation at the next time, then so do runs of one length. -/
theorem run_lockstep {step : σ → ι → σ} {step' : τ → κ → τ} {R : Nat → σ → τ → Prop}
    {A : ι → Prop} {B : κ → Prop} {T : Nat}
    (hstep : ∀ n s t i j, n < T → A i → B j → R n s t → R (n + 1) (step s i) (step' t j)) {n : Nat}
    {s : σ} {t : τ} (hR : R n s t) {ins : List ι} {ins' : List κ} (hlen : ins.length = ins'.length)
    (hA : ∀ i ∈ ins, A i) (hB : ∀ j ∈ ins', B j) (hT : n + ins.length ≤ T) :
    R (n + ins.length) (run step s ins) (run step' t ins') := by
  induction ins generalizing n s t ins' with
  | nil =>
    obtain rfl := List.length_eq_zero_iff.1 hlen.symm
    exact hR
  | cons i ins ih =>
    obtain ⟨j, ins', rfl⟩ : ∃ j xs, ins' = j :: xs :=
      List.exists_cons_of_length_pos (by rw [← hlen]; exact Nat.succ_pos _)
    rw [List.length_cons] at hT ⊢
    have h := ih (hstep n s t i j (by omega) (hA i (.head _)) (hB j (.head _)) hR)
      (Nat.succ.inj hlen) (fun x hx => hA x (.tail _ hx)) (fun x hx => hB x (.tail _ hx)) (by omega)
    rwa [Nat.add_assoc, Nat.add_comm 1] at h

/-- The loop rule: a machine that executes the body of a loop in `c` cycles executes the loop over
the numbers below `N` in `c * N`. The invariant relates the loop counter, the abstract state and the
machine. -/
theorem iterate_loop {μ : Type*} {f : σ → σ} {c N : Nat} {body : μ → Nat → μ}
    {I : Nat → μ → σ → Prop} (hbody : ∀ k < N, ∀ m s, I k m s → I (k + 1) (body m k) (f^[c] s))
    {m : μ} {s : σ} (h : I 0 m s) : I N ((List.range N).foldl body m) (f^[c * N] s) := by
  induction N with
  | zero => exact h
  | succ N ih =>
    have hN := hbody N (Nat.lt_succ_self N) _ _ (ih fun k hk => hbody k (Nat.lt_succ_of_lt hk))
    rw [← Function.iterate_add_apply, Nat.add_comm c] at hN
    rwa [List.range_succ, List.foldl_append, Nat.mul_succ]

/-- Nothing gets lost: if in every cycle what was stored, followed by what comes in, is what goes
out followed by what is stored then, so it is over a run. -/
theorem run_conserves {step : σ → ι → σ} {inp out : σ → ι → List α} {R : σ → List α → Prop}
    (hstep : ∀ s q i, R s q → ∃ q', R (step s i) q' ∧ q ++ inp s i = out s i ++ q') {s : σ}
    {q : List α} (h : R s q) (ins : List ι) :
    ∃ q', R (run step s ins) q' ∧ q ++ collect step inp s ins = collect step out s ins ++ q' := by
  induction ins generalizing s q with
  | nil => exact ⟨q, h, List.append_nil q⟩
  | cons i ins ih =>
    obtain ⟨q₁, h₁, heq₁⟩ := hstep s q i h
    obtain ⟨q₂, h₂, heq₂⟩ := ih h₁
    refine ⟨q₂, h₂, ?_⟩
    rw [collect, collect, ← List.append_assoc, heq₁, List.append_assoc, heq₂, List.append_assoc]

/-- Progress: where every allowed cycle before the goal lowers a bound on the cycles still to come,
and every cycle keeps the goal, the goal holds after more cycles than the bound. -/
theorem run_progress {step : σ → ι → σ} {A : ι → Prop} {G : σ → Prop} {R : Nat → σ → Prop}
    (hgoal : ∀ s i, G s → G (step s i))
    (hstep : ∀ N s i, A i → R N s → G s ∨ ∃ N' < N, R N' (step s i)) {N : Nat} {s : σ}
    (h : R N s) {ins : List ι} (hA : ∀ i ∈ ins, A i) (hN : N < ins.length) :
    G (run step s ins) := by
  induction ins generalizing N s with
  | nil => exact absurd hN (Nat.not_lt_zero N)
  | cons i ins ih =>
    have hA' : ∀ j ∈ ins, A j := fun j hj => hA j (.tail _ hj)
    rcases hstep N s i (hA i (.head _)) h with hg | ⟨N', hlt, h'⟩
    · exact run_invariant (A := fun _ => True) (fun s j _ => hgoal s j) (hgoal s i hg)
        fun _ _ => trivial
    · rw [List.length_cons] at hN
      exact ih h' hA' (by omega)

/-- `n` steps of a machine whose step may fail. -/
def runFor (step : σ → Option σ) : Nat → σ → Option σ
  | 0, s => some s
  | n + 1, s => (step s).bind (runFor step n)

theorem runFor_one {step : σ → Option σ} {s t : σ} (h : step s = some t) :
    runFor step 1 s = some t := by
  rw [runFor, h]
  rfl

theorem runFor_succ {step : σ → Option σ} {n : Nat} {s t u : σ} (h : step s = some t)
    (hn : runFor step n t = some u) : runFor step (n + 1) s = some u := by
  rw [runFor, h]
  exact hn

/-- Runs one after the other. -/
theorem runFor_trans {step : σ → Option σ} {m n : Nat} {s t u : σ} (hm : runFor step m s = some t)
    (hn : runFor step n t = some u) : runFor step (m + n) s = some u := by
  induction m generalizing s with
  | zero =>
    rw [runFor, Option.some.injEq] at hm
    rwa [Nat.zero_add, hm]
  | succ m ih =>
    rw [runFor, Option.bind_eq_some_iff] at hm
    obtain ⟨s', hs, hm⟩ := hm
    rw [Nat.succ_add]
    exact runFor_succ hs (ih hm)

end Machine
