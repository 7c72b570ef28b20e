import ShakeAccel.Lib.Machine

/-!
# Logs

A log is a list of events, the oldest first. `last f` is the value that `f` finds in the latest
event in which it finds one. If every cycle of a machine replaces an observation of the state by the
last value in the log of the cycle, then after a run it is the last value in the log of the run.
-/

namespace Log

variable {α β : Type*}

/-- The value of `f` at the latest event that has one. -/
def last (f : α → Option β) (h : List α) : Option β := h.reverse.findSome? f

@[simp] theorem last_nil (f : α → Option β) : last f [] = none := rfl

/-- The later log decides, unless `f` finds nothing in it. -/
theorem last_append (f : α → Option β) (xs ys : List α) :
    last f (xs ++ ys) = (last f ys).or (last f xs) := by
  rw [last, List.reverse_append, List.findSome?_append]
  rfl

@[simp] theorem last_singleton (f : α → Option β) (x : α) : last f [x] = f x := by
  rw [last, List.reverse_singleton, List.findSome?_singleton]

/-- With a value to begin with: the first log gives the value that the second begins with. -/
theorem getD_last_append (f : α → Option β) (xs ys : List α) (b : β) :
    (last f (xs ++ ys)).getD b = (last f ys).getD ((last f xs).getD b) := by
  rw [last_append]
  cases last f ys <;> rfl

/-- The same, one event at a time. -/
theorem getD_last_cons (f : α → Option β) (x : α) (xs : List α) (b : β) :
    (last f (x :: xs)).getD b = (last f xs).getD ((f x).getD b) := by
  rw [← List.singleton_append, getD_last_append, last_singleton]

end Log

namespace Machine

variable {σ ι α β : Type*} {step : σ → ι → σ}

/-- The log that consists of the inputs themselves. -/
theorem collect_inputs (s : σ) (ins : List ι) : collect step (fun _ i => [i]) s ins = ins := by
  induction ins generalizing s with
  | nil => rfl
  | cons i ins ih => rw [collect, ih, List.singleton_append]

/-- An observation that every allowed cycle replaces by the last value in its log is, after an
allowed run, the last value in the log of the run. -/
theorem run_last {I : σ → Prop} {A : σ → ι → Prop} (obs : σ → β) (f : α → Option β)
    (ev : σ → ι → List α) (hI : ∀ s i, A s i → I s → I (step s i))
    (hobs : ∀ s i, A s i → I s → obs (step s i) = (Log.last f (ev s i)).getD (obs s)) {s : σ}
    (hs : I s) {ins : List ι} (hA : Along step A s ins) :
    obs (run step s ins) = (Log.last f (collect step ev s ins)).getD (obs s) := by
  induction ins generalizing s with
  | nil => rfl
  | cons i ins ih =>
    rw [run_cons, collect, Log.getD_last_append, ih (hI s i hA.1 hs) hA.2, hobs s i hA.1 hs]

end Machine
