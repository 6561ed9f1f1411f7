import FlagSets.Fault

/-!
# Steps on a state

A computation that reads and changes a state, and may fail. The state it has reached is kept also
when it fails.

## Main results

* `run_bind` : the second of two steps starts where the first one ended, unless that one failed.
-/

namespace FlagSets

/-- A computation on a state that may fail, and keeps the state also when it does. -/
abbrev Step (σ α : Type) := ExceptT Fault (StateM σ) α

namespace Step

variable {σ α β : Type}

/-- The outcome of a step, and the state after it. -/
def run (d : Step σ α) (s : σ) : Outcome α × σ := StateT.run (ExceptT.run d) s

/-! ## Laws -/

/-- Steps that run alike are the same. -/
theorem ext {d e : Step σ α} (h : ∀ s, run d s = run e s) : d = e := funext h

@[simp] theorem run_pure (a : α) (s : σ) : run (pure a) s = (.ok a, s) := rfl

@[simp] theorem run_throw (f : Fault) (s : σ) : run (throw f : Step σ α) s = (.error f, s) := rfl

@[simp] theorem run_get (s : σ) : run (get : Step σ σ) s = (.ok s, s) := rfl

@[simp] theorem run_set (s t : σ) : run (set t : Step σ PUnit) s = (.ok ⟨⟩, t) := rfl

/-- An outcome leaves the state as it is. -/
@[simp] theorem run_liftM (o : Outcome α) (s : σ) : run (liftM o : Step σ α) s = (o, s) := by
  cases o <;> rfl

/-- A function applied to the result of a step leaves its state as it is. -/
@[simp] theorem run_map (f : α → β) (d : Step σ α) (s : σ) :
    run (f <$> d) s = ((run d s).1.map f, (run d s).2) := by
  change (match d s with | (r, t) => (ExceptT.bindCont (fun a => pure (f a)) r : StateM σ _) t) =
    ((d s).1.map f, (d s).2)
  rcases d s with ⟨_ | _, _⟩ <;> rfl

/-- The second of two steps starts where the first one ended, unless that one failed. -/
theorem run_bind (d : Step σ α) (f : α → Step σ β) (s : σ) :
    run (d >>= f) s =
      match run d s with
      | (.ok a, t) => run (f a) t
      | (.error e, t) => (.error e, t) := by
  change (match d s with | (r, t) => ExceptT.bindCont f r t) =
    match d s with | (.ok a, t) => run (f a) t | (.error e, t) => (.error e, t)
  rcases d s with ⟨_ | _, _⟩ <;> rfl

end Step

end FlagSets
