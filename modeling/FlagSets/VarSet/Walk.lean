import FlagSets.Kind

/-!
# Walking a set that changes

An iteration over a growable set looks at the set as it is when the next bit is asked for. It notes
the length of the set at its first step, walks the positions below it in ascending order, and never
goes on once it has ended.

## Main results

* `next_ended` : a walk that has ended stays ended.
* `seek_eq_any` : seeking a position finds it exactly when it is among what is left.
* `lt_of_step` : what a step yields is below the noted length, not below where it began, and set
  at that moment.
-/

namespace FlagSets.VarSet

/-- How far an iteration has come: not begun, or at a position below a noted length, or ended. -/
inductive Walk
  | fresh
  | under (bound position : Nat)
  | ended
  deriving DecidableEq, Repr

namespace Walk

/-- The first set position from one position up to another. -/
def firstFrom (s : VarSet) (position bound : Nat) : Option Nat :=
  (List.range' position (bound - position)).find? s.test

/-- The step from a position: the first set position below the bound, or the end. -/
def step (s : VarSet) (bound position : Nat) : Option Nat × Walk :=
  match firstFrom s position bound with
  | some i => (some i, under bound (i + 1))
  | none => (none, ended)

/-- The next set bit of the set as it is now, and the iteration after it. -/
def next (s : VarSet) : Walk → Option Nat × Walk
  | fresh => step s s.length 0
  | under bound position => step s bound position
  | ended => (none, ended)

/-- The set positions from one position up to another. -/
def allFrom (s : VarSet) (position bound : Nat) : List Nat :=
  (List.range' position (bound - position)).filter s.test

/-- All that is left of an iteration over a set that no longer changes. -/
def drain (s : VarSet) : Walk → List Nat
  | fresh => allFrom s 0 s.length
  | under bound position => allFrom s position bound
  | ended => []

/-- Whether a wanted position is among what is left, and the iteration just past the first one. An
iteration that meets none has ended. -/
def seek (s : VarSet) (wanted : Nat → Bool) : Walk → Bool × Walk
  | fresh => pass s.length 0
  | under bound position => pass bound position
  | ended => (false, ended)
where
  /-- The first wanted position from one position up to another. -/
  pass (bound position : Nat) : Bool × Walk :=
    match (allFrom s position bound).find? wanted with
    | some i => (true, under bound (i + 1))
    | none => (false, ended)

/-! ## Laws -/

/-- A walk that has ended stays ended. -/
@[simp] theorem next_ended (s : VarSet) : ended.next s = (none, ended) := rfl

/-- Seeking finds what is left of the iteration. -/
theorem seek_eq_any (s : VarSet) (wanted : Nat → Bool) (w : Walk) :
    (w.seek s wanted).1 = (w.drain s).any wanted := by
  have passes (bound position : Nat) :
      (seek.pass s wanted bound position).1 = (allFrom s position bound).any wanted := by
    rw [seek.pass, ← List.isSome_find?]
    split <;> rename_i h <;> rw [h] <;> rfl
  cases w with
  | fresh => exact passes s.length 0
  | under bound position => exact passes bound position
  | ended => rfl

/-- What a step yields is below the bound, not below the start, and set at that moment. -/
theorem lt_of_step {s : VarSet} {bound position i : Nat} {w : Walk}
    (h : step s bound position = (some i, w)) :
    position ≤ i ∧ i < bound ∧ s.test i = true := by
  simp only [step] at h
  split at h
  · rename_i j hj
    obtain ⟨rfl, -⟩ : j = i ∧ _ := by simpa using h
    have hm := List.mem_of_find?_eq_some hj
    have ht := List.find?_some hj
    simp only [List.mem_range'_1] at hm
    exact ⟨hm.1, by omega, ht⟩
  · simp at h

end Walk

end FlagSets.VarSet
