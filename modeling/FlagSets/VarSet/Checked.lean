import FlagSets.Check
import FlagSets.Datum.Collection

/-!
# Growable sets with checked indices

The operations of a growable set on an index as a caller hands it over: only integers that are not
negative are indices. A set grows as far as memory goes.

## Main results

* `setAt_num`, `clearAt_num`, `testAt_num` : on a valid index they are the plain operations.
-/

namespace FlagSets.VarSet

/-- Whether a bit is set. -/
def testAt (s : VarSet) (ix : Datum) : Outcome Bool := do
  let i ← requireIndex ix "ix"
  return s.test i.value.toNat

/-- The set with a bit added. -/
def setAt [Memory] (s : VarSet) (ix : Datum) : Outcome VarSet := do
  let i ← requireIndex ix "ix"
  if s.length ≤ i.value then
    let _ ← Datum.sized (i.value + 1 - s.length)
  return s.set i.value.toNat

/-- The set with a bit removed. -/
def clearAt (s : VarSet) (ix : Datum) : Outcome VarSet := do
  let i ← requireIndex ix "ix"
  return s.clear i.value.toNat

/-! ## Laws -/

@[simp] theorem testAt_num (s : VarSet) {n : Numeral} (h : 0 ≤ n.value) :
    s.testAt (.num n) = .ok (s.test n.value.toNat) := by
  have hn : ¬ n.value < 0 := by omega
  simp [testAt, hn, bind, Except.bind, pure, Except.pure]

@[simp] theorem clearAt_num (s : VarSet) {n : Numeral} (h : 0 ≤ n.value) :
    s.clearAt (.num n) = .ok (s.clear n.value.toNat) := by
  have hn : ¬ n.value < 0 := by omega
  simp [clearAt, hn, bind, Except.bind, pure, Except.pure]

/-- A set takes every index that memory has room for. -/
theorem setAt_num [Memory] (s : VarSet) {n : Numeral} (h : 0 ≤ n.value)
    (hm : n.value + 1 - s.length ≤ Datum.memory) :
    s.setAt (.num n) = .ok (s.set n.value.toNat) := by
  have hn : ¬ n.value < 0 := by omega
  by_cases hl : (s.length : Int) ≤ n.value
  · have made := Datum.sized_eq_ok (by omega) hm
    simp [setAt, hn, hl, made, bind, Except.bind, pure, Except.pure]
  · simp [setAt, hn, hl, bind, Except.bind, pure, Except.pure]

end FlagSets.VarSet
