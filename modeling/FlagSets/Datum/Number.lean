import FlagSets.Datum.Order
import FlagSets.Fault

/-!
# Data as numbers

Comparing and counting with data that need not be numbers. Two data whose types have no order
between them are a mismatch, and so is a sum of which one part is no number.

## Main results

* `isLess_of_integer`, `isAtMost_of_integer` : what counts as an integer compares as that does, and
  so do numerals.
* `plus_num` : an integer added to a numeral is added to its value.
-/

namespace FlagSets.Datum

/-- Whether one datum lies before another. -/
def isLess (d e : Datum) : Outcome Bool :=
  match d.less? e with
  | some b => pure b
  | none => throw .mismatch

/-- Whether one datum lies before another or equals it. -/
def isAtMost (d e : Datum) : Outcome Bool :=
  match d.atMost? e with
  | some b => pure b
  | none => throw .mismatch

/-- A number with an integer added. The result is plain, whatever the spelling of the number. -/
def plus (d : Datum) (n : Int) : Outcome Datum :=
  match d with
  | bool b => pure (int (b.toNat + n))
  | num m => pure (int (m.value + n))
  | float x => pure (float (x.addInt n))
  | _ => throw .mismatch

/-- A number as a double. There is none for integers beyond every double. -/
def Number.toReal : Number → Outcome Binary64
  | .real x => pure x
  | .integer n =>
    match Binary64.ofInt n with
    | .infinite _ => throw .overflow
    | x => pure x

/-- How many steps of one a number can take while it is below a bound. -/
def stepsBelow (d : Datum) (bound : Int) : Nat :=
  match d.number? with
  | some (.integer n) => (bound - n).toNat
  | some (.real x) => (bound - x.floor).toNat
  | none => 0

/-! ## Laws -/

/-- What counts as an integer lies before what counts as another when that integer does. -/
theorem isLess_of_integer {d e : Datum} {m n : Int} (hd : d.integer? = some m)
    (he : e.integer? = some n) : d.isLess e = .ok (decide (m < n)) := by
  rw [isLess, less?_of_integer hd he]
  rfl

/-- What counts as an integer is at most what counts as another when that integer is. -/
theorem isAtMost_of_integer {d e : Datum} {m n : Int} (hd : d.integer? = some m)
    (he : e.integer? = some n) : d.isAtMost e = .ok (decide (m ≤ n)) := by
  rw [isAtMost, atMost?_of_integer hd he]
  rfl

/-- A numeral lies before another when its value does. -/
@[simp] theorem isLess_num (m n : Numeral) :
    (num m).isLess (num n) = .ok (decide (m.value < n.value)) :=
  isLess_of_integer rfl rfl

/-- A numeral is at most another when its value is. -/
@[simp] theorem isAtMost_num (m n : Numeral) :
    (num m).isAtMost (num n) = .ok (decide (m.value ≤ n.value)) :=
  isAtMost_of_integer rfl rfl

/-- A numeral lies before a natural number when its value does. -/
@[simp] theorem isLess_nat (m : Numeral) (n : Nat) :
    (num m).isLess (nat n) = .ok (decide (m.value < n)) :=
  isLess_of_integer rfl rfl

/-- A natural number lies before a numeral when it lies before its value. -/
@[simp] theorem nat_isLess (n : Nat) (m : Numeral) :
    (nat n).isLess (num m) = .ok (decide ((n : Int) < m.value)) :=
  isLess_of_integer rfl rfl

/-- A natural number is at most a numeral when it is at most its value. -/
@[simp] theorem nat_isAtMost (n : Nat) (m : Numeral) :
    (nat n).isAtMost (num m) = .ok (decide ((n : Int) ≤ m.value)) :=
  isAtMost_of_integer rfl rfl

/-- An integer added to what counts as one is added to that. -/
theorem plus_of_integer {d : Datum} {m : Int} (hd : d.integer? = some m) (n : Int) :
    d.plus n = .ok (int (m + n)) := by
  cases d with
  | bool b | num k =>
      cases hd
      rfl
  | _ => cases hd

/-- An integer added to a numeral is added to its value. -/
@[simp] theorem plus_num (m : Numeral) (n : Int) : (num m).plus n = .ok (int (m.value + n)) := rfl

@[simp] theorem stepsBelow_num (m : Numeral) (bound : Int) :
    (num m).stepsBelow bound = (bound - m.value).toNat := rfl

end FlagSets.Datum
