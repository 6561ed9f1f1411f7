import FlagSets.Kind.Operations
import FlagSets.Step

/-!
# Value trees

A generated value with the state needed to shrink it. Shrinking is a single pass over the bits in
ascending order: each successful `simplify` clears the lowest set bit at or after the cursor and
moves the cursor past it, as long as more bits are set than the floor allows. Only the most recent
`simplify` can be undone, by `complicate`.

A step that fails leaves the tree as far as it got.

## Main results

* `complicate_of_undo_none` : without anything to undo, `complicate` changes nothing.
-/

namespace FlagSets

/-- A value that can be shrunk: the position from which bits may still be cleared, the bit that the
last step cleared, and the number of set bits below which nothing is cleared. Positions and numbers
are taken as they are handed over, and fail where they are put to use. -/
structure ValueTree where
  kind : Kind
  held : Datum
  cursor : Datum
  undo : Option Datum
  floor : Datum

/-- A step on a value tree. -/
abbrev TreeStep (α : Type) := Step ValueTree α

namespace ValueTree

/-- The tree of a freshly generated value. -/
def ofValue (kind : Kind) (held cursor floor : Datum) : ValueTree :=
  { kind, held, cursor, undo := none, floor }

/-- The value currently held. -/
def current [Memory] (t : ValueTree) : Outcome Datum := t.kind.copy t.held

/-- Moves the cursor to the first set bit at or after it, or to the end. -/
def skipClear (length : Nat) : Nat → TreeStep Unit
  | 0 => return
  | steps + 1 => do
    let t ← get
    if ← t.cursor.isLess (.nat length) then
      if ← (← t.kind.test t.held t.cursor).truthy then return
      set { t with cursor := ← t.cursor.plus 1 }
      skipClear length steps

/-- Clears the lowest set bit at or after the cursor, if more bits are set than the floor allows.
Answers whether the value changed. -/
def simplify : TreeStep Bool := do
  let t ← get
  if ← (Datum.nat (← t.kind.count t.held)).isAtMost t.floor then return false
  let length ← t.kind.length t.held
  skipClear length (t.cursor.stepsBelow length)
  let t ← get
  if !(← t.cursor.isLess (.nat length)) then
    set { t with undo := none }
    return false
  set { t with undo := some t.cursor }
  let held ← t.kind.clear t.held t.cursor
  set { t with undo := some t.cursor, held, cursor := ← t.cursor.plus 1 }
  return true

/-- Sets the bit again that the last `simplify` cleared. Answers whether the value changed. -/
def complicate [Memory] : TreeStep Bool := do
  let t ← get
  match t.undo with
  | none => return false
  | some bit =>
    set { t with undo := none }
    let held ← t.kind.set t.held bit
    set { t with undo := none, held }
    return true

/-- Simplifies until nothing changes any more, at most the given number of times. Answers how often
the value changed. -/
def shrinkFully : Nat → TreeStep Nat
  | 0 => return 0
  | steps + 1 => do
    if ← simplify then return (← shrinkFully steps) + 1 else return 0

/-- A bound on how often `simplify` can change a value: each time, the cursor moves on. -/
def measure (t : ValueTree) : Nat :=
  match t.kind.length t.held with
  | .ok length => t.cursor.stepsBelow length
  | .error _ => 0

/-- A tree as messages show it, if it can be shown. -/
def shown (t : ValueTree) : Option String := do
  return "BitSetValueTree(" ++ t.kind.shown ++ ", " ++ (← t.held.shown) ++ ", shrink=" ++
    (← t.cursor.display) ++ ", prev_shrink=" ++
    (← (t.undo.map Datum.display).getD (some "None")) ++ ", min_count=" ++ (← t.floor.display) ++
    ")"

/-! ## Laws -/

/-- Without anything to undo, `complicate` changes nothing. -/
theorem complicate_of_undo_none [Memory] {t : ValueTree} (h : t.undo = none) :
    complicate.run t = (.ok false, t) := by
  simp [complicate, Step.run_bind, h]

end ValueTree

end FlagSets
