import FlagSets.Check
import FlagSets.Datum.Collection

/-!
# Spans

A span is a half-open range `[start, endExcl)`, used both for how many bits to set and for which
bits may be set. One that a caller made holds any two data, and its views fail where those are no
numbers; one that was converted holds two numerals in order, neither negative.

## Main results

* `ofDatum_num` : a single integer `n` is the span that holds just `n`.
* `ofBounds_num`, `ofBounds_eq_ok` : just two positions in order are accepted as bounds.
-/

namespace FlagSets.Span

open Outcome

/-! ## Any two bounds -/

/-- The last element. -/
def endIncl (r : Span Datum) : Outcome Datum := r.endExcl.plus (-1)

/-- Whether there is no element. -/
def isEmpty (r : Span Datum) : Outcome Bool := r.endExcl.isAtMost r.start

/-- Whether a datum lies between the bounds. The upper bound is looked at only if the lower one
lets the datum pass. -/
def contains (r : Span Datum) (n : Datum) : Outcome Bool := do
  if ← r.start.isAtMost n then n.isLess r.endExcl else return false

/-- Requires a span to have an element. -/
def requireNonempty (r : Span Datum) (name : String) : Outcome Unit := do
  if ← r.isEmpty then refuse (.emptyRange name (.span r))

/-- Whether a datum is a span with equal bounds. -/
def equal (r : Span Datum) (d : Datum) : Bool := (Datum.span r).equal d

/-! ## Two numerals in order -/

/-- Requires two bounds to be positions in order. -/
def ofBounds (start endExcl : Datum) (name : String) : Outcome (Span Numeral) := do
  let low ← requireIndex start (name ++ ".start")
  let high ← requireIndex endExcl (name ++ ".end_excl")
  requireOrdered start endExcl (name ++ ".start") (name ++ ".end_excl")
  return ⟨low, high⟩

/-- The span that a datum spells: a span, a range with step one, a pair of bounds, or a single
integer, which means exactly that one. -/
def ofDatum (d : Datum) (name : String) : Outcome (Span Numeral) :=
  match d with
  | .span ⟨start, endExcl⟩ => ofBounds start endExcl name
  | .range start stop step =>
    if step = 1 then ofBounds (.int start) (.int stop) name else refuse (.stepped name d)
  | .tuple [start, endExcl] => ofBounds start endExcl name
  | .tuple _ => refuse (.notPair name d)
  | d => do
    let n ← requireIndex d name
    return ⟨n, .plain (n.value + 1)⟩

/-- The number of elements of a span of numerals. -/
def size (r : Span Numeral) : Nat := (r.endExcl.value - r.start.value).toNat

/-- The last element of a span of numerals. -/
def last (r : Span Numeral) : Int := r.endExcl.value - 1

/-- A span of numerals as the range of its elements. -/
def toRange (r : Span Numeral) : Datum := .range r.start.value r.endExcl.value 1

/-! ## Laws -/

/-- The range of the elements of a span is as long as these are many, if a length can say so. -/
theorem length_toRange (r : Span Numeral) : r.toRange.length = Datum.reportable r.size := by
  rw [toRange, Datum.length, Datum.rangeLength_one, size]

/-- A single integer `n` is the span that holds just `n`. -/
theorem ofDatum_num {n : Numeral} (h : 0 ≤ n.value) (name : String) :
    ofDatum (.num n) name = .ok ⟨n, .plain (n.value + 1)⟩ := by
  have hn : ¬ n.value < 0 := by omega
  simp [ofDatum, hn, bind, Except.bind, pure, Except.pure]

/-- Two positions in order are a span. -/
theorem ofBounds_num {a b : Numeral} (ha : 0 ≤ a.value) (hab : a.value ≤ b.value)
    (name : String) : ofBounds (.num a) (.num b) name = .ok ⟨a, b⟩ := by
  have h1 : ¬ a.value < 0 := by omega
  have h2 : ¬ b.value < 0 := by omega
  have h3 : ¬ b.value < a.value := by omega
  simp [ofBounds, requireOrdered_num, h1, h2, h3, bind, Except.bind, pure, Except.pure]

/-- What two bounds are accepted as is those two bounds, in order and not negative. -/
theorem ofBounds_eq_ok {a b : Datum} {name : String} {r : Span Numeral}
    (h : ofBounds a b name = .ok r) :
    a = .num r.start ∧ b = .num r.endExcl ∧ 0 ≤ r.start.value ∧
      r.start.value ≤ r.endExcl.value := by
  simp only [ofBounds, bind_eq_ok_iff] at h
  obtain ⟨low, hlow, high, hhigh, ⟨⟩, horder, hmade⟩ := h
  cases hmade
  obtain ⟨rfl, hnonneg⟩ := requireIndex_eq_ok_iff.mp hlow
  obtain ⟨rfl, -⟩ := requireIndex_eq_ok_iff.mp hhigh
  rw [requireOrdered_num] at horder
  split at horder
  · cases horder
  · exact ⟨rfl, rfl, hnonneg, Int.not_lt.mp ‹_›⟩

end FlagSets.Span
