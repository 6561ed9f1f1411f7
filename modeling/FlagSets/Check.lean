import FlagSets.Datum.Number

/-!
# Checks on arguments

The checks a datum passes before the library uses it. Each takes the name the argument goes by, for
the message, and the checks for integers give back the numeral they found.

## Main results

* `requireInteger_eq_ok_iff` : exactly the numerals pass as integers; booleans do not.
* `requireIndex_eq_ok_iff` : exactly the numerals that are not negative pass as bit positions.
* `requireOrdered_num` : bounds pass exactly when the upper one is not below the lower one.
* `requireWidth_num` : a bound passes exactly when it does not lie past the width of a kind.
-/

namespace FlagSets

open Outcome

/-- Requires a datum to be of a type. -/
def requireType (expected : DatumType) (d : Datum) (name : String) : Outcome Unit :=
  if expected.holds d then pure () else refuse (.wrongType [expected] name d)

/-- Requires a datum to be of one of several types; a single one is not several. -/
def requireOneOf (expected : List DatumType) (d : Datum) (name : String) : Outcome Unit :=
  if expected.any (·.holds d) then pure ()
  else if expected.length < 2 then throw .assertion
  else refuse (.wrongType expected name d)

/-- Requires a datum to be an integer. A boolean is none. -/
def requireInteger (d : Datum) (name : String) : Outcome Numeral :=
  match d with
  | .bool b => refuse (.boolean name (.bool b))
  | .num n => pure n
  | d => refuse (.wrongType [.integer] name d)

/-- Requires a datum to be a bit position: an integer that is not negative. -/
def requireIndex (d : Datum) (name : String) : Outcome Numeral := do
  let n ← requireInteger d name
  if n.value < 0 then refuse (.negativeIndex name n) else pure n

/-- Requires an upper bound not to lie below its lower bound. -/
def requireOrdered (lower upper : Datum) (lowerName upperName : String) : Outcome Unit := do
  if ← upper.isLess lower then refuse (.crossedBounds lowerName upperName lower upper)

/-- Requires an exclusive upper bound on bit positions to lie within the width of a kind. A kind
that grows accepts any. -/
def requireWidth (kind : Kind) (bound : Datum) (name : String) : Outcome Unit :=
  match kind.width? with
  | none => pure ()
  | some width => do
    if ← (Datum.nat width).isLess bound then refuse (.tooWide name bound kind width)

/-! ## Laws -/

/-- Exactly the numerals pass as integers. -/
theorem requireInteger_eq_ok_iff {d : Datum} {name : String} {n : Numeral} :
    requireInteger d name = .ok n ↔ d = .num n := by
  cases d <;> simp [requireInteger, refuse, pure, Except.pure]

@[simp] theorem requireInteger_num (n : Numeral) (name : String) :
    requireInteger (.num n) name = .ok n := rfl

@[simp] theorem requireIndex_num (n : Numeral) (name : String) :
    requireIndex (.num n) name =
      if n.value < 0 then refuse (.negativeIndex name n) else .ok n := rfl

/-- A natural number passes as a bit position. -/
theorem requireIndex_nat (i : Nat) (name : String) :
    requireIndex (.nat i) name = .ok (.plain i) := by
  have hpos : ¬ (Numeral.plain i).value < 0 := Int.not_lt.mpr (Int.natCast_nonneg i)
  rw [Datum.nat, Datum.int, requireIndex_num, if_neg hpos]

/-- Exactly the numerals that are not negative pass as bit positions. -/
theorem requireIndex_eq_ok_iff {d : Datum} {name : String} {n : Numeral} :
    requireIndex d name = .ok n ↔ d = .num n ∧ 0 ≤ n.value := by
  cases d with
  | num m =>
    rw [requireIndex_num]
    by_cases h : m.value < 0
    · simp only [h, ↓reduceIte, refuse_ne_ok, Datum.num.injEq, false_iff, not_and]
      rintro rfl
      omega
    · simp only [h, ↓reduceIte, Except.ok.injEq, Datum.num.injEq]
      constructor
      · rintro rfl
        exact ⟨rfl, by omega⟩
      · exact fun e => e.1
  | _ => simp [requireIndex, requireInteger, refuse, bind, Except.bind]

/-- Bounds pass exactly when the upper one is not below the lower one. -/
theorem requireOrdered_num (lower upper : Numeral) (lowerName upperName : String) :
    requireOrdered (.num lower) (.num upper) lowerName upperName =
      if upper.value < lower.value then
        refuse (.crossedBounds lowerName upperName (.num lower) (.num upper))
      else .ok () := by
  by_cases h : upper.value < lower.value <;>
    simp [requireOrdered, h, bind, Except.bind, pure, Except.pure]

/-- A bound passes exactly when it does not lie past the width, or there is none. -/
theorem requireWidth_num (k : Kind) (n : Numeral) (name : String) :
    requireWidth k (.num n) name = match k.width? with
      | none => .ok ()
      | some width =>
        if (width : Int) < n.value then refuse (.tooWide name (.num n) k width) else .ok () := by
  unfold requireWidth
  cases k.width? with
  | none => rfl
  | some width =>
      dsimp only
      rw [Datum.nat_isLess]
      by_cases h : (width : Int) < n.value
      · simp [h, bind, Except.bind]
      · simp [h, bind, Except.bind, pure, Except.pure]

end FlagSets
