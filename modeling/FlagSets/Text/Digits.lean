/-!
# Integers that are written out

The runtime writes an integer out in decimal digits, unless there are more than 4300 of them. A
longer one is no obstacle to computing, but no message can quote it.

## Main results

* `isShort_of_lt_word` : an integer that fits a word is short.
* `isShort_leastLong` : the least number with more digits is not.
-/

namespace FlagSets.Text

/-- The greatest number of digits that an integer is written out with. -/
def digitLimit : Nat := 4300

/-- The least number that has more digits than that. -/
@[irreducible] def leastLong : Nat := Nat.pow 10 digitLimit

/-- Whether an integer is short enough to be written out. -/
def isShort (n : Int) : Bool := n.natAbs < leastLong

/-- An integer in decimal digits, if it is short enough. -/
def digits? (n : Int) : Option String := if isShort n then some (toString n) else none

/-! ## Laws -/

/-- Just the short integers are written out. -/
theorem isSome_digits? (n : Int) : (digits? n).isSome = isShort n := by
  cases h : isShort n with
  | true => rw [digits?, if_pos h, Option.isSome_some]
  | false => rw [digits?, if_neg (Bool.eq_false_iff.mp h), Option.isSome_none]

/-- What is too long to be written out does not fit a word. -/
theorem word_le_leastLong : 1 <<< 64 ≤ leastLong := by
  have hmono {m : Nat} (hm : 20 ≤ m) : 1 <<< 64 ≤ Nat.pow 10 m :=
    Nat.le_trans (by decide : 1 <<< 64 ≤ 10 ^ 20) (Nat.pow_le_pow_right (by decide) hm)
  unfold leastLong
  exact hmono (by decide)

/-- What fits a word is short. -/
theorem isShort_of_lt_word {n : Int} (h : n.natAbs < 1 <<< 64) : isShort n = true :=
  decide_eq_true (Nat.lt_of_lt_of_le h word_le_leastLong)

/-- The sign is not counted. -/
theorem isShort_neg (n : Int) : isShort (-n) = isShort n := by
  rw [isShort, Int.natAbs_neg, isShort]

theorem isShort_leastLong : isShort leastLong = false := by
  rw [isShort, Int.natAbs_natCast]
  exact decide_eq_false (Nat.lt_irrefl leastLong)

theorem isShort_neg_leastLong : isShort (-leastLong) = false :=
  (isShort_neg leastLong).trans isShort_leastLong

end FlagSets.Text
