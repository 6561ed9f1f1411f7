import FlagSets.Text.Digits
import FlagSets.Verbosity

/-!
# Numerals

An integer as it was written down: a plain one, or a verbosity level standing for its rank. Bounds
and sizes keep the spelling they were given, because messages show it; every computation goes
through the value alone.
-/

namespace FlagSets

/-- An integer together with how it was written. -/
inductive Numeral
  | plain (n : Int)
  | level (v : Verbosity)
  deriving DecidableEq, Repr

namespace Numeral

/-- The integer a numeral stands for. -/
def value : Numeral → Int
  | plain n => n
  | level v => v.rank

/-- The wording of a numeral, however long it is. -/
def wording : Numeral → String
  | plain n => toString n
  | level v => v.shown

/-- Whether a numeral is short enough to be written out. A level goes by its name. -/
def isLegible : Numeral → Bool
  | plain n => Text.isShort n
  | level _ => true

/-- The numeral's value in decimal digits, whatever its spelling. -/
def digits (n : Numeral) : String := toString n.value

instance : Inhabited Numeral := ⟨plain 0⟩

@[simp] theorem value_plain (n : Int) : (plain n).value = n := rfl

@[simp] theorem value_level (v : Verbosity) : (level v).value = v.rank := rfl

/-- What can be written out as it is spelled can be written out in digits. -/
theorem isShort_value {n : Numeral} (h : n.isLegible = true) : Text.isShort n.value = true := by
  cases n with
  | plain n => exact h
  | level v => exact Text.isShort_of_lt_word (by cases v <;> decide)

end Numeral

end FlagSets
