import FlagSets.Random.Source
import FlagSets.Strategy
import FlagSets.ValueTree

/-!
# Generating values

How a strategy draws a value from a source. A range strategy throws one coin for each bit that may
vary, in ascending order, and sets those that come up; a sampled strategy draws how many bits to
set, and then that many of its bits.

## Main results

* `coins_nil` : where no bit may vary, nothing is drawn.
-/

namespace FlagSets.Strategy

variable [Memory]

/-- Throws a coin for each of the given bits that may vary, and sets those that come up. -/
def coins (kind : Kind) (mask : Option Datum) : List Int → Datum → Draw Datum
  | [], value => return value
  | bit :: rest, value => do
    let free ← match mask with
      | none => pure true
      | some mask => do liftM (← liftM (kind.test mask (.int bit))).truthy
    if free then
      if ← Source.boolean then
        coins kind mask rest (← kind.set value (.int bit))
      else coins kind mask rest value
    else coins kind mask rest value

/-- Sets each of the given bits in turn. -/
def setAll (kind : Kind) (value : Datum) (bits : List Datum) : Outcome Datum :=
  bits.foldlM kind.set value

/-- Draws a value tree. -/
def newTree : Strategy → Draw ValueTree
  | range k minBit maxBit mask => do
    let start ← k.allocate (.num maxBit)
    let value ← coins k mask (Datum.rangeTerms minBit.value maxBit.value 1) start
    return .ofValue k value (.num minBit) (.int 0)
  | sampled k size bits => do
    let start ← k.allocate (.num bits.endExcl)
    let count ← Source.integerRange (.num size.start) (.int size.last)
    let room ← k.length start
    if (room : Int) < count.value then throw (Fault.tooSmall k bits.endExcl room count).raised
    let chosen ← Source.chooseMultiple bits.toRange (.num count)
    let value ← setAll k start chosen
    return .ofValue k value (.num bits.start) (.num size.start)
  | bare => throw (.unimplemented "SearchStrategy.do_new_tree")

/-- Draws a value tree from whatever is handed over as a source; only a source is accepted. -/
def newTreeFrom (s : Strategy) (supply : Source.Supply) : Outcome ValueTree × Source.Supply :=
  match supply.accept with
  | .error fault => (.error fault, supply)
  | .ok source =>
    let (tree, left) := s.newTree.run source
    (tree, .source left)

/-- Draws the value of a fresh tree. -/
def value (s : Strategy) : Draw Datum := do
  let tree ← s.newTree
  liftM tree.current

/-- Draws an example value, from any source when none is handed over. -/
def example? (s : Strategy) (supply : Source.Supply) : Outcome Datum × Source.Supply :=
  match supply.wrap with
  | .error fault => (.error fault, supply)
  | .ok source =>
    let (value, left) := s.value.run source
    (value, match supply with
      | .source _ => .source left
      | other => other)

/-! ## Laws -/

/-- Where no bit may vary, nothing is drawn. -/
@[simp] theorem coins_nil (kind : Kind) (mask : Option Datum) (value : Datum) (s : Source) :
    (coins kind mask [] value).run s = (.ok value, s) := rfl

end FlagSets.Strategy
