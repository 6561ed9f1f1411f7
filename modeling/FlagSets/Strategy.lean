import FlagSets.Span
import FlagSets.VarSet.Backend

/-!
# Strategies

A strategy says which values of a kind may be generated. A range strategy lets every bit between two
bounds vary, or those of them that a mask has set; a sampled strategy fixes how many bits are set
and the bits they are chosen from. Arguments are checked when a strategy is made.
-/

namespace FlagSets

open Outcome

/-- Which values may be generated. `bare` generates none. -/
inductive Strategy
  | range (kind : Kind) (minBit maxBit : Numeral) (mask : Option Datum)
  | sampled (kind : Kind) (size bits : Span Numeral)
  | bare

namespace Strategy

/-- Requires a datum to be a kind. -/
def requireKind (d : Datum) : Outcome Kind :=
  match d with
  | .kind k => pure k
  | d => refuse (.wrongType [.kind] "kind" d)

/-- The strategy that lets the bits from one bound up to another vary, and with a mask only those
that it has set. -/
def ofBounds [Memory] (kind minBit maxBit mask : Datum) : Outcome Strategy := do
  let k ← requireKind kind
  let low ← requireIndex minBit "min_bit"
  let high ← requireIndex maxBit "max_bit"
  requireOrdered minBit maxBit "min_bit" "max_bit"
  requireWidth k maxBit "max_bit"
  match mask with
  | .absent => return .range k low high none
  | mask => do
    k.requireValue mask "mask"
    return .range k low high (some (← k.copy mask))

/-- The strategy that lets the bits vary that a mask has set. -/
def ofMask [Memory] (kind mask : Datum) : Outcome Strategy := do
  let k ← requireKind kind
  k.requireValue mask "mask"
  ofBounds kind (.int 0) (.nat (← k.length mask)) mask

/-- The strategy that sets a number of bits out of `size`, all of them within `bits`. -/
def ofSize (kind size bits : Datum) : Outcome Strategy := do
  let k ← requireKind kind
  let size ← Span.ofDatum size "size"
  let bits ← Span.ofDatum bits "bits"
  if size.endExcl.value ≤ size.start.value then
    refuse (.emptyRange "size" (.ofSpan size))
  requireWidth k (.num bits.endExcl) "bits.end_excl"
  let available ← Datum.reportable bits.size
  if (available : Int) < size.last then
    refuse (.tooFewBits available size.start size.endExcl)
  return .sampled k size bits

/-- The kind whose values a strategy generates. -/
def kind? : Strategy → Option Kind
  | range k _ _ _ => some k
  | sampled k _ _ => some k
  | bare => none

/-- The class of a strategy. -/
def className : Strategy → String
  | range _ _ _ _ => "BitSetStrategy"
  | sampled _ _ _ => "SampledBitSetStrategy"
  | bare => "SearchStrategy"

/-- The wording of a strategy, however long the integers in it are. -/
def wording : Strategy → String
  | range k _ _ (some mask) => k.shown ++ ".masked(" ++ mask.wording ++ ")"
  | range k minBit maxBit none =>
    k.shown ++ ".between(" ++ minBit.wording ++ ", " ++ maxBit.wording ++ ")"
  | sampled k size bits =>
    k.shown ++ ".sampled(range(" ++ size.start.digits ++ ", " ++ size.endExcl.digits ++
      "), range(" ++ bits.start.digits ++ ", " ++ bits.endExcl.digits ++ "))"
  | bare => "SearchStrategy()"

/-- Whether every integer that a strategy is shown with is short enough to be written out. -/
def isLegible : Strategy → Bool
  | range _ _ _ (some mask) => mask.isLegible
  | range _ minBit maxBit none => minBit.isLegible && maxBit.isLegible
  | sampled _ size bits =>
    Text.isShort size.start.value && Text.isShort size.endExcl.value &&
      Text.isShort bits.start.value && Text.isShort bits.endExcl.value
  | bare => true

/-- A strategy as messages show it, if it can be shown. -/
def shown (s : Strategy) : Option String := if s.isLegible then some s.wording else none

/-- A strategy as a datum, which is the same at every mention or made anew for each. -/
def toDatum (s : Strategy) (shared : Bool) : Datum := .object s.className s.shown shared

end Strategy

end FlagSets
