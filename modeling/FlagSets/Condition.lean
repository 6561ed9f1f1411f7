import FlagSets.Kind.Operations

/-!
# Conditions

Conditions on a generated value, as data: what the value's bits are, put together by the usual
connectives. A condition looks at a value through its kind, and fails where the kind does.
-/

namespace FlagSets

/-- A condition on a value. -/
inductive Condition
  /-- Always, or never. -/
  | const (b : Bool)
  /-- Every one of several conditions; those after one that does not hold are not looked at. -/
  | all (cs : List Condition)
  /-- One of several conditions; those after one that holds are not looked at. -/
  | any (cs : List Condition)
  | not (c : Condition)
  /-- A bit is set. -/
  | has (ix : Datum)
  /-- The value itself is less. -/
  | less (bound : Datum)
  /-- At least so many bits are set. -/
  | countAtLeast (n : Int)
  /-- The number of set bits has a remainder. -/
  | countRest (modulus rest : Int)
  /-- The sum of the set bits' positions has a remainder. -/
  | sumRest (modulus rest : Int)
  /-- Some set bit is at a position or after it. -/
  | anyAtLeast (n : Int)
  /-- Every set bit is at a position or after it. -/
  | allAtLeast (n : Int)
  /-- Holds, or fails when another condition holds. -/
  | failWhen (c : Condition)
  /-- Another condition, by one who then overwrites the value that was looked at. -/
  | spoiling (c : Condition)

namespace Condition

/-- Whether an integer leaves a remainder; there is none modulo zero. -/
def leaves (n modulus rest : Int) : Outcome Bool :=
  if modulus = 0 then throw .divisionByZero else pure (n.fmod modulus == rest)

variable [Memory]

/-- The positions of a value's set bits. -/
def positions (k : Kind) (v : Datum) : Outcome (List Int) := do
  return (← k.indices v).filterMap Datum.integer?

mutual

/-- Whether a condition holds of a value. -/
def holds (k : Kind) (v : Datum) : Condition → Outcome Bool
  | const b => pure b
  | all cs => holdsAll k v cs
  | any cs => holdsAny k v cs
  | not c => do return !(← c.holds k v)
  | has ix => do (← k.test v ix).truthy
  | less bound => v.isLess bound
  | countAtLeast n => do return n ≤ (← k.count v)
  | countRest modulus rest => do leaves (← k.count v) modulus rest
  | sumRest modulus rest => do leaves (← positions k v).sum modulus rest
  | anyAtLeast n => do return (← positions k v).any (n ≤ ·)
  | allAtLeast n => do return (← positions k v).all (n ≤ ·)
  | failWhen c => do if ← c.holds k v then throw .domain else return true
  | spoiling c => c.holds k v

/-- Whether every condition holds of a value. -/
def holdsAll (k : Kind) (v : Datum) : List Condition → Outcome Bool
  | [] => pure true
  | c :: cs => do if ← c.holds k v then holdsAll k v cs else return false

/-- Whether some condition holds of a value. -/
def holdsAny (k : Kind) (v : Datum) : List Condition → Outcome Bool
  | [] => pure false
  | c :: cs => do if ← c.holds k v then return true else holdsAny k v cs

end

end Condition

end FlagSets
