import FlagSets.Strategy.Family

/-!
# Calls by name

A strategy as it is asked for by name: the family it belongs to, the function, and the arguments,
some by position and some by name. Arguments are bound to the function's parameters first; a call
that does not fit them is a mismatch, whatever its arguments are.
-/

namespace FlagSets

/-- The parameters of a function: those taken by position or by name, each with whether it is
required, and those taken by name only. -/
structure Parameters where
  named : List (String × Bool)
  byName : List String := []

namespace Parameters

/-- The argument bound to the parameter at a position; nothing is absent. -/
def argument (args : List Datum) (named : List (String × Datum)) (p : (String × Bool) × Nat) :
    Outcome Datum :=
  match args[p.2]?, named.lookup p.1.1 with
  | some _, some _ => throw .mismatch
  | some a, none => pure a
  | none, some a => pure a
  | none, none => if p.1.2 then throw .mismatch else pure .absent

/-- Binds arguments to parameters, in the order of the parameters. -/
def bind (ps : Parameters) (args : List Datum) (named : List (String × Datum)) :
    Outcome (List Datum) := do
  if ps.named.length < args.length then throw .mismatch
  if named.any fun e => !(ps.named.map Prod.fst ++ ps.byName).contains e.1 then throw .mismatch
  let bound ← ps.named.zipIdx.mapM (argument args named)
  return bound ++ ps.byName.map fun n => (named.lookup n).getD .absent

/-- Required parameters of the given names. -/
def required (names : List String) : Parameters := ⟨names.map (·, true), []⟩

end Parameters

/-- A strategy asked for by name. -/
structure Call where
  family : String
  function : String
  args : List Datum
  named : List (String × Datum)

namespace Call

/-- The strategy that a function of a family makes of the arguments. Only the growable sets take a
backend, and only by name. -/
def ofFamily [Memory] (f : Family) (inForce : Datum) (c : Call) : Outcome Strategy := do
  let byName := if f = .varsize then ["backend"] else []
  let bound (names : List String) := Parameters.bind { Parameters.required names with byName }
    c.args c.named
  match c.function with
  | "between" => do
    match ← bound ["min_bit", "max_bit"] with
    | low :: high :: backend => f.between inForce (backend.headD .absent) low high
    | _ => throw .mismatch
  | "masked" => do
    match ← bound ["mask"] with
    | mask :: backend => f.masked inForce (backend.headD .absent) mask
    | _ => throw .mismatch
  | "sampled" => do
    match ← bound ["size", "bits"] with
    | size :: bits :: backend => f.sampled inForce (backend.headD .absent) size bits
    | _ => throw .mismatch
  | "ANY" => f.any?.getD (throw .missing)
  | _ => throw .missing

/-- The strategy that a function makes which takes the kind as its first argument. -/
def ofKind [Memory] (c : Call) : Outcome Strategy := do
  let bound (ps : Parameters) := ps.bind c.args c.named
  match c.function with
  | "between" => do
    match ← bound (.required ["kind", "min_bit", "max_bit"]) with
    | [kind, low, high] => Strategy.ofBounds kind low high .absent
    | _ => throw .mismatch
  | "range" => do
    match ← bound ⟨[("kind", true), ("min_bit", true), ("max_bit", true), ("mask", false)], []⟩ with
    | [kind, low, high, mask] => Strategy.ofBounds kind low high mask
    | _ => throw .mismatch
  | "masked" => do
    match ← bound (.required ["kind", "mask"]) with
    | [kind, mask] => Strategy.ofMask kind mask
    | _ => throw .mismatch
  | "sampled" => do
    match ← bound (.required ["kind", "size", "bits"]) with
    | [kind, size, bits] => Strategy.ofSize kind size bits
    | _ => throw .mismatch
  | "base" => do
    let _ ← bound (.required [])
    return .bare
  | _ => throw .missing

/-- The strategy that a call asks for. -/
def strategy [Memory] (inForce : Datum) (c : Call) : Outcome Strategy :=
  match c.family with
  | "bitarray" => ofFamily (.kind (.growable .bitArray)) inForce c
  | "generic" => c.ofKind
  | "class" => c.ofKind
  | name =>
    match Family.ofName? name with
    | some f => ofFamily f inForce c
    | none => throw .missing

/-- The strategy that a call asks for, as a datum. The one that lets every bit of a family vary was
made with the family; every other call makes a strategy of its own. -/
def datum [Memory] (inForce : Datum) (c : Call) : Outcome Datum := do
  return (← c.strategy inForce).toDatum (c.function == "ANY")

end Call

end FlagSets
