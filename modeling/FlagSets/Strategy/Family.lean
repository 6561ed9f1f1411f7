import FlagSets.Strategy

/-!
# Families of strategies

The strategies that one representation offers under its name. A word of explicit size also offers
the strategy that lets all its bits vary; the growable sets take the backend as a further argument.
-/

namespace FlagSets

/-- The strategies of one representation. -/
inductive Family
  /-- A word of explicit size. -/
  | word (k : WordKind)
  /-- Any other kind. -/
  | kind (k : Kind)
  /-- The growable sets, over any backend. -/
  | varsize
  deriving DecidableEq

namespace Family

/-- Every family, by the name it goes by. -/
def all : List (String × Family) :=
  [("u8", word .u8), ("u16", word .u16), ("u32", word .u32), ("u64", word .u64),
    ("i8", word .i8), ("i16", word .i16), ("i32", word .i32), ("i64", word .i64),
    ("usize", kind (.word .usize)), ("isize", kind (.word .isize)),
    ("bool_vec", kind (.growable .boolVec)), ("varsize", varsize)]

/-- The family of a given name. -/
def ofName? (name : String) : Option Family := all.lookup name

/-- The kind of a family's values, if it is settled. -/
def kind? : Family → Option Kind
  | word k => some (.word k)
  | kind k => some k
  | varsize => none

/-- The kind of a family's values for a backend, which only the growable sets look at. -/
def kindFor (f : Family) (inForce backend : Datum) : Outcome Kind :=
  match f with
  | word k => pure (.word k)
  | kind k => pure k
  | varsize => Kind.varsizeOf inForce backend

/-- A family as messages show it. -/
def shown : Family → String
  | word k => "IntBitSetNamespace(" ++ k.name ++ ")"
  | kind k => "BitSetNamespace(" ++ k.shown ++ ")"
  | varsize => "varsize"

/-- The strategy that lets every bit vary, where a family has one. -/
def any? [Memory] : Family → Option (Outcome Strategy)
  | word k => some (Strategy.ofBounds (.kind (.word k)) (.int 0) (.nat k.width) .absent)
  | _ => none

/-- The strategy that lets the bits between two bounds vary. -/
def between [Memory] (f : Family) (inForce backend minBit maxBit : Datum) : Outcome Strategy := do
  Strategy.ofBounds (.kind (← f.kindFor inForce backend)) minBit maxBit .absent

/-- The strategy that lets the bits of a mask vary. -/
def masked [Memory] (f : Family) (inForce backend mask : Datum) : Outcome Strategy := do
  Strategy.ofMask (.kind (← f.kindFor inForce backend)) mask

/-- The strategy that sets a number of bits within bounds. -/
def sampled (f : Family) (inForce backend size bits : Datum) : Outcome Strategy := do
  Strategy.ofSize (.kind (← f.kindFor inForce backend)) size bits

end Family

end FlagSets
