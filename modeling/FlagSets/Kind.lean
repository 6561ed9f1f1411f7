import FlagSets.Word
import FlagSets.Flags

/-!
# Kinds of bit set

A kind is a way to represent a set of bit flags: a fixed-width word, a growable list of entries, or
a growable set that carries its own backing. Growable kinds differ in how they name themselves, how
much they allocate, and whether they check the indices they are given; their values are lists of
flags all the same.

## Main results

* `VarSet.test_set`, `VarSet.test_clear` : the set laws, whatever the backing.
* `VarSet.mem_indices` : the listed bits are the ones in the set.
-/

namespace FlagSets

/-- The growable representations.

* `boolVec` is a list of booleans and `bitArray` a packed array of bits. The latter is assumed to
  behave as the package it comes from documents.
* `halved` is a list of booleans that allocates only half of what it is asked for.
* `plain` is a list of booleans with the least a kind has to offer: it takes every value, and does
  not check indices.
* `bare` has no values at all: none of its operations is there. -/
inductive Backing
  | boolVec
  | bitArray
  | halved
  | plain
  | bare
  deriving DecidableEq, Repr

namespace Backing

/-- The name a backing goes by, if it has one. -/
def name? : Backing → Option String
  | boolVec => some "bool_vec"
  | bitArray => some "bitarray"
  | halved => some "short"
  | plain => none
  | bare => none

/-- The class of a backing. -/
def className : Backing → String
  | boolVec => "BoolVecBitSet"
  | bitArray => "BitArrayBitSet"
  | halved => "ShortAllocations"
  | plain => "Plain"
  | bare => "BitSetLike"

/-- A backing as messages show it: by its name, or else by its class. -/
def shown (b : Backing) : String := b.name?.getD (b.className ++ "()")

/-- The number of entries made when `n` are asked for. -/
def allotment : Backing → Int → Int
  | halved, n => n / 2
  | _, n => n

end Backing

/-- A growable set of bit flags: a backing, chosen when the set is made, and its entries. -/
structure VarSet where
  backing : Backing
  bits : List Bool
  deriving DecidableEq

namespace VarSet

/-- The empty set with room for `n` bits. -/
def empty (backing : Backing) (n : Nat) : VarSet :=
  ⟨backing, List.replicate (backing.allotment n).toNat false⟩

/-- The capacity: one more than the greatest bit that could be set without growing. -/
def length (s : VarSet) : Nat := s.bits.length

/-- Whether a bit is set. -/
def test (s : VarSet) (i : Nat) : Bool := Flags.test s.bits i

/-- The set with a bit added, grown to hold it. -/
def set (s : VarSet) (i : Nat) : VarSet := { s with bits := Flags.set s.bits i }

/-- The set with a bit removed. -/
def clear (s : VarSet) (i : Nat) : VarSet := { s with bits := Flags.clear s.bits i }

/-- The number of bits in the set. -/
def count (s : VarSet) : Nat := Flags.count s.bits

/-- The bits in the set, in ascending order. -/
def indices (s : VarSet) : List Nat := Flags.indices s.bits

/-- Two sets are equal when they are equally large and every bit of one is in the other. -/
def equal (s t : VarSet) : Bool := s.count == t.count && s.indices.all t.test

/-- Two sets differ when they are not equal. -/
def differ (s t : VarSet) : Bool := !s.equal t

/-- A set as messages show it. -/
def shown (s : VarSet) : String :=
  "VarBitSet([" ++ ", ".intercalate (s.indices.map toString) ++ "])"

/-! ## Laws -/

@[simp] theorem backing_set (s : VarSet) (i : Nat) : (s.set i).backing = s.backing := rfl

@[simp] theorem backing_clear (s : VarSet) (i : Nat) : (s.clear i).backing = s.backing := rfl

theorem test_set (s : VarSet) (i j : Nat) : (s.set i).test j = (j == i || s.test j) :=
  Flags.test_set s.bits i j

theorem test_clear (s : VarSet) (i j : Nat) : (s.clear i).test j = (j != i && s.test j) :=
  Flags.test_clear s.bits i j

@[simp] theorem mem_indices (s : VarSet) (i : Nat) : i ∈ s.indices ↔ s.test i = true :=
  Flags.mem_indices s.bits i

theorem length_indices (s : VarSet) : s.indices.length = s.count := Flags.length_indices s.bits

end VarSet

/-- A kind of bit set. -/
inductive Kind
  | word (k : WordKind)
  | growable (b : Backing)
  | varsize (b : Backing)
  deriving DecidableEq

namespace Kind

/-- The width of a fixed-width kind. The others grow. -/
def width? : Kind → Option Nat
  | word k => some k.width
  | growable _ => none
  | varsize _ => none

/-- The name a kind goes by, if it has one. -/
def name? : Kind → Option String
  | word k => some k.name
  | growable b => b.name?
  | varsize _ => none

/-- The class of a kind. -/
def className : Kind → String
  | word _ => "IntBitSet"
  | growable b => b.className
  | varsize _ => "VarBitSetLike"

/-- Whether every mention of a kind means the same one. The words that callers make and the kinds of
growable sets are made anew each time, and none of them is another. -/
def isShared : Kind → Bool
  | word k => k.shared
  | growable _ => true
  | varsize _ => false

/-- A kind as messages show it. -/
def shown : Kind → String
  | word k => k.name
  | growable b => b.shown
  | varsize b => "varsize(backend=" ++ b.shown ++ ")"

end Kind

end FlagSets
