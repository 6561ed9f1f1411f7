/-!
# The memory of the machine

What a program can make depends on the machine it runs on. How much that is, is a parameter of
everything that makes collections, and nothing is assumed about it.
-/

namespace FlagSets

/-- The memory that a program runs in. -/
class Memory where
  /-- The number of entries that there is room for in a new collection, or at the end of an old
  one. -/
  room : Nat

/-- A memory with room for a thousand entries, where a closed statement needs one. -/
@[reducible] def Memory.small : Memory := ⟨1000⟩

end FlagSets
