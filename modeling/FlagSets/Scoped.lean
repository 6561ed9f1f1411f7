/-!
# Scoped variables

A variable with an initial value, whose value may be replaced for the length of a block. When the
block is over, however it ends, the variable is what it was before. Each thread sees the initial
value until it replaces it for itself.

## Main results

* `value_assign` : a variable holds what was assigned last.
* `value_within` : after a block the variable is what it was before it.
-/

namespace FlagSets

/-- A variable as one thread sees it: its initial value, and what it was replaced by. -/
structure Scoped (α : Type) where
  initial : α
  here : Option α

namespace Scoped

variable {α β : Type}

/-- A variable that nothing has replaced. -/
def ofInitial (a : α) : Scoped α := ⟨a, none⟩

/-- The value of a variable. -/
def value (s : Scoped α) : α := s.here.getD s.initial

/-- The variable with another value. -/
def assign (s : Scoped α) (a : α) : Scoped α := { s with here := some a }

/-- The variable as a fresh thread sees it. -/
def fresh (s : Scoped α) : Scoped α := { s with here := none }

/-- Runs a block with another value, and gives the variable its value back when the block is over.
A block that fails is over too: its failure is its result. -/
def within (a : α) (block : Scoped α → β × Scoped α) (s : Scoped α) : β × Scoped α :=
  let (result, after) := block (s.assign a)
  (result, after.assign s.value)

/-- Runs a block in a fresh thread. What it does to the variable stays there. -/
def inThread (block : Scoped α → β × Scoped α) (s : Scoped α) : β × Scoped α :=
  ((block s.fresh).1, s)

/-! ## Laws -/

/-- A variable holds what was assigned last. -/
@[simp] theorem value_assign (s : Scoped α) (a : α) : (s.assign a).value = a := rfl

/-- A fresh thread sees the initial value. -/
@[simp] theorem value_fresh (s : Scoped α) : s.fresh.value = s.initial := rfl

/-- After a block the variable is what it was before it. -/
@[simp] theorem value_within (a : α) (block : Scoped α → β × Scoped α) (s : Scoped α) :
    (within a block s).2.value = s.value := rfl

end Scoped

end FlagSets
