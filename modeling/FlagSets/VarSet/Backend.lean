import FlagSets.Kind.Operations

/-!
# Making growable sets

Which representation backs a growable set is decided once, when the set is made: by the backend
handed over, or else by the settings in force at that moment.

## Main results

* `resolve_kind_growable` : a growable kind is its own backing, whatever settings are in force.
* `backing_make` : a set is backed by what its backend was resolved to.
-/

namespace FlagSets

open Outcome

/-- The backing that a backend names: a kind that grows, or the name of one of the two that come
with the library. Without a backend the settings in force choose. -/
def Backing.resolve (inForce backend : Datum) : Outcome Backing := do
  let chosen ← match backend with
    | .absent =>
      match inForce with
      | .settings s => pure s.bitsetBackend
      | _ => throw .missing
    | d => pure d
  match chosen with
  | .kind (.growable b) => return b
  | .kind (.word w) => refuse (.fixedBackend (.word w) w.width)
  | .kind (.varsize _) => refuse .nestedBackend
  | .text s =>
    if s = "bool_vec" then return .boolVec
    else if s = "bitarray" then return .bitArray
    else refuse (.unknownBackend (.text s))
  | d => refuse (.wrongType [.string] "backend" d)

/-- The kind whose values are growable sets over the given backend. -/
def Kind.varsizeOf (inForce backend : Datum) : Outcome Kind := do
  return .varsize (← Backing.resolve inForce backend)

/-- A growable kind is its own backing, whatever settings are in force. -/
@[simp] theorem Backing.resolve_kind_growable (inForce : Datum) (b : Backing) :
    Backing.resolve inForce (.kind (.growable b)) = .ok b := rfl

namespace VarSet

variable [Memory]

/-- An empty set with space for as many bits as asked for. -/
def make (inForce maxBits backend : Datum) : Outcome VarSet := do
  let backing ← Backing.resolve inForce backend
  return ⟨backing, List.replicate (← backing.room maxBits) false⟩

/-- The set with exactly the given indices, which start from as much space as their collection says
it will need. -/
def fromIndices (inForce indices backend : Datum) : Outcome VarSet := do
  let hint ← indices.lengthHint
  let start ← make inForce (.nat hint) backend
  (← indices.elements).foldlM setAt start

/-- The set of the indices below a length. -/
def saturated (inForce length backend : Datum) : Outcome VarSet :=
  match length.integer? with
  | some n => fromIndices inForce (.range 0 n 1) backend
  | none => throw .mismatch

/-! ## Laws -/

/-- A set is backed by what its backend was resolved to. -/
theorem backing_make {inForce maxBits backend : Datum} {s : VarSet}
    (h : make inForce maxBits backend = .ok s) :
    Backing.resolve inForce backend = .ok s.backing := by
  simp only [make, bind, Except.bind] at h
  split at h
  · simp at h
  · rename_i b hb
    split at h
    · simp at h
    · simp only [pure, Except.pure, Except.ok.injEq] at h
      rw [hb, ← h]

end VarSet

end FlagSets
