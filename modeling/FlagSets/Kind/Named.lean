import FlagSets.VarSet.Backend

/-!
# Kinds by name

The kinds that have a name of their own, and the kinds of growable sets over a named backing.
-/

namespace FlagSets.Kind

/-- The greatest width that the integers of a word can have: they are kept in digits of thirty bits,
four bytes each, and no object is larger than a length can say. -/
def maxWidth : Nat := 30 * ((Datum.maxLength - 24) / 4 - 1)

/-- The kind of the words of a given width and sign. -/
def ofWidth [Memory] (name : String) (width : Int) (signed : Bool) : Outcome Kind :=
  if maxWidth < width then throw .overflow
  else if Memory.room < width then throw .exhausted
  else match WordKind.ofWidth? name width signed with
    | some w => pure (word w)
    | none => throw .domain

/-- The growable representation of a given name. -/
def backingNamed? : String → Option Backing
  | "bool_vec" => some .boolVec
  | "bitarray" => some .bitArray
  | "short" => some .halved
  | "plain" => some .plain
  | "abstract" => some .bare
  | _ => none

/-- The kind that a list of names spells: a word, a growable representation, or `varsize` followed
by the name of what backs it. Without a backing the settings in force choose. -/
def ofNames (inForce : Datum) : List String → Outcome Kind
  | [] => throw .missing
  | ["varsize"] => varsizeOf inForce .absent
  | [name] =>
    match WordKind.all.find? fun w => w.name == name, backingNamed? name with
    | some w, _ => pure (word w)
    | none, some b => pure (growable b)
    | none, none => throw .missing
  | "varsize" :: rest => do varsizeOf inForce (.kind (← ofNames inForce rest))
  | _ => throw .missing

/-- The kind of a given name, whose parts are separated by colons. -/
def named (inForce : Datum) (name : String) : Outcome Kind :=
  ofNames inForce (name.splitOn ":")

end FlagSets.Kind
