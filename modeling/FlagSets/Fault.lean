import FlagSets.Datum

/-!
# Faults

Everything that can go wrong, by cause. A refusal says which argument was not accepted and why; the
other faults come from states, from sources of randomness that run dry, and from operations that a
datum of some type does not have. The wording of every cause is in `Refusal.message` and
`Fault.message`, and nowhere else. A cause is worded before it is raised, and if that fails, because
an integer in it is too long to be written out, then this is what is raised in its place.

## Main results

* `Refusal.isSome_message` : a refusal can be worded exactly if all that it quotes is legible.
* `Outcome.bind_eq_ok_iff` : what a chain of outcomes gives, taken apart link by link.
-/

namespace FlagSets

/-- What a datum may be required to be. -/
inductive DatumType
  | integer
  | string
  | list
  | float
  | bool
  | tuple
  | range
  | sizeRange
  | bitArray
  | varSet
  | kind
  | settings
  | random
  | anything
  deriving DecidableEq, Repr

namespace DatumType

/-- Every type that can be required. -/
def all : List DatumType :=
  [integer, string, list, float, bool, tuple, range, sizeRange, bitArray, varSet, kind, settings,
    random, anything]

/-- The name of a type. -/
def name : DatumType → String
  | integer => "int"
  | string => "str"
  | list => "list"
  | float => "float"
  | bool => "bool"
  | tuple => "tuple"
  | range => "range"
  | sizeRange => "SizeRange"
  | bitArray => "bitarray"
  | varSet => "VarBitSet"
  | kind => "BitSetLike"
  | settings => "settings"
  | random => "Random"
  | anything => "object"

/-- The type of a given name. -/
def ofName? (s : String) : Option DatumType := all.find? fun t => t.name == s

/-- Whether a datum is of a type. Booleans and levels are integers too. -/
def holds : DatumType → Datum → Bool
  | integer, .bool _ => true
  | integer, .num _ => true
  | string, .text _ => true
  | list, .list _ => true
  | float, .float _ => true
  | bool, .bool _ => true
  | tuple, .tuple _ => true
  | range, .range _ _ _ => true
  | sizeRange, .span _ => true
  | bitArray, .bitArray _ => true
  | varSet, .varSet _ => true
  | kind, .kind _ => true
  | settings, .settings _ => true
  | anything, _ => true
  | _, _ => false

end DatumType

/-- Why an argument is not accepted. -/
inductive Refusal
  /-- It is of none of the required types. -/
  | wrongType (expected : List DatumType) (name : String) (got : Datum)
  /-- It is a boolean where an integer is wanted. -/
  | boolean (name : String) (got : Datum)
  /-- It is a bit position below zero. -/
  | negativeIndex (name : String) (got : Numeral)
  /-- An upper bound lies below its lower bound. -/
  | crossedBounds (lowerName upperName : String) (lower upper : Datum)
  /-- An upper bound lies past the width of a kind. -/
  | tooWide (name : String) (bound : Datum) (kind : Kind) (width : Nat)
  /-- It is an integer that is no value of a word. -/
  | unrepresentable (name : String) (got : Numeral) (word : WordKind)
  /-- It is a list with an entry that is not a boolean. -/
  | notFlag (name : String) (position : Nat) (entry : Datum)
  /-- A growable set cannot be backed by a kind of fixed width. -/
  | fixedBackend (kind : Kind) (width : Nat)
  /-- A growable set cannot be backed by another one. -/
  | nestedBackend
  /-- No backend goes by this name. -/
  | unknownBackend (got : Datum)
  /-- A range with a step other than one. -/
  | stepped (name : String) (got : Datum)
  /-- A tuple that is not a pair. -/
  | notPair (name : String) (got : Datum)
  /-- A range without elements where one is needed. -/
  | emptyRange (name : String) (got : Datum)
  /-- More set bits are asked for than there are bits to choose from. -/
  | tooFewBits (available : Nat) (start endExcl : Numeral)
  /-- More elements are asked for than there are. -/
  | cannotChoose (n : Numeral) (available : Nat)
  /-- It is not a source of randomness. -/
  | notSource (got : Datum)
  /-- It is not a strategy. -/
  | notStrategy (got : Datum)
  /-- It is not the settings it should be. -/
  | notParent (got : Datum)
  /-- No setting has this name. -/
  | unknownSetting (name : String)
  /-- It is none of a setting's options. -/
  | notOption (setting : String) (got : Datum) (options : Datum)
  /-- The number of examples is below one. -/
  | tooFewExamples (got : Datum)
  /-- The number of shrinks is below zero. -/
  | negativeShrinks (got : Datum)
  /-- No profile is registered under this name. -/
  | unknownProfile (name : String)

namespace Refusal

/-- What a refusal is worded as, unless something it quotes is too long to be written out. -/
def message : Refusal → Option String
  | wrongType expected name got => do
    let wanted := match expected with
      | [one] => one.name
      | several => "one of " ++ ", ".intercalate (several.map DatumType.name)
    return "Expected " ++ wanted ++ " but got " ++ name ++ "=" ++ (← got.shown) ++ " (type=" ++
      got.typeName ++ ")"
  | boolean name got => do return "Expected an integer but got " ++ name ++ "=" ++ (← got.shown)
  | negativeIndex name got => do
    return "Invalid bit index " ++ name ++ "=" ++ (← (Datum.num got).shown) ++ " < 0"
  | crossedBounds lowerName upperName lower upper => do
    return "Cannot have " ++ upperName ++ "=" ++ (← upper.shown) ++ " < " ++ lowerName ++ "=" ++
      (← lower.shown)
  | tooWide name bound kind width => do
    return name ++ "=" ++ (← bound.shown) ++ " is out of range for " ++ kind.shown ++
      ", which only has " ++ (← Text.digits? width) ++ " bits"
  | unrepresentable name got word => do
    return name ++ "=" ++ (← (Datum.num got).shown) ++ " cannot be represented as " ++ word.name ++
      ", whose values lie in [" ++ (← Text.digits? word.minValue) ++ ", " ++
      (← Text.digits? word.maxValue) ++ "]"
  | notFlag name position entry => do
    return "Expected a list of bools but got " ++ name ++ "[" ++ (← Text.digits? position) ++
      "]=" ++ (← entry.shown) ++ " (type=" ++ entry.typeName ++ ")"
  | fixedBackend kind width => do
    return "backend=" ++ kind.shown ++ " has a fixed width of " ++ (← Text.digits? width) ++
      " bits, but VarBitSet needs a kind which can grow"
  | nestedBackend => some "VarBitSet cannot be backed by another VarBitSet"
  | unknownBackend got => do
    return "Unknown backend=" ++ (← got.shown) ++ ". Valid options: 'bool_vec', 'bitarray'"
  | stepped name got => do return name ++ "=" ++ (← got.shown) ++ " must have a step of 1"
  | notPair name got => do
    return name ++ "=" ++ (← got.shown) ++ " must be a (start, end_excl) pair"
  | emptyRange name got => do
    return name ++ "=" ++ (← got.shown) ++ " is empty, so no value is possible"
  | tooFewBits available start endExcl => do
    return "Illegal SampledBitSetStrategy: have " ++ (← Text.digits? available) ++
      " bits available, but requested size is " ++ (← Text.digits? start.value) ++ ".." ++
      (← Text.digits? endExcl.value)
  | cannotChoose n available => do
    return "Cannot choose n=" ++ (← (Datum.num n).shown) ++ " distinct elements from " ++
      (← Text.digits? available) ++ " values"
  | notSource got => do
    return "Expected a RandomSource or random.Random instance but got source=" ++ (← got.shown) ++
      " (type=" ++ got.typeName ++ ")"
  | notStrategy got => do
    return "Expected SearchStrategy but got " ++ (← got.shown) ++ " of type " ++ got.typeName
  | notParent got => do
    return "Invalid argument: parent=" ++ (← got.shown) ++ " is not a settings instance"
  | unknownSetting name =>
    some ("Invalid argument: " ++ Text.quoted name ++ " is not a valid setting")
  | notOption setting got options => do
    return "Invalid " ++ setting ++ ", " ++ (← got.shown) ++ ". Valid options: " ++
      (← options.shown)
  | tooFewExamples got => do
    return "max_examples=" ++ (← got.shown) ++ " should be at least one."
  | negativeShrinks got => do return "max_shrinks=" ++ (← got.shown) ++ " must be non-negative."
  | unknownProfile name => some ("Profile " ++ Text.quoted name ++ " is not registered")

/-- The data that a refusal quotes, and the numbers in it. -/
def quoted : Refusal → List Datum
  | wrongType _ _ got => [got]
  | boolean _ got => [got]
  | negativeIndex _ got => [.num got]
  | crossedBounds _ _ lower upper => [upper, lower]
  | tooWide _ bound _ width => [bound, .nat width]
  | unrepresentable _ got word => [.num got, .int word.minValue, .int word.maxValue]
  | notFlag _ position entry => [.nat position, entry]
  | fixedBackend _ width => [.nat width]
  | unknownBackend got => [got]
  | stepped _ got => [got]
  | notPair _ got => [got]
  | emptyRange _ got => [got]
  | tooFewBits available start endExcl => [.nat available, .int start.value, .int endExcl.value]
  | cannotChoose n available => [.num n, .nat available]
  | notSource got => [got]
  | notStrategy got => [got]
  | notParent got => [got]
  | notOption _ got options => [got, options]
  | tooFewExamples got => [got]
  | negativeShrinks got => [got]
  | nestedBackend | unknownSetting _ | unknownProfile _ => []

/-- A text is there if its parts are, whatever is made of them. -/
private theorem any_const {α : Type} (o : Option α) (b : Bool) :
    o.any (fun _ => b) = (o.isSome && b) := by
  cases o <;> rfl

/-- A refusal can be worded exactly if all that it quotes is legible. -/
theorem isSome_message (why : Refusal) : why.message.isSome = why.quoted.all Datum.isLegible := by
  unfold message
  cases why <;>
    simp [quoted, Option.isSome_bind, any_const, Datum.isSome_shown, Text.isSome_digits?,
      Datum.isLegible_int, Datum.isLegible_nat]

end Refusal

/-- An attempt to change what cannot be changed. -/
inductive Fixed
  /-- A field of settings that exist. -/
  | field
  /-- The settings in force, other than by loading a profile. -/
  | inForce
  /-- What all settings share, under the given name. -/
  | shared (name : String) (value : Datum)
  /-- The removal of a setting. -/
  | removal (name : String)

/-- The wording for an attempt to change what cannot be changed. -/
def Fixed.message : Fixed → Option String
  | field => some "settings objects are immutable and may not be assigned to after construction."
  | inForce =>
    some
      "Cannot assign to settings.default - use settings.load_profile or local_settings instead."
  | shared name value => do
    return "Cannot assign bitshrink.settings." ++ name ++ "=" ++ (← value.shown) ++
      ". Settings are immutable: load a profile, or pass settings(...) to find()."
  | removal name => some ("Cannot delete attribute " ++ name)

/-- The classes of errors that the library defines. -/
inductive ErrorClass
  | general
  | invalidArgument
  | invalidState
  | insufficientCapacity
  | noSuchExample
  deriving DecidableEq, Repr

namespace ErrorClass

/-- Every class. -/
def all : List ErrorClass :=
  [general, invalidArgument, invalidState, insufficientCapacity, noSuchExample]

/-- The name of a class. -/
def name : ErrorClass → String
  | general => "BitshrinkException"
  | invalidArgument => "InvalidArgument"
  | invalidState => "InvalidState"
  | insufficientCapacity => "InsufficientCapacity"
  | noSuchExample => "NoSuchExample"

/-- The class of a given name. -/
def ofName? (s : String) : Option ErrorClass := all.find? fun c => c.name == s

/-- The names of a class and of the classes above it, the nearest first. -/
def lineage (c : ErrorClass) : List String :=
  let above := ["Exception", "BaseException", "object"]
  match c with
  | general => c.name :: above
  | invalidArgument => c.name :: general.name :: "TypeError" :: above
  | c => c.name :: general.name :: above

/-- Every class belongs to the general one. -/
theorem general_mem_lineage (c : ErrorClass) : general.name ∈ c.lineage := by
  cases c <;> decide

end ErrorClass

/-- What went wrong. -/
inductive Fault
  /-- An argument is not accepted. -/
  | refused (why : Refusal)
  /-- No further settings may be defined. -/
  | locked
  /-- A kind made room for fewer bits than were to be set. -/
  | tooSmall (kind : Kind) (asked : Numeral) (room : Nat) (wanted : Numeral)
  /-- No example satisfies the condition. -/
  | noExample (condition : Datum) (extra : Datum)
  /-- A bit lies past the width of a word. -/
  | pastWidth (index : Numeral) (word : WordKind)
  /-- A collection of the given type is written past its ends. -/
  | pastEnd (type : String)
  /-- An index is larger than any length could be. -/
  | pastLengths
  /-- An operation is not there. -/
  | unimplemented (what : String)
  /-- What cannot be changed was to be changed. -/
  | fixed (what : Fixed)
  /-- The fields of a range cannot be assigned. -/
  | frozen
  /-- A datum is of a type that does not take part in an operation. -/
  | mismatch
  /-- A datum has no such attribute or method. -/
  | missing
  /-- A value lies outside the domain of an operation. -/
  | domain
  /-- A count is too large for a length. -/
  | overflow
  /-- More memory is asked for than there is. -/
  | exhausted
  /-- A dictionary has no such key. -/
  | noKey
  /-- A division by zero. -/
  | divisionByZero
  /-- A requirement on the caller does not hold. -/
  | assertion
  /-- An iteration is over. -/
  | ended
  /-- A tape has no entries left. -/
  | dry
  /-- A source kept delivering draws that had to be rejected. -/
  | stalled
  /-- An integer is too long to be written out. -/
  | tooLong

namespace Fault

instance : Inhabited Fault := ⟨mismatch⟩

/-- The wording of a fault, unless something it quotes is too long to be written out; empty where
the fault has none of its own. -/
def message : Fault → Option String
  | refused why => why.message
  | locked => some "settings have been locked and may no longer be defined."
  | tooSmall kind asked room wanted => do
    return kind.shown ++ ".new_bitset(" ++ (← Text.digits? asked.value) ++ ") can only address " ++
      (← Text.digits? room) ++ " bits, not enough to sample " ++ (← Text.digits? wanted.value)
  | noExample condition extra => do
    return "No examples found of condition " ++ (← condition.display) ++ (← extra.display)
  | pastWidth index word => do
    return "bit " ++ (← Text.digits? index.value) ++ " is out of range for " ++ word.name
  | pastEnd type => some (type ++ " assignment index out of range")
  | pastLengths => some "cannot fit 'int' into an index-sized integer"
  | unimplemented what => some what
  | fixed what => what.message
  | _ => some ""

/-- What is raised where a fault is to be reported: the fault itself, or that there is no way to
word it. -/
def raised (fault : Fault) : Fault := if fault.message.isSome then fault else tooLong

/-- The class of errors of the library's own that a fault belongs to. -/
def errorClass? : Fault → Option ErrorClass
  | refused _ => some .invalidArgument
  | locked => some .invalidState
  | tooSmall _ _ _ _ => some .insufficientCapacity
  | noExample _ _ => some .noSuchExample
  | _ => none

end Fault

/-- A result, or the fault that kept it from being computed. -/
abbrev Outcome (α : Type) := Except Fault α

namespace Outcome

/-- An outcome that is a refusal, if it can be worded. -/
def refuse {α : Type} (why : Refusal) : Outcome α := .error (Fault.refused why).raised

/-! ## Laws -/

/-- A refusal is no result. -/
@[simp] theorem refuse_ne_ok {α : Type} (why : Refusal) (a : α) :
    (refuse why : Outcome α) ≠ .ok a := nofun

/-- A refusal that quotes what is not legible is not raised: there is no way to word it. -/
theorem refuse_eq_tooLong {α : Type} {why : Refusal}
    (h : why.quoted.all Datum.isLegible = false) : (refuse why : Outcome α) = .error .tooLong := by
  have hmute : (Fault.refused why).message.isSome = false := (why.isSome_message).trans h
  exact congrArg Except.error (if_neg (Bool.eq_false_iff.mp hmute))

/-- One outcome followed by another has the result of the second, if both have one. -/
theorem bind_eq_ok_iff {α β : Type} {o : Outcome α} {f : α → Outcome β} {b : β} :
    o >>= f = .ok b ↔ ∃ a, o = .ok a ∧ f a = .ok b := by
  cases o with
  | error fault =>
      constructor
      · intro h
        cases h
      · rintro ⟨a, ha, -⟩
        cases ha
  | ok a =>
      constructor
      · intro h
        exact ⟨a, rfl, h⟩
      · rintro ⟨a', ha, h⟩
        cases ha
        exact h

end Outcome

end FlagSets
