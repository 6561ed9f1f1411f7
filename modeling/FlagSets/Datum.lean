import FlagSets.Binary64
import FlagSets.Kind
import FlagSets.Numeral
import FlagSets.Text.Quoted

/-!
# Data

A datum is a value as a caller hands it over, before anything is known about it. Bounds, masks,
sizes, settings and backends all arrive as data; the library checks them, and quotes in its messages
those it refuses. The values of the kinds are data too: words are numbers, lists of flags are lists
of booleans. A datum with an integer that is too long to be written out has no quotation; its
wording is what the quotation would be.

## Main results

* `number?_bool`, `number?_num` : booleans and levels count as integers.
* `bools_injective` : a list of flags is determined by the datum it is handed over as.
-/

namespace FlagSets

/-- A half-open range from `start` up to but not including `endExcl`. -/
structure Span (α : Type) where
  start : α
  endExcl : α
  deriving DecidableEq

/-- One value for each setting. -/
structure Config (α : Type) where
  maxExamples : α
  maxShrinks : α
  derandomize : α
  verbosity : α
  bitsetBackend : α
  deriving DecidableEq

/-- A value as a caller hands it over.

* `absent` stands for no value, and `unset` marks a setting left to its default.
* `bitArray` is a packed array of bits as the package for them documents it, a sequence of bits.
* `stream` yields its items once, and may or may not know how many there are.
* `object` is a value of which nothing matters but its type, how it is shown, if it can be, and
  whether every mention of it means the same one. -/
inductive Datum
  | absent
  | unset
  | bool (b : Bool)
  | num (n : Numeral)
  | float (x : Binary64)
  | text (s : String)
  | list (items : List Datum)
  | tuple (items : List Datum)
  | dict (entries : List (Datum × Datum))
  | range (start stop step : Int)
  | span (r : Span Datum)
  | bitArray (bits : List Bool)
  | varSet (s : VarSet)
  | kind (k : Kind)
  | settings (s : Config Datum)
  | stream (sized : Bool) (items : List Datum)
  | object (type : String) (shown? : Option String) (shared : Bool)

/-- The settings a run obeys. -/
abbrev Settings := Config Datum

namespace Datum

instance : Inhabited Datum := ⟨absent⟩

/-- A plain integer. -/
def int (n : Int) : Datum := num (.plain n)

/-- A natural number. -/
def nat (n : Nat) : Datum := int n

/-- A list of flags as a datum. -/
def bools (bs : List Bool) : Datum := list (bs.map bool)

/-- A span of numerals as a datum. -/
def ofSpan (r : Span Numeral) : Datum := span ⟨num r.start, num r.endExcl⟩

/-- The name of a datum's type. -/
def typeName : Datum → String
  | absent => "NoneType"
  | unset => "UniqueIdentifier"
  | bool _ => "bool"
  | num (.plain _) => "int"
  | num (.level _) => "Verbosity"
  | float _ => "float"
  | text _ => "str"
  | list _ => "list"
  | tuple _ => "tuple"
  | dict _ => "dict"
  | range _ _ _ => "range"
  | span _ => "SizeRange"
  | bitArray _ => "bitarray"
  | varSet _ => "VarBitSet"
  | kind k => k.className
  | settings _ => "settings"
  | stream sized _ => if sized then "list_iterator" else "generator"
  | object type _ _ => type

/-- A row of flags as digits, the first entry first. -/
def bitDigits (bits : List Bool) : String :=
  String.ofList (bits.map fun b => if b then '1' else '0')

/-- A boolean as messages quote it. -/
def boolWord (b : Bool) : String := if b then "True" else "False"

mutual

/-- The wording of a datum, however long the integers in it are. -/
def wording : Datum → String
  | absent => "None"
  | unset => "not_set"
  | bool b => boolWord b
  | num n => n.wording
  | float x => x.text
  | text s => Text.quoted s
  | list items => "[" ++ ", ".intercalate (wordings items) ++ "]"
  | tuple items =>
    match wordings items with
    | [one] => "(" ++ one ++ ",)"
    | several => "(" ++ ", ".intercalate several ++ ")"
  | dict entries => "\x7b" ++ ", ".intercalate (entryWordings entries) ++ "\x7d"
  | range start stop step =>
    "range(" ++ toString start ++ ", " ++ toString stop ++
      (if step = 1 then "" else ", " ++ toString step) ++ ")"
  | span ⟨start, endExcl⟩ =>
    "SizeRange(start=" ++ start.wording ++ ", end_excl=" ++ endExcl.wording ++ ")"
  | bitArray bits =>
    if bits = [] then "bitarray()" else "bitarray('" ++ bitDigits bits ++ "')"
  | varSet s => s.shown
  | kind k => k.shown
  | settings ⟨maxExamples, maxShrinks, derandomize, verbosity, bitsetBackend⟩ =>
    "settings(bitset_backend=" ++ bitsetBackend.wording ++ ", derandomize=" ++
      derandomize.wording ++ ", max_examples=" ++ maxExamples.wording ++ ", max_shrinks=" ++
      maxShrinks.wording ++ ", verbosity=" ++ verbosity.wording ++ ")"
  | stream sized _ => if sized then "<list_iterator>" else "<generator>"
  | object _ shown? _ => shown?.getD ""

/-- The wording of each datum of a list. -/
def wordings : List Datum → List String
  | [] => []
  | d :: ds => d.wording :: wordings ds

/-- The wording of each entry of a dictionary. -/
def entryWordings : List (Datum × Datum) → List String
  | [] => []
  | (key, d) :: rest => (key.wording ++ ": " ++ d.wording) :: entryWordings rest

end

mutual

/-- Whether every integer that a datum is shown with is short enough to be written out. The bits of
a set, and the name of a kind, always are. -/
def isLegible : Datum → Bool
  | num n => n.isLegible
  | list items => areLegible items
  | tuple items => areLegible items
  | dict entries => entriesLegible entries
  | range start stop step => Text.isShort start && Text.isShort stop && Text.isShort step
  | span ⟨start, endExcl⟩ => start.isLegible && endExcl.isLegible
  | settings ⟨maxExamples, maxShrinks, derandomize, verbosity, bitsetBackend⟩ =>
    maxExamples.isLegible && maxShrinks.isLegible && derandomize.isLegible &&
      verbosity.isLegible && bitsetBackend.isLegible
  | object _ shown? _ => shown?.isSome
  | absent | unset | bool _ | float _ | text _ | bitArray _ | varSet _ | kind _ | stream _ _ => true

/-- Whether each datum of a list is legible. -/
def areLegible : List Datum → Bool
  | [] => true
  | d :: ds => d.isLegible && areLegible ds

/-- Whether each entry of a dictionary is legible. -/
def entriesLegible : List (Datum × Datum) → Bool
  | [] => true
  | (key, d) :: rest => key.isLegible && d.isLegible && entriesLegible rest

end

/-- A datum as messages quote it, if it can be quoted. -/
def shown (d : Datum) : Option String := if d.isLegible then some d.wording else none

/-- A datum as plain text: texts without their quotes, numbers by their value. -/
def display : Datum → Option String
  | text s => some s
  | num n => Text.digits? n.value
  | d => d.shown

/-- A number: an integer or a double. -/
inductive Number
  | integer (n : Int)
  | real (x : Binary64)

/-- The number a datum counts as. Booleans count as one and zero, levels as their rank. -/
def number? : Datum → Option Number
  | bool b => some (.integer b.toNat)
  | num n => some (.integer n.value)
  | float x => some (.real x)
  | _ => none

/-- The integer a datum counts as. -/
def integer? : Datum → Option Int
  | bool b => some b.toNat
  | num n => some n.value
  | _ => none

/-- The number of terms of an arithmetic progression that stops before `stop`. -/
def rangeLength (start stop step : Int) : Nat :=
  if 0 < step then ((stop - start + step - 1).fdiv step).toNat
  else ((start - stop - step - 1).fdiv (-step)).toNat

/-! ## Laws -/

/-- What is legible is shown, and nothing else. -/
theorem isSome_shown (d : Datum) : d.shown.isSome = d.isLegible := by
  cases h : d.isLegible with
  | true => rw [shown, if_pos h, Option.isSome_some]
  | false => rw [shown, if_neg (Bool.eq_false_iff.mp h), Option.isSome_none]

/-- A plain integer is legible if it is short enough to be written out. -/
theorem isLegible_int (n : Int) : (int n).isLegible = Text.isShort n := by
  rw [int, isLegible, Numeral.isLegible]

/-- A natural number is legible if it is short enough to be written out. -/
theorem isLegible_nat (n : Nat) : (nat n).isLegible = Text.isShort n := isLegible_int n

/-- A span of numerals is legible if both of them are. -/
theorem isLegible_ofSpan (r : Span Numeral) :
    (ofSpan r).isLegible = (r.start.isLegible && r.endExcl.isLegible) := by
  rw [ofSpan, isLegible, isLegible, isLegible]

@[simp] theorem number?_bool (b : Bool) : (bool b).number? = some (.integer b.toNat) := rfl

@[simp] theorem number?_num (n : Numeral) : (num n).number? = some (.integer n.value) := rfl

/-- A datum that counts as an integer counts as that number. -/
theorem number?_of_integer {d : Datum} {n : Int} (h : d.integer? = some n) :
    d.number? = some (.integer n) := by
  cases d with
  | bool b | num k =>
      cases h
      rfl
  | _ => cases h

/-- A list of flags is determined by the datum it is handed over as. -/
theorem bools_injective {bs cs : List Bool} (h : bools bs = bools cs) : bs = cs := by
  have inj : Function.Injective Datum.bool := fun _ _ e => by injection e
  have hm : bs.map bool = cs.map bool := by injection h
  exact (List.map_inj_right fun _ _ e => inj e).mp hm

end Datum

end FlagSets
