import FlagSets.Check

/-!
# Settings

What a run obeys: how many examples it tries, how many shrinks it keeps, whether its randomness is
fixed, how much it reports, and what backs the growable sets. Settings are made once and never
change. Each one not given is taken from a parent, or from the settings in force, or from its own
default when nothing is in force.

## Main results

* `get_set` : replacing one setting leaves the others.
* `build_nil` : without anything given, the parent's settings are taken over.
-/

namespace FlagSets

open Outcome

/-- The settings there are, in the order in which they are checked. -/
inductive Setting
  | maxExamples
  | maxShrinks
  | derandomize
  | verbosity
  | bitsetBackend
  deriving DecidableEq, Repr

namespace Setting

/-- Every setting, in the order in which they are checked. -/
def all : List Setting := [maxExamples, maxShrinks, derandomize, verbosity, bitsetBackend]

/-- The name of a setting. -/
def name : Setting → String
  | maxExamples => "max_examples"
  | maxShrinks => "max_shrinks"
  | derandomize => "derandomize"
  | verbosity => "verbosity"
  | bitsetBackend => "bitset_backend"

/-- The setting of a given name. -/
def ofName? (s : String) : Option Setting := all.find? fun t => t.name == s

/-- What a setting is for. -/
def description : Setting → String
  | maxExamples =>
    "The number of value trees :func:`~bitshrink.find` will generate while looking\n" ++
    "for one whose value satisfies the condition, before giving up."
  | maxShrinks =>
    "Once this many successful shrinks have been performed, shrinking stops and the\n" ++
    "current value is returned even if it could be simplified further."
  | derandomize =>
    "If this is True then :func:`~bitshrink.find` uses a fixed seed for its random\n" ++
    "source when none is passed explicitly, so repeated runs generate the same\n" ++
    "sequence of values."
  | verbosity => "Control the verbosity level of bitshrink messages"
  | bitsetBackend =>
    "The representation backing :class:`~bitshrink.bitsets.VarBitSet` values when no\n" ++
    "explicit backend is given. ``\"bitarray\"`` requires the optional\n" ++
    ":pypi:`bitarray` dependency (``pip install bitshrink[bitarray]``)."

/-- The value a setting has when nothing says otherwise. -/
def default : Setting → Datum
  | maxExamples => .int 100
  | maxShrinks => .int 500
  | derandomize => .bool false
  | verbosity => .num (.level .normal)
  | bitsetBackend => .text "bool_vec"

/-- The values a setting can take, where they are few. -/
def options : Setting → List Datum
  | derandomize => [.bool true, .bool false]
  | verbosity => Verbosity.all.map fun v => .num (.level v)
  | bitsetBackend => [.text "bool_vec", .text "bitarray"]
  | _ => []

/-- Requires a datum to be an integer that is not below a least one. -/
def requireAtLeast (least : Int) (d : Datum) (name : String) (why : Refusal) : Outcome Datum := do
  requireType .integer d name
  match d.integer? with
  | some n => if n < least then refuse why else return d
  | none => return d

/-- Requires a datum to be a value of a setting, and gives it back as it is. -/
def validate (s : Setting) (d : Datum) : Outcome Datum :=
  match s with
  | maxExamples => requireAtLeast 1 d s.name (.tooFewExamples d)
  | maxShrinks => requireAtLeast 0 d s.name (.negativeShrinks d)
  | s =>
    if s.options.any d.equal then pure d
    else refuse (.notOption s.name d (.tuple s.options))

end Setting

namespace Config

variable {α : Type}

/-- The value of one setting. -/
def get (c : Config α) : Setting → α
  | .maxExamples => c.maxExamples
  | .maxShrinks => c.maxShrinks
  | .derandomize => c.derandomize
  | .verbosity => c.verbosity
  | .bitsetBackend => c.bitsetBackend

/-- The settings with one of them replaced. -/
def set (c : Config α) (s : Setting) (a : α) : Config α :=
  match s with
  | .maxExamples => { c with maxExamples := a }
  | .maxShrinks => { c with maxShrinks := a }
  | .derandomize => { c with derandomize := a }
  | .verbosity => { c with verbosity := a }
  | .bitsetBackend => { c with bitsetBackend := a }

/-- The settings with the given value for each, computed in the order of the settings. -/
def ofEach (value : Setting → Outcome α) : Outcome (Config α) := do
  let maxExamples ← value .maxExamples
  let maxShrinks ← value .maxShrinks
  let derandomize ← value .derandomize
  let verbosity ← value .verbosity
  let bitsetBackend ← value .bitsetBackend
  return { maxExamples, maxShrinks, derandomize, verbosity, bitsetBackend }

/-- Replacing one setting leaves the others. -/
theorem get_set (c : Config α) (s t : Setting) (a : α) :
    (c.set s a).get t = if t = s then a else c.get t := by
  cases s <;> cases t <;> rfl

end Config

namespace Settings

/-- The settings in which each has its own default. -/
def plain : Settings :=
  { maxExamples := Setting.maxExamples.default
    maxShrinks := Setting.maxShrinks.default
    derandomize := Setting.derandomize.default
    verbosity := Setting.verbosity.default
    bitsetBackend := Setting.bitsetBackend.default }

/-- The value a setting takes when it is not given: the parent's, or that of the settings in force,
or its own default when nothing is in force. -/
def inherited (parent inForce : Datum) (s : Setting) : Outcome Datum :=
  match parent, inForce with
  | .settings p, _ => pure (p.get s)
  | _, .settings d => pure (d.get s)
  | _, .absent => pure s.default
  | _, _ => throw .missing

/-- The value of one setting: the given one if it is valid, or the inherited one when none is given
or the one given is marked as unset. -/
def resolve (given : List (String × Datum)) (parent inForce : Datum) (s : Setting) :
    Outcome Datum :=
  match given.lookup s.name with
  | none => inherited parent inForce s
  | some .unset => inherited parent inForce s
  | some d => s.validate d

/-- The settings that are given by name, the others being inherited. -/
def build (given : List (String × Datum)) (parent inForce : Datum) : Outcome Settings := do
  match parent with
  | .absent | .settings _ => pure ()
  | d => refuse (.notParent d)
  match given.find? fun e => (Setting.ofName? e.1).isNone with
  | some (name, _) => refuse (.unknownSetting name)
  | none => pure ()
  Config.ofEach (resolve given parent inForce)

/-- Without anything given, the parent's settings are taken over. -/
@[simp] theorem build_nil (p : Settings) (inForce : Datum) :
    build [] (.settings p) inForce = .ok p := by
  cases p
  cases inForce <;> rfl

end Settings

end FlagSets
