import FlagSets.Check
import FlagSets.Datum.Collection
import FlagSets.Random.Twister
import FlagSets.Step

/-!
# Sources of randomness

A strategy needs three things from randomness: a fair coin, a uniform integer from an inclusive
range, and a uniform choice of several distinct elements. All three are made from draws of a number
of bits, which come from a twister or from a tape of given entries. A draw is a function of the
source, and hands back the source it leaves.

Integers are drawn by rejection: as many bits as the bound has, again until the draw lies below it.
No bound on the number of draws holds for every source, so a source has a patience, after which it
has stalled. On a tape the entries end first.

## Main results

* `boolean_tape` : a coin on a tape is the parity of its first entry.
* `integerRange_same` : a range of one integer draws nothing.
-/

namespace FlagSets

/-- A source of random bits: a twister, or a tape whose entries are handed out in turn. -/
inductive Source
  | twister (t : Twister)
  | tape (entries : List Int)

/-- A computation that draws from a source. -/
abbrev Draw (α : Type) := Step Source α

namespace Source

/-- The source of a given seed. Its draws are the same on every run. -/
def ofSeed (seed : Int) : Source := twister (.ofSeed seed)

/-- The next `k` bits as a number. A tape hands out its next entry, cut down to `k` bits. -/
def bits (k : Nat) : Draw Nat := fun
  | twister t =>
    let (n, t) := t.bits k
    (.ok n, twister t)
  | tape [] => (.error .dry, tape [])
  | tape (entry :: rest) => (.ok (entry % (1 <<< k : Nat)).toNat, tape rest)

/-- How many draws in a row may be rejected. -/
def patience : Source → Nat
  | twister _ => 65536
  | tape entries => entries.length + 1

/-- Draws until a draw is accepted, at most the given number of times. -/
def retry {α : Type} (draw : Draw α) (accept : α → Bool) : Nat → Draw α
  | 0 => throw .stalled
  | attempts + 1 => do
    let x ← draw
    if accept x then return x else retry draw accept attempts

/-- A uniform number below `n`. -/
def below (n : Nat) : Draw Nat := do
  let s ← get
  retry (bits (n.log2 + 1)) (· < n) s.patience

/-- A fair coin. -/
def boolean : Draw Bool := do return (← bits 1) != 0

/-- A uniform integer between two bounds, both included. -/
def between (lower upper : Int) : Draw Int := do
  return lower + (← below (upper - lower + 1).toNat : Nat)

/-- A uniform integer between two bounds, both included, as numerals. A range of one integer is that
integer, and draws nothing. -/
def integerRange (lower upper : Datum) : Draw Numeral := do
  let low ← requireInteger lower "lower"
  let high ← requireInteger upper "upper"
  requireOrdered lower upper "lower" "upper"
  if low.value = high.value then return low
  return .plain (← between low.value high.value)

/-! ## Choosing several elements -/

/-- The population up to which a choice keeps a pool of the elements left: 21, and the least power
of four not below `3 * k` on top when more than five are chosen. -/
def poolLimit (k : Nat) : Nat :=
  if k ≤ 5 then 21 else 21 + Nat.pow 4 (Nat.log2 (3 * k - 1) / 2 + 1)

/-- Chooses `k` positions from a pool, each drawn position being replaced by the last one. -/
def fromPool (pool : List Nat) : Nat → Draw (List Nat)
  | 0 => return []
  | k + 1 => do
    let j ← below pool.length
    let chosen := pool.getD j 0
    let last := pool.getD (pool.length - 1) 0
    let rest ← fromPool ((pool.set j last).dropLast) k
    return chosen :: rest

/-- Chooses `k` positions below `n` that are not yet chosen, drawing again what already is. -/
def fromRedraws (n : Nat) (chosen : List Nat) : Nat → Draw (List Nat)
  | 0 => return []
  | k + 1 => do
    let s ← get
    let j ← retry (below n) (fun j => !chosen.contains j) s.patience
    let rest ← fromRedraws n (j :: chosen) k
    return j :: rest

/-- Chooses `k` distinct positions below `n`, in the order drawn. -/
def positions (n k : Nat) : Draw (List Nat) :=
  if n ≤ poolLimit k then fromPool (List.range n) k else fromRedraws n [] k

/-- Chooses `n` distinct elements of a collection, in the order drawn. The collection must be a
sequence, and memory has room for those chosen. -/
def chooseMultiple [Memory] (values n : Datum) : Draw (List Datum) := do
  let wanted ← requireInteger n "n"
  let size ← values.length
  if wanted.value < 0 ∨ (size : Int) < wanted.value then
    throw (Fault.refused (.cannotChoose wanted size)).raised
  match values with
  | .list _ | .tuple _ | .text _ | .range _ _ _ | .bitArray _ => do
    let _ ← Datum.sized wanted.value
    let chosen ← positions size wanted.value.toNat
    chosen.mapM fun j => liftM (values.item (.nat j))
  | _ => throw .mismatch

/-! ## What is handed over as a source -/

/-- What a caller hands over where randomness is wanted. -/
inductive Supply
  | source (s : Source)
  | other (d : Datum)

/-- The source that is handed over, if it is one. -/
def Supply.source? : Supply → Option Source
  | source s => some s
  | other _ => none

/-- Accepts a source, and nothing else. -/
def Supply.accept : Supply → Outcome Source
  | source s => pure s
  | other d => Outcome.refuse (.notSource d)

/-- Makes a source of what is handed over, any source at all when nothing is. -/
def Supply.wrap : Supply → Outcome Source
  | source s => pure s
  | other .absent => pure (ofSeed 0)
  | other d => Outcome.refuse (.wrongType [.random] "random" d)

/-! ## Laws -/

/-- A coin on a tape is the parity of its first entry. -/
theorem boolean_tape (entry : Int) (rest : List Int) :
    boolean.run (tape (entry :: rest)) = (.ok (entry % 2 == 1), tape rest) := by
  have drawn : boolean.run (tape (entry :: rest)) =
      (.ok ((entry % 2).toNat != 0), tape rest) := rfl
  rw [drawn]
  rcases Int.emod_two_eq entry with h | h <;> rw [h] <;> rfl

/-- A range of one integer is that integer, and draws nothing. -/
theorem integerRange_same (n : Numeral) (s : Source) :
    (integerRange (.num n) (.num n)).run s = (.ok n, s) := by
  simp [integerRange, Step.run_bind, requireOrdered_num, Except.map]

end Source

end FlagSets
