import FlagSets.Datum.Number
import FlagSets.Memory

/-!
# Data as collections

What a datum offers as a collection: a length, items by index, its elements in order, and, for
those that can change, growing and writing. A datum that is no collection is a mismatch, and one
that has no such method is missing it.

Lengths are bounded twice. A count that no length can hold overflows wherever it is asked for, and
memory is exhausted where more entries are to be made than it has room for.

Bit arrays come from a package that the library does not contain. What is assumed of them is what
that package documents: a bit array is a sequence of bits, which has a length, can be indexed and
assigned to bit by bit, extended by zeros and copied, and counts and searches for its ones.

## Main results

* `sized_eq_ok` : a size that memory has room for is one that can be made.
* `length_bools`, `elements_bools` : a list of flags has the length and the entries of the list.
* `write_bools`, `write_bitArray` : writing into a collection of flags is writing into the list.
-/

namespace FlagSets.Datum

/-! ## Sizes -/

/-- The greatest length a collection can report. -/
def maxLength : Nat := (1 <<< 63) - 1

/-- The greatest number of entries that can be made at a time: memory has room for them, and a
length can say how many they are. -/
def memory [Memory] : Nat := min Memory.room maxLength

/-- A length, provided that it can be reported. -/
def reportable (n : Nat) : Outcome Nat := if maxLength < n then throw .overflow else pure n

/-- Whether an integer is too large for a length, or too small to be the opposite of one. -/
def isPastLengths (n : Int) : Bool := n < -maxLength - 1 ∨ maxLength < n

/-- The number of entries made where the given number is asked for; below zero, none are. -/
def sized [Memory] (n : Int) : Outcome Nat :=
  if isPastLengths n then throw .overflow
  else if Memory.room < n then throw .exhausted
  else pure n.toNat

/-! ## Reading -/

/-- The digit a flag counts as. -/
def digit (b : Bool) : Datum := nat b.toNat

/-- The terms of an arithmetic progression that stops before `stop`. -/
def rangeTerms (start stop step : Int) : List Int :=
  (List.range (rangeLength start stop step)).map fun (i : Nat) => start + step * (i : Int)

/-- Whether an integer is a term of an arithmetic progression that stops before `stop`. -/
def isRangeTerm (start stop step n : Int) : Bool :=
  (n - start) % step == 0 &&
    if 0 < step then start ≤ n && n < stop else stop < n && n ≤ start

/-- The number of elements between two bounds. The difference of two bounds of which one is a double
is no length, unless nothing lies between them. -/
def spanLength (r : Span Datum) : Outcome Nat :=
  match r.start.number?, r.endExcl.number? with
  | some (.integer a), some (.integer b) => reportable (b - a).toNat
  | some x, some y => do
    let order := (← x.toReal).extended.compare (← y.toReal).extended
    if order = some .lt then throw .mismatch else return 0
  | _, _ => throw .mismatch

/-- The integers between two bounds. -/
def spanRange (r : Span Datum) : Outcome Datum :=
  match r.start.integer?, r.endExcl.integer? with
  | some a, some b => pure (range a b 1)
  | _, _ => throw .mismatch

/-- The length of a collection. -/
def length : Datum → Outcome Nat
  | text s => pure s.length
  | list items => pure items.length
  | tuple items => pure items.length
  | dict entries => pure entries.length
  | range start stop step => reportable (rangeLength start stop step)
  | span r => spanLength r
  | bitArray bits => pure bits.length
  | _ => throw .mismatch

/-- How many elements a collection says it will yield: its length, if it knows one. -/
def lengthHint (d : Datum) : Outcome Nat :=
  match d, d.length with
  | stream true items, _ => pure items.length
  | _, .ok n => pure n
  | _, .error .overflow => throw .overflow
  | _, .error _ => pure 0

/-- Whether a datum counts as true where a truth value is wanted: zeros and empty collections do
not, nor does the absence of a value. A span has to have a length to be empty or not. -/
def truthy : Datum → Outcome Bool
  | absent => pure false
  | bool b => pure b
  | num n => pure (n.value != 0)
  | float x => pure (!x.isZero)
  | text s => pure (s != "")
  | list items => pure (!items.isEmpty)
  | tuple items => pure (!items.isEmpty)
  | dict entries => pure (!entries.isEmpty)
  | range start stop step => pure (rangeLength start stop step != 0)
  | span r => do return (← spanLength r) != 0
  | bitArray bits => pure (!bits.isEmpty)
  | _ => pure true

/-- The position that an index means in a sequence of a given size, negative ones from the end. -/
def position (d ix : Datum) (size : Nat) : Outcome Nat :=
  match ix.integer? with
  | none => throw .mismatch
  | some i =>
    if 0 ≤ i ∧ i < size then pure i.toNat
    else if isPastLengths i then throw .pastLengths
    else if i < 0 ∧ 0 ≤ i + size then pure (i + size).toNat
    else throw (.pastEnd d.typeName)

/-- The item at an index of a sequence, or under a key of a dictionary. -/
def item (d ix : Datum) : Outcome Datum :=
  match d with
  | list items => do return items.getD (← d.position ix items.length) absent
  | tuple items => do return items.getD (← d.position ix items.length) absent
  | text s => do return text (s.toList.getD (← d.position ix s.length) ' ').toString
  | range start stop step => do
    return int (start + step * (← d.position ix (rangeLength start stop step) : Nat))
  | bitArray bits => do return digit (bits.getD (← d.position ix bits.length) false)
  | dict entries =>
    match entries.find? fun e => e.1.equal ix with
    | some e => pure e.2
    | none => throw .noKey
  | _ => throw .mismatch

/-- The elements of a collection, in order. -/
def elements [Memory] : Datum → Outcome (List Datum)
  | list items => pure items
  | tuple items => pure items
  | text s => pure (s.toList.map fun c => text c.toString)
  | dict entries => pure (entries.map Prod.fst)
  | range start stop step => do
    let _ ← sized (rangeLength start stop step)
    return (rangeTerms start stop step).map int
  | span r =>
    match r.start.integer?, r.endExcl.integer? with
    | some a, some b => do
      let _ ← sized (b - a).toNat
      return (rangeTerms a b 1).map int
    | _, _ => throw .mismatch
  | bitArray bits => pure (bits.map digit)
  | varSet s => pure (s.indices.map nat)
  | stream _ items => pure items
  | _ => throw .mismatch

/-- How many entries of a collection are equal to one. -/
def countOnes : Datum → Outcome Nat
  | list items => pure (items.countP fun y => y.equal (int 1))
  | tuple items => pure (items.countP fun y => y.equal (int 1))
  | range start stop step => pure (isRangeTerm start stop step 1).toNat
  | bitArray bits => pure (bits.count true)
  | text _ => throw .mismatch
  | varSet _ => throw .mismatch
  | _ => throw .missing

/-! ## Writing -/

/-- Whether entries can be added at the end of a collection. -/
def canGrow : Datum → Bool
  | list _ => true
  | bitArray _ => true
  | _ => false

/-- A collection with `n` copies of an entry added at its end, none if `n` is negative. -/
def extend [Memory] (d off : Datum) (n : Int) : Outcome Datum :=
  match d with
  | list items => do return list (items ++ List.replicate (← sized n) off)
  | bitArray bits => do return bitArray (bits ++ List.replicate (← sized n) (← off.truthy))
  | _ => throw .missing

/-- The entries of a dictionary with the one under a key replaced, or else added at the end. -/
def putEntry (key x : Datum) : List (Datum × Datum) → List (Datum × Datum)
  | [] => [(key, x)]
  | (k, y) :: rest => if k.equal key then (k, x) :: rest else (k, y) :: putEntry key x rest

/-- A collection with the entry at an index replaced. -/
def assign (d ix x : Datum) : Outcome Datum :=
  match d with
  | list items => do return list (items.set (← d.position ix items.length) x)
  | bitArray bits => do return bitArray (bits.set (← d.position ix bits.length) (← x.truthy))
  | dict entries => pure (dict (putEntry ix x entries))
  | _ => if (ix.integer?.map isPastLengths).getD false then throw .pastLengths else throw .mismatch

/-- A collection with the entry at a position written, grown first if it ends before. -/
def write [Memory] (d off on : Datum) (ix : Numeral) : Outcome Datum := do
  let n ← d.length
  let grown ← if n ≤ ix.value then d.extend off (ix.value + 1 - n) else pure d
  grown.assign (num ix) on

/-! ## Laws -/

theorem memory_le_maxLength [Memory] : memory ≤ maxLength := Nat.min_le_right _ _

/-- A size that memory has room for is one that can be made. -/
theorem sized_eq_ok [Memory] {n : Int} (h0 : 0 ≤ n) (h : n ≤ memory) :
    sized n = .ok n.toNat := by
  have less := memory_le_maxLength
  have room : memory ≤ Memory.room := Nat.min_le_left _ _
  have fits : isPastLengths n = false := by
    simp only [isPastLengths, decide_eq_false_iff_not]
    omega
  have enough : ¬ (Memory.room : Int) < n := by omega
  simp [sized, fits, enough, pure, Except.pure]

/-- A size that can be made is the one asked for. -/
theorem eq_of_sized [Memory] {n : Int} {m : Nat} (h : sized n = .ok m) : m = n.toNat := by
  unfold sized at h
  split at h
  · cases h
  · split at h
    · cases h
    · exact (Except.ok.inj h).symm

/-- A size that can be made is one that memory has room for. -/
theorem le_memory_of_sized [Memory] {n : Int} {m : Nat} (h : sized n = .ok m) : n ≤ memory := by
  unfold sized at h
  split at h
  · cases h
  · rename_i hlength
    split at h
    · cases h
    · simp only [isPastLengths, decide_eq_true_eq] at hlength
      have hmin : memory = min Memory.room maxLength := rfl
      omega

/-- What cannot be made is more than a length can be, or more than memory has room for. -/
theorem fault_of_sized [Memory] {n : Int} {fault : Fault} (h : sized n = .error fault) :
    fault = .overflow ∨ fault = .exhausted := by
  unfold sized at h
  split at h
  · cases h
    exact .inl rfl
  · split at h
    · cases h
      exact .inr rfl
    · cases h

/-- A length that can be reported is the one asked for. -/
theorem eq_of_reportable {m n : Nat} (h : reportable n = .ok m) : m = n := by
  unfold reportable at h
  split at h
  · cases h
  · exact (Except.ok.inj h).symm

/-- The number of integers between two bounds. -/
@[simp] theorem rangeLength_one (a b : Int) : rangeLength a b 1 = (b - a).toNat := by
  simp [rangeLength]

/-- The integers between two positions, as positions. -/
theorem rangeTerms_one {a b : Int} (h : 0 ≤ a) :
    rangeTerms a b 1 = (List.range' a.toNat (b - a).toNat).map Int.ofNat := by
  rw [rangeTerms, rangeLength_one, List.range'_eq_map_range, List.map_map]
  apply List.map_congr_left
  intro i _
  change a + 1 * (i : Int) = ((a.toNat + i : Nat) : Int)
  omega

/-- An index between the ends of a sequence is the position it means. -/
theorem position_num {d : Datum} {ix : Numeral} {size : Nat} (h0 : 0 ≤ ix.value)
    (h : ix.value < size) : d.position (num ix) size = .ok ix.value.toNat := by
  simp [position, integer?, h0, h, pure, Except.pure]

/-- A list of flags is as long as the list. -/
@[simp] theorem length_bools (bs : List Bool) : (bools bs).length = .ok bs.length := by
  simp [bools, length, pure, Except.pure]

/-- The elements of a list of flags are those of the list. -/
@[simp] theorem elements_bools [Memory] (bs : List Bool) :
    (bools bs).elements = .ok (bs.map bool) := rfl

/-- The item of a list of flags at an index is the flag there. -/
theorem item_bools {bs : List Bool} {ix : Numeral} (h0 : 0 ≤ ix.value)
    (h : ix.value < bs.length) :
    (bools bs).item (num ix) = .ok (bool (Flags.test bs ix.value.toNat)) := by
  have hn : ix.value.toNat < bs.length := by omega
  simp [bools, item, position_num h0 (by simpa using h), Flags.test, hn, bind, Except.bind, pure,
    Except.pure]

/-- The item of a bit array at an index is the digit of the flag there. -/
theorem item_bitArray {bs : List Bool} {ix : Numeral} (h0 : 0 ≤ ix.value)
    (h : ix.value < bs.length) :
    (bitArray bs).item (num ix) = .ok (digit (Flags.test bs ix.value.toNat)) := by
  simp [item, position_num h0 h, Flags.test, bind, Except.bind, pure, Except.pure]

@[simp] theorem truthy_bool (b : Bool) : (bool b).truthy = .ok b := rfl

@[simp] theorem truthy_digit (b : Bool) : (digit b).truthy = .ok b := by cases b <;> rfl

/-- Writing into a list of flags is writing into the list, as far as memory goes. -/
theorem write_bools [Memory] {bs : List Bool} {ix : Numeral} (h0 : 0 ≤ ix.value)
    (hm : ix.value + 1 - bs.length ≤ memory) :
    (bools bs).write (bool false) (bool true) ix = .ok (bools (Flags.set bs ix.value.toNat)) := by
  by_cases hl : (bs.length : Int) ≤ ix.value
  · have made := sized_eq_ok (by omega) hm
    have size : (ix.value + 1 - bs.length).toNat = ix.value.toNat + 1 - bs.length := by omega
    have inside : ix.value < (bs.length + (ix.value.toNat + 1 - bs.length) : Nat) := by omega
    simp [write, hl, made, size, bools, length, extend, assign, position_num h0 inside, Flags.set,
      Flags.write, Flags.pad, pure, Except.pure, bind, Except.bind, List.map_set]
  · have none : ix.value.toNat + 1 - bs.length = 0 := by omega
    have inside : ix.value < bs.length := by omega
    simp [write, hl, bools, length, assign, position_num h0 inside, Flags.set, Flags.write,
      Flags.pad, none, pure, Except.pure, bind, Except.bind, List.map_set]

/-- Writing into a bit array is writing into its list of flags, as far as memory goes. -/
theorem write_bitArray [Memory] {bs : List Bool} {ix : Numeral} (h0 : 0 ≤ ix.value)
    (hm : ix.value + 1 - bs.length ≤ memory) :
    (bitArray bs).write (int 0) (int 1) ix = .ok (bitArray (Flags.set bs ix.value.toNat)) := by
  have off : (int 0).truthy = .ok false := rfl
  have on : (int 1).truthy = .ok true := rfl
  by_cases hl : (bs.length : Int) ≤ ix.value
  · have made := sized_eq_ok (by omega) hm
    have size : (ix.value + 1 - bs.length).toNat = ix.value.toNat + 1 - bs.length := by omega
    have inside : ix.value < (bs.length + (ix.value.toNat + 1 - bs.length) : Nat) := by omega
    simp [write, hl, made, size, length, extend, assign, position_num h0 inside, off, on, Flags.set,
      Flags.write, Flags.pad, pure, Except.pure, bind, Except.bind]
  · have none : ix.value.toNat + 1 - bs.length = 0 := by omega
    have inside : ix.value < bs.length := by omega
    simp [write, hl, length, assign, position_num h0 inside, on, Flags.set, Flags.write, Flags.pad,
      none, pure, Except.pure, bind, Except.bind]

end FlagSets.Datum
