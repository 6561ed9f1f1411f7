import FlagSets.Datum.Collection
import FlagSets.VarSet.Checked

/-!
# Operations of a kind

Making, inspecting and changing the values of a kind. A kind takes any datum for a value: one of its
own values is handled as the kind's representation says, and one of another type as far as it offers
what the kind needs. No value is changed in place; the changed one is the result.

The generic scans test every position below the length. Kinds with a faster way of their own count
and list without them. A value is made, and grows, as far as memory goes.

The kind of bit arrays passes its operations on to the package they come from, which is assumed to
make, measure, index, extend, count, copy and search them as it documents: new ones are all zeros,
and a search for ones yields their positions in ascending order.

## Main results

* `test_word`, `set_word`, `clear_word` : on integers, a word kind works as the word.
* `test_bools`, `set_bools`, `clear_bools` : on lists of flags, a list kind works as the list.
* `test_bitArray`, `set_bitArray`, `clear_bitArray` : on bit arrays, their kind works as the list.
* `test_varSet`, `set_varSet`, `clear_varSet` : on growable sets, the kind works as the set.
-/

namespace FlagSets

/-- The number of entries a backing makes when asked for a datum's worth of them. -/
def Backing.room [Memory] (b : Backing) (asked : Datum) : Outcome Nat :=
  match b, asked.integer? with
  | .bare, _ => throw (.unimplemented "")
  | _, none => throw .mismatch
  | .bitArray, some n => do
    let made ← Datum.sized n
    if n < 0 then throw .domain else return made
  | b, some n => Datum.sized (b.allotment n)

namespace Kind

/-- A new value with no bit set and space for as many bits as asked for. A word always has its
width. -/
def allocate [Memory] (k : Kind) (asked : Datum) : Outcome Datum :=
  match k with
  | word _ => pure (.int 0)
  | growable .bitArray => do return .bitArray (List.replicate (← Backing.bitArray.room asked) false)
  | growable b => do return .bools (List.replicate (← b.room asked) false)
  | varsize b => do return .varSet ⟨b, List.replicate (← b.room asked) false⟩

/-- One more than the greatest bit that could be set in a value without growing it. -/
def length (k : Kind) (v : Datum) : Outcome Nat :=
  match k, v with
  | word w, _ => pure w.width
  | growable .bare, _ => throw (.unimplemented "")
  | growable _, v => v.length
  | varsize _, .varSet s => pure s.length
  | varsize _, .kind _ => throw .mismatch
  | varsize _, _ => throw .missing

/-- The entry of a list at a position; past the end there is none set. -/
def entry (v : Datum) (ix : Numeral) : Outcome Datum := do
  if (← v.length) ≤ ix.value then return .bool false else v.item (.num ix)

/-- Looks a bit up without any check on the index: only what lies between the ends is found. -/
def testUnchecked (v ix : Datum) : Outcome Datum := do
  if !(← (Datum.int 0).isAtMost ix) then return .bool false
  if ← ix.isLess (.nat (← v.length)) then v.item ix else return .bool false

/-- Sets a bit without any check on the index. -/
def setUnchecked [Memory] (v ix : Datum) : Outcome Datum := do
  if !v.canGrow then throw .missing
  match ix.integer? with
  | none => throw .mismatch
  | some i => do
    let grown ← v.extend (.bool false) (i + 1 - (← v.length))
    grown.assign ix (.bool true)

/-- Clears a bit without any check on the index. -/
def clearUnchecked (v ix : Datum) : Outcome Datum := do
  if ← ix.isLess (.nat (← v.length)) then v.assign ix (.bool false) else return v

/-- Whether a bit is set, as the entry that says so. Bits past the end are never set. -/
def test (k : Kind) (v ix : Datum) : Outcome Datum :=
  match k, v with
  | word w, v => do
    let i ← requireIndex ix "ix"
    if i.value < w.width then
      match v.integer? with
      | some n => return .bool (w.test n i.value.toNat)
      | none => throw .mismatch
    else return .bool false
  | growable .bare, _ => throw (.unimplemented "")
  | growable .plain, v => testUnchecked v ix
  | growable .bitArray, v => do
    let i ← requireIndex ix "ix"
    return .bool (← (← entry v i).truthy)
  | growable _, v => do
    let i ← requireIndex ix "ix"
    entry v i
  | varsize _, .varSet s => do return .bool (← s.testAt ix)
  | varsize _, .kind _ => throw .mismatch
  | varsize _, _ => throw .missing

/-- The value with a bit set. A growable value grows to hold it; a word refuses bits past its
width. -/
def set [Memory] (k : Kind) (v ix : Datum) : Outcome Datum :=
  match k, v with
  | word w, v => do
    let i ← requireIndex ix "ix"
    if i.value < w.width then
      match v.integer? with
      | some n => return .int (w.set n i.value.toNat)
      | none => throw .mismatch
    else throw (Fault.pastWidth i w).raised
  | growable .bare, _ => throw (.unimplemented "")
  | growable .plain, v => setUnchecked v ix
  | growable .bitArray, v => do
    let i ← requireIndex ix "ix"
    v.write (.int 0) (.int 1) i
  | growable _, v => do
    let i ← requireIndex ix "ix"
    v.write (.bool false) (.bool true) i
  | varsize _, .varSet s => do return .varSet (← s.setAt ix)
  | varsize _, .kind _ => throw .mismatch
  | varsize _, _ => throw .missing

/-- The value with a bit cleared. Clearing past the end does nothing. -/
def clear (k : Kind) (v ix : Datum) : Outcome Datum :=
  let within (off : Datum) : Outcome Datum := do
    let i ← requireIndex ix "ix"
    if i.value < (← v.length) then v.assign (.num i) off else return v
  match k, v with
  | word w, v => do
    let i ← requireIndex ix "ix"
    if i.value < w.width then
      match v.integer? with
      | some n => return .int (w.clear n i.value.toNat)
      | none => throw .mismatch
    else return v
  | growable .bare, _ => throw (.unimplemented "")
  | growable .plain, v => clearUnchecked v ix
  | growable .bitArray, _ => within (.int 0)
  | growable _, _ => within (.bool false)
  | varsize _, .varSet s => do return .varSet (← s.clearAt ix)
  | varsize _, .list _ => throw .mismatch
  | varsize _, .dict _ => throw .mismatch
  | varsize _, .bitArray _ => throw .mismatch
  | varsize _, .kind _ => throw .mismatch
  | varsize _, _ => throw .missing

/-- The set ones among `n` positions from the given one on, found by testing each of them, after
those found before. -/
def scanFrom (k : Kind) (v : Datum) (found : List Nat) (i : Nat) : Nat → Outcome (List Nat)
  | 0 => pure found.reverse
  | n + 1 => do
    if ← (← k.test v (.nat i)).truthy then scanFrom k v (i :: found) (i + 1) n
    else scanFrom k v found (i + 1) n

/-- The set positions below the length, found by testing each of them. -/
def scan (k : Kind) (v : Datum) : Outcome (List Nat) := do scanFrom k v [] 0 (← k.length v)

/-- The number of set ones among `n` positions from the given one on, found by testing each of them
and added to those counted before. -/
def scanCountFrom (k : Kind) (v : Datum) (counted i : Nat) : Nat → Outcome Nat
  | 0 => pure counted
  | n + 1 => do
    if ← (← k.test v (.nat i)).truthy then scanCountFrom k v (counted + 1) (i + 1) n
    else scanCountFrom k v counted (i + 1) n

/-- The number of set positions below the length, found by testing each of them. -/
def scanCount (k : Kind) (v : Datum) : Outcome Nat := do scanCountFrom k v 0 0 (← k.length v)

/-- The number of set bits that a kind finds in the integer one. A kind that is taken for a value
counts by its own rule what is to be counted. -/
def countOfOne : Kind → Outcome Nat
  | word w => pure (w.count 1)
  | growable .plain => throw .mismatch
  | growable .bare => throw (.unimplemented "")
  | _ => throw .missing

/-- The number of bits set in a value. -/
def count (k : Kind) (v : Datum) : Outcome Nat :=
  match k, v with
  | word w, v =>
    match v.integer? with
    | some n => pure (w.count n)
    | none => throw .mismatch
  | growable .plain, v => k.scanCount v
  | growable .bare, v => k.scanCount v
  | growable _, .kind l => l.countOfOne
  | growable _, v => v.countOnes
  | varsize _, .varSet s => pure s.count
  | varsize _, .bitArray bits => pure (Flags.count bits)
  | varsize _, .list _ => throw .mismatch
  | varsize _, .tuple _ => throw .mismatch
  | varsize _, .text _ => throw .mismatch
  | varsize _, .range _ _ _ => throw .mismatch
  | varsize _, .kind _ => throw .mismatch
  | varsize _, _ => throw .missing

/-- The set bits of a value in ascending order. -/
def indices [Memory] (k : Kind) (v : Datum) : Outcome (List Datum) :=
  match k, v with
  | word w, v =>
    match v.integer? with
    | some n => pure ((w.indices n).map .nat)
    | none => throw .mismatch
  | growable .bitArray, .bitArray bits => pure ((Flags.indices bits).map .nat)
  | growable .bitArray, _ => throw .missing
  | growable _, v => do return (← k.scan v).map .nat
  | varsize _, v => v.elements

/-- A copy of a value, of the kind's own representation where the kind makes one. -/
def copy [Memory] (k : Kind) (v : Datum) : Outcome Datum :=
  let entries : Outcome Datum := do
    let _ ← v.lengthHint
    return .list (← v.elements)
  let duplicate : Outcome Datum := match v with
    | .list _ | .dict _ | .bitArray _ | .varSet _ => pure v
    | .kind _ => throw .mismatch
    | _ => throw .missing
  match k with
  | word _ => pure v
  | growable .boolVec => entries
  | growable .halved => entries
  | growable .bitArray => duplicate
  | growable _ => match v with
    | .stream false _ => throw .mismatch
    | v => pure v
  | varsize _ => duplicate

/-- Requires a datum to be usable as a value of a kind. -/
def requireValue (k : Kind) (v : Datum) (name : String) : Outcome Unit :=
  let flags : Outcome Unit := do
    requireType .list v name
    match v with
    | .list items =>
      match items.zipIdx.find? fun e => !DatumType.bool.holds e.1 with
      | some (x, i) => Outcome.refuse (.notFlag name i x)
      | none => return
    | _ => return
  match k with
  | word w => do
    let n ← requireInteger v name
    if w.Represents n.value then return else Outcome.refuse (.unrepresentable name n w)
  | growable .boolVec => flags
  | growable .halved => flags
  | growable .bitArray => requireType .bitArray v name
  | growable _ => pure ()
  | varsize _ => requireType .varSet v name

/-- The type of a kind's values. -/
def valueType : Kind → DatumType
  | word _ => .integer
  | growable .boolVec => .list
  | growable .halved => .list
  | growable .bitArray => .bitArray
  | growable _ => .anything
  | varsize _ => .varSet

/-! ## Laws -/

/-- On integers, a word kind looks bits up as the word does. -/
theorem test_word (w : WordKind) (v : Int) {n : Numeral} (h : 0 ≤ n.value) :
    (word w).test (.int v) (.num n) = .ok (.bool (w.test v n.value.toNat)) := by
  have hn : ¬ n.value < 0 := by omega
  by_cases hw : n.value < w.width
  · simp [test, hn, hw, Datum.int, Datum.integer?, bind, Except.bind, pure, Except.pure]
  · have hl : w.width ≤ n.value.toNat := by omega
    simp [test, hn, hw, hl, bind, Except.bind, pure, Except.pure]

/-- On integers, a word kind sets bits as the word does. -/
theorem set_word [Memory] (w : WordKind) (v : Int) {n : Numeral} (h : 0 ≤ n.value)
    (hw : n.value < w.width) :
    (word w).set (.int v) (.num n) = .ok (.int (w.set v n.value.toNat)) := by
  have hn : ¬ n.value < 0 := by omega
  simp [set, hn, hw, Datum.int, Datum.integer?, bind, Except.bind, pure, Except.pure]

/-- On lists of flags, the list kind looks bits up as the list does. -/
theorem test_bools (bs : List Bool) {n : Numeral} (h : 0 ≤ n.value) :
    (growable .boolVec).test (.bools bs) (.num n) = .ok (.bool (Flags.test bs n.value.toNat)) := by
  have hn : ¬ n.value < 0 := by omega
  by_cases hl : (bs.length : Int) ≤ n.value
  · have past : bs.length ≤ n.value.toNat := by omega
    simp [test, entry, hn, hl, past, Flags.test, bind, Except.bind, pure, Except.pure]
  · simp [test, entry, hn, hl, Datum.item_bools h (Int.not_le.mp hl), bind, Except.bind]

/-- On lists of flags, the list kind sets bits as the list does, as far as memory goes. -/
theorem set_bools [Memory] (bs : List Bool) {n : Numeral} (h : 0 ≤ n.value)
    (hm : n.value + 1 - bs.length ≤ Datum.memory) :
    (growable .boolVec).set (.bools bs) (.num n) = .ok (.bools (Flags.set bs n.value.toNat)) := by
  have hn : ¬ n.value < 0 := by omega
  simp [set, hn, Datum.write_bools h hm, bind, Except.bind]

/-- On lists of flags, the list kind clears bits as the list does. -/
theorem clear_bools (bs : List Bool) {n : Numeral} (h : 0 ≤ n.value) :
    (growable .boolVec).clear (.bools bs) (.num n) =
      .ok (.bools (Flags.clear bs n.value.toNat)) := by
  have hn : ¬ n.value < 0 := by omega
  by_cases hl : n.value < bs.length
  · simp [clear, hn, hl, Datum.bools, Datum.length, Datum.assign, Datum.position_num h, Flags.clear,
      bind, Except.bind, pure, Except.pure, List.map_set]
  · have hi : bs.length ≤ n.value.toNat := by omega
    simp [clear, hn, hl, Datum.bools, Datum.length, Flags.clear, List.set_eq_of_length_le hi, bind,
      Except.bind, pure, Except.pure]

/-- On bit arrays, their kind looks bits up as the list of flags does. -/
theorem test_bitArray (bs : List Bool) {n : Numeral} (h : 0 ≤ n.value) :
    (growable .bitArray).test (.bitArray bs) (.num n) =
      .ok (.bool (Flags.test bs n.value.toNat)) := by
  have hn : ¬ n.value < 0 := by omega
  by_cases hl : (bs.length : Int) ≤ n.value
  · have past : bs.length ≤ n.value.toNat := by omega
    simp [test, entry, hn, hl, past, Datum.length, Flags.test, bind, Except.bind, pure, Except.pure]
  · simp [test, entry, hn, hl, Datum.length, Datum.item_bitArray h (Int.not_le.mp hl), bind,
      Except.bind, pure, Except.pure]

/-- On bit arrays, their kind sets bits as the list of flags does, as far as memory goes. -/
theorem set_bitArray [Memory] (bs : List Bool) {n : Numeral} (h : 0 ≤ n.value)
    (hm : n.value + 1 - bs.length ≤ Datum.memory) :
    (growable .bitArray).set (.bitArray bs) (.num n) =
      .ok (.bitArray (Flags.set bs n.value.toNat)) := by
  have hn : ¬ n.value < 0 := by omega
  simp [set, hn, Datum.write_bitArray h hm, bind, Except.bind]

/-- On bit arrays, their kind clears bits as the list of flags does. -/
theorem clear_bitArray (bs : List Bool) {n : Numeral} (h : 0 ≤ n.value) :
    (growable .bitArray).clear (.bitArray bs) (.num n) =
      .ok (.bitArray (Flags.clear bs n.value.toNat)) := by
  have hn : ¬ n.value < 0 := by omega
  have off : (Datum.int 0).truthy = .ok false := rfl
  by_cases hl : n.value < bs.length
  · simp [clear, hn, hl, off, Datum.length, Datum.assign, Datum.position_num h, Flags.clear, bind,
      Except.bind, pure, Except.pure]
  · have hi : bs.length ≤ n.value.toNat := by omega
    simp [clear, hn, hl, Datum.length, Flags.clear, List.set_eq_of_length_le hi, bind, Except.bind,
      pure, Except.pure]

/-- On growable sets, their kind looks bits up as the set does. -/
theorem test_varSet (b : Backing) (s : VarSet) {n : Numeral} (h : 0 ≤ n.value) :
    (varsize b).test (.varSet s) (.num n) = .ok (.bool (s.test n.value.toNat)) := by
  simp [test, VarSet.testAt_num s h, bind, Except.bind, pure, Except.pure]

/-- On growable sets, their kind sets bits as the set does, as far as memory goes. -/
theorem set_varSet [Memory] (b : Backing) (s : VarSet) {n : Numeral} (h : 0 ≤ n.value)
    (hm : n.value + 1 - s.length ≤ Datum.memory) :
    (varsize b).set (.varSet s) (.num n) = .ok (.varSet (s.set n.value.toNat)) := by
  simp [set, VarSet.setAt_num s h hm, bind, Except.bind, pure, Except.pure]

/-- On growable sets, their kind clears bits as the set does. -/
theorem clear_varSet (b : Backing) (s : VarSet) {n : Numeral} (h : 0 ≤ n.value) :
    (varsize b).clear (.varSet s) (.num n) = .ok (.varSet (s.clear n.value.toNat)) := by
  simp [clear, VarSet.clearAt_num s h, bind, Except.bind, pure, Except.pure]

end Kind

end FlagSets
