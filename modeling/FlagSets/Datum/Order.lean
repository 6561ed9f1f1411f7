import FlagSets.Datum

/-!
# Order and equality of data

Numbers compare by value whatever their type, texts by code point, and lists, tuples, spans and bit
arrays by their first difference. Data of other types have no order, which is different from two
numbers that are unordered because one of them is a NaN.

## Main results

* `less?_of_integer`, `atMost?_of_integer` : what counts as an integer compares as that does.
* `equal_num` : numerals are equal when their values are.
-/

namespace FlagSets.Datum

namespace Number

/-- What a number is compared as. -/
def extended : Number → Binary64.Extended
  | integer n => .ofInt n
  | real x => x.extended

/-- The order of two numbers; a NaN has none with anything. -/
def compare (x y : Number) : Option Ordering := x.extended.compare y.extended

end Number

/-- The order of two texts, by code point. -/
def compareText (s t : String) : Ordering :=
  if s < t then .lt else if s = t then .eq else .gt

/-- The order of two rows of flags, a shorter one before its extensions. -/
def compareBits : List Bool → List Bool → Ordering
  | [], [] => .eq
  | [], _ :: _ => .lt
  | _ :: _, [] => .gt
  | b :: bs, c :: cs => if b = c then compareBits bs cs else if b then .gt else .lt

mutual

/-- Whether two data are equal. Numbers are equal by value, collections entry by entry. -/
def equal : Datum → Datum → Bool
  | absent, e => match e with | absent => true | _ => false
  | unset, e => match e with | unset => true | _ => false
  | bool b, e => equalNumber (.integer b.toNat) e
  | num n, e => equalNumber (.integer n.value) e
  | float x, e => equalNumber (.real x) e
  | text s, e => match e with | text t => s == t | _ => false
  | list xs, e => match e with | list ys => equalAll xs ys | _ => false
  | tuple xs, e => match e with | tuple ys => equalAll xs ys | _ => false
  | dict xs, e => match e with
    | dict ys => xs.length == ys.length && equalEntries xs ys
    | _ => false
  | range a b s, e => match e with
    | range c d t =>
      let n := rangeLength a b s
      n == rangeLength c d t && (n == 0 || (a == c && (n == 1 || s == t)))
    | _ => false
  | span ⟨a, b⟩, e => match e with | span ⟨c, d⟩ => a.equal c && b.equal d | _ => false
  | bitArray bs, e => match e with | bitArray cs => bs == cs | _ => false
  | varSet s, e => match e with | varSet t => s.equal t | _ => false
  | kind k, e => match e with | kind l => k.isShared && k == l | _ => false
  | settings _, _ => false
  | stream _ _, _ => false
  | object _ s shared, e => match e with
    | object _ t otherShared => shared && otherShared && s == t
    | _ => false
where
  /-- Whether a datum is a number of the given value. -/
  equalNumber (x : Number) (e : Datum) : Bool :=
    match e.number? with
    | some y => x.compare y == some .eq
    | none => false

/-- Whether two lists of data are equal entry by entry. -/
def equalAll : List Datum → List Datum → Bool
  | [], ys => ys.isEmpty
  | x :: xs, ys => match ys with
    | [] => false
    | y :: ys => x.equal y && equalAll xs ys

/-- Whether each of some entries has an equal one among others, wherever it stands. -/
def equalEntries : List (Datum × Datum) → List (Datum × Datum) → Bool
  | [], _ => true
  | (key, x) :: rest, ys =>
    ys.any (fun e => key.equal e.1 && x.equal e.2) && equalEntries rest ys

end

mutual

/-- The order of two data: nothing when their types have no order between them, and otherwise the
outcome, which for a NaN is again nothing. -/
def compare? : Datum → Datum → Option (Option Ordering)
  | bool b, e => e.number?.map (Number.integer b.toNat).compare
  | num n, e => e.number?.map (Number.integer n.value).compare
  | float x, e => e.number?.map (Number.real x).compare
  | text s, e => match e with | text t => some (some (compareText s t)) | _ => none
  | list xs, e => match e with | list ys => compareAll? xs ys | _ => none
  | tuple xs, e => match e with | tuple ys => compareAll? xs ys | _ => none
  | span ⟨a, b⟩, e => match e with
    | span ⟨c, d⟩ =>
      if a.equal c then if b.equal d then some (some .eq) else b.compare? d else a.compare? c
    | _ => none
  | bitArray bs, e => match e with | bitArray cs => some (some (compareBits bs cs)) | _ => none
  | _, _ => none

/-- The order of two lists of data, decided by the first entries that differ. -/
def compareAll? : List Datum → List Datum → Option (Option Ordering)
  | [], ys => some (some (if ys.isEmpty then .eq else .lt))
  | x :: xs, ys => match ys with
    | [] => some (some .gt)
    | y :: ys => if x.equal y then compareAll? xs ys else x.compare? y

end

/-- Whether one datum lies before another, if their types have an order. -/
def less? (d e : Datum) : Option Bool := (d.compare? e).map (· == some .lt)

/-- Whether one datum lies before another or equals it, if their types have an order. -/
def atMost? (d e : Datum) : Option Bool :=
  (d.compare? e).map fun o => o == some .lt || o == some .eq

/-! ## Laws -/

/-- Two integers compare as they do as numbers. -/
theorem Number.compare_integer (m n : Int) :
    (integer m).compare (integer n) = some (Ord.compare m n) := by
  simp [Number.compare, extended, Binary64.Extended.ofInt, Binary64.Extended.compare]

/-- Data that count as integers compare as these do. -/
theorem compare?_of_integer {d e : Datum} {m n : Int} (hd : d.integer? = some m)
    (he : e.integer? = some n) : d.compare? e = some (some (Ord.compare m n)) := by
  cases d with
  | bool b | num k =>
      cases hd
      rw [compare?, number?_of_integer he, Option.map_some, Number.compare_integer]
  | _ => cases hd

/-- What counts as an integer lies before what counts as another when that integer does. -/
theorem less?_of_integer {d e : Datum} {m n : Int} (hd : d.integer? = some m)
    (he : e.integer? = some n) : d.less? e = some (decide (m < n)) := by
  rw [less?, compare?_of_integer hd he, Option.map_some]
  rcases Int.lt_trichotomy m n with h | h | h
  · rw [Int.compare_eq_lt.mpr h, decide_eq_true h]
    rfl
  · rw [Int.compare_eq_eq.mpr h, decide_eq_false (by omega)]
    rfl
  · rw [Int.compare_eq_gt.mpr h, decide_eq_false (by omega)]
    rfl

/-- What counts as an integer is at most what counts as another when that integer is. -/
theorem atMost?_of_integer {d e : Datum} {m n : Int} (hd : d.integer? = some m)
    (he : e.integer? = some n) : d.atMost? e = some (decide (m ≤ n)) := by
  rw [atMost?, compare?_of_integer hd he, Option.map_some]
  rcases Int.lt_trichotomy m n with h | h | h
  · rw [Int.compare_eq_lt.mpr h, decide_eq_true (by omega)]
    rfl
  · rw [Int.compare_eq_eq.mpr h, decide_eq_true (by omega)]
    rfl
  · rw [Int.compare_eq_gt.mpr h, decide_eq_false (by omega)]
    rfl

/-- Numerals are equal when their values are. -/
@[simp] theorem equal_num (m n : Numeral) :
    (num m).equal (num n) = decide (m.value = n.value) := by
  simp only [equal, equal.equalNumber, number?_num, Number.compare_integer]
  by_cases h : m.value = n.value
  · simp [h]
  · simp [h]

end FlagSets.Datum
