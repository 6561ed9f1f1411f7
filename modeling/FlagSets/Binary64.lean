/-!
# Double-precision numbers

A double is kept as what it is exactly: a signed multiple of a power of two, an infinity, or no
number at all. Rounding, comparison and printing are done in exact integer arithmetic, so no digit
is ever lost between them.

## Main results

* `ofRatio_zero` : a ratio with numerator zero rounds to the zero of its sign.
* `compare_self` : a number that is not a NaN equals itself.
-/

namespace FlagSets

/-- A double: `significand * 2 ^ exponent` with its sign, or one of the values without one. -/
inductive Binary64
  | nan
  | infinite (negative : Bool)
  | finite (negative : Bool) (significand : Nat) (exponent : Int)
  deriving DecidableEq, Repr

namespace Binary64

/-- The double nearest to `num / den`, an exact tie going to the even significand. -/
def ofRatio (negative : Bool) (num den : Nat) : Binary64 :=
  if num = 0 then finite negative 0 0 else
    let low : Int := (Nat.log2 num : Int) - Nat.log2 den - 53
    let scaled (e : Int) : Nat × Nat :=
      if 0 ≤ e then (num, den <<< e.toNat) else (num <<< (-e).toNat, den)
    let first := scaled low
    let exponent := max (-1074) (if first.1 / first.2 < 1 <<< 53 then low else low + 1)
    let (n, d) := scaled exponent
    let (q, r) := (n / d, n % d)
    let rounded := if d < 2 * r ∨ (2 * r = d ∧ q % 2 = 1) then q + 1 else q
    let (m, e) := if rounded = 1 <<< 53 then (1 <<< 52, exponent + 1) else (rounded, exponent)
    if 971 < e then infinite negative else finite negative m e

/-- The double nearest to an integer, an infinity for those beyond every double. -/
def ofInt (n : Int) : Binary64 := ofRatio (n < 0) n.natAbs 1

/-- What a double is compared as: a ratio, one of the two ends of the line, or nothing. -/
inductive Extended
  | nothing
  | below
  | ratio (num : Int) (den : Nat)
  | above

/-- The extended value of an integer. -/
def Extended.ofInt (n : Int) : Extended := .ratio n 1

/-- The magnitude of a finite double as numerator and denominator. -/
def magnitude (significand : Nat) (exponent : Int) : Nat × Nat :=
  if 0 ≤ exponent then (significand <<< exponent.toNat, 1)
  else (significand, 1 <<< (-exponent).toNat)

/-- The extended value of a double. -/
def extended : Binary64 → Extended
  | nan => .nothing
  | infinite negative => if negative then .below else .above
  | finite negative m e =>
    let (num, den) := magnitude m e
    .ratio (if negative then -(num : Int) else num) den

/-- The order of two extended values; a NaN has none with anything. -/
def Extended.compare : Extended → Extended → Option Ordering
  | .nothing, _ => none
  | _, .nothing => none
  | .below, .below => some .eq
  | .below, _ => some .lt
  | _, .below => some .gt
  | .above, .above => some .eq
  | .above, _ => some .gt
  | _, .above => some .lt
  | .ratio a b, .ratio c d => some (Ord.compare (a * d) (c * b))

/-- The double nearest to the sum of a finite double and an integer. -/
def addInt (x : Binary64) (n : Int) : Binary64 :=
  match x with
  | finite negative m e =>
    let (num, den) := magnitude m e
    let exact : Int := (if negative then -(num : Int) else num) + n * den
    ofRatio (exact < 0) exact.natAbs den
  | x => x

/-- The greatest integer that is not above a finite double. -/
def floor : Binary64 → Int
  | finite negative m e =>
    let (num, den) := magnitude m e
    (if negative then -(num : Int) else num) / (den : Int)
  | _ => 0

/-- Whether a double is one of the two zeros. -/
def isZero : Binary64 → Bool
  | finite _ m _ => m == 0
  | _ => false

/-! ## The shortest text that reads back -/

/-- The power of ten just above `num / den`: the least `k` with `num / den < 10 ^ k`. -/
def decimalExponent (num den : Nat) : Int :=
  if den ≤ num then ((Nat.toDigits 10 (num / den)).length : Int)
  else
    let steps := (List.range 400).find? fun j => den ≤ num * Nat.pow 10 j
    1 - (steps.getD 0 : Nat)

/-- The double nearest to `c * 10 ^ k`. -/
def ofDecimal (negative : Bool) (c : Nat) (k : Int) : Binary64 :=
  if 0 ≤ k then ofRatio negative (c * Nat.pow 10 k.toNat) 1
  else ofRatio negative c (Nat.pow 10 (-k).toNat)

/-- The decimals with `digits` digits next to `num / den`, as multiples of `10 ^ (k - digits)`,
the nearer one first, and of two equally near the even one. -/
def neighbours (num den : Nat) (k : Int) (digits : Nat) : List Nat :=
  let s : Int := digits - k
  let (n, d) :=
    if 0 ≤ s then (num * Nat.pow 10 s.toNat, den) else (num, den * Nat.pow 10 (-s).toNat)
  let (q, r) := (n / d, n % d)
  if d < 2 * r ∨ (2 * r = d ∧ q % 2 = 1) then [q + 1, q] else [q, q + 1]

/-- The fewest decimal digits that read back as the finite double, with the power of ten above
them. Seventeen digits always do. -/
def shortest (m : Nat) (e : Int) : Nat × Int :=
  let (num, den) := magnitude m e
  let k := decimalExponent num den
  let hits := (List.range 17).flatMap fun i =>
    ((neighbours num den k (i + 1)).filter fun c =>
      ofDecimal false c (k - (i + 1 : Nat)) == finite false m e).map fun c => (c, i + 1)
  match hits with
  | [] => (0, 0)
  | (c, digits) :: _ => if c = Nat.pow 10 digits then (1, k + 1) else (c, k)

/-- Decimal digits placed around a point: positional between `0.0001` and `10 ^ 16`, with an
exponent of at least two digits elsewhere. -/
def place (digits : List Char) (k : Int) : List Char :=
  if -4 < k ∧ k ≤ 16 then
    if k ≤ 0 then '0' :: '.' :: List.replicate (-k).toNat '0' ++ digits
    else if (digits.length : Int) ≤ k then
      digits ++ List.replicate (k.toNat - digits.length) '0' ++ ['.', '0']
    else digits.take k.toNat ++ '.' :: digits.drop k.toNat
  else
    let exponent := k - 1
    let written := Nat.toDigits 10 exponent.natAbs
    let tail := match digits.drop 1 with
      | [] => []
      | rest => '.' :: rest
    digits.take 1 ++ tail ++ 'e' :: (if exponent < 0 then '-' else '+')
      :: List.replicate (2 - written.length) '0' ++ written

/-- The text of a double: the fewest digits that read back. -/
def text : Binary64 → String
  | nan => "nan"
  | infinite negative => if negative then "-inf" else "inf"
  | finite negative m e =>
    let sign := if negative then ['-'] else []
    let body :=
      if m = 0 then ['0', '.', '0'] else
        let (c, k) := shortest m e
        let digits := ((Nat.toDigits 10 c).reverse.dropWhile (· == '0')).reverse
        place digits k
    String.ofList (sign ++ body)

/-! ## Reading -/

/-- The number that a run of decimal digits stands for. -/
def digitsValue (cs : List Char) : Nat :=
  cs.foldl (fun n c => 10 * n + (c.toNat - '0'.toNat)) 0

/-- The exponent part of a written number: nothing, or `e` with an optionally signed integer. -/
def exponent? : List Char → Option Int
  | [] => some 0
  | c :: rest =>
    if c = 'e' ∨ c = 'E' then
      let (negative, digits) := match rest with
        | '-' :: ds => (true, ds)
        | '+' :: ds => (false, ds)
        | ds => (false, ds)
      if digits ≠ [] ∧ digits.all Char.isDigit then
        some (if negative then -(digitsValue digits : Int) else digitsValue digits)
      else none
    else none

/-- The unsigned number a text spells. -/
def ofUnsigned? (negative : Bool) (cs : List Char) : Option Binary64 :=
  if cs = ['n', 'a', 'n'] then some nan
  else if cs = ['i', 'n', 'f'] then some (infinite negative)
  else
    let whole := cs.takeWhile Char.isDigit
    let (fraction, rest) := match cs.dropWhile Char.isDigit with
      | '.' :: tail => (tail.takeWhile Char.isDigit, tail.dropWhile Char.isDigit)
      | tail => ([], tail)
    if whole ++ fraction = [] then none
    else (exponent? rest).map fun e =>
      ofDecimal negative (digitsValue (whole ++ fraction)) (e - fraction.length)

/-- The double a text spells: an optional sign, digits with an optional point, and an optional
exponent. -/
def ofText? (s : String) : Option Binary64 :=
  match s.toList with
  | '-' :: cs => ofUnsigned? true cs
  | '+' :: cs => ofUnsigned? false cs
  | cs => ofUnsigned? false cs

/-! ## Laws -/

/-- A ratio with numerator zero rounds to the zero of its sign. -/
@[simp] theorem ofRatio_zero (negative : Bool) (den : Nat) :
    ofRatio negative 0 den = finite negative 0 0 := rfl

/-- An extended value other than the NaN's equals itself. -/
theorem compare_self {x : Extended} (h : x ≠ .nothing) : x.compare x = some .eq := by
  cases x <;> simp_all [Extended.compare]

end Binary64

end FlagSets
