/-!
# Words

Fixed-width machine integers used as bit flags. A value is an ordinary integer: bit `i` has the
weight `2 ^ i`, and for a signed word the top bit is the sign, so setting it makes the value
negative. Every integer may be used as a value; those outside the word's range count as the one
in range with the same remainder modulo `2 ^ width`.

## Main results

* `test_of_width_le`, `test_eq_testBit` : the set bits are the bits of the remainder.
* `test_set`, `test_clear` : writing a bit changes that bit and no other.
* `indices_eq_onesFrom` : taking off the lowest one again and again meets every set bit in turn.
* `mem_indices` : the listed bits are the ones that are set.
* `length_indices_le` : a word has at most as many set bits as it is wide.
-/

namespace FlagSets

/-- A fixed-width word: its name, how many bits it has, and whether the top one is a sign. A shared
word comes with the library, and every mention of it means the same one; a word that is made by a
caller is another than every other, however alike they are. -/
structure WordKind where
  name : String
  width : Nat
  signed : Bool
  shared : Bool
  sign_bit : signed = true → 0 < width := by decide
  deriving DecidableEq

namespace WordKind

/-- How many bits an address has. -/
def pointerWidth : Nat := 64

def u8 : WordKind := ⟨"u8", 8, false, true, by decide⟩
def u16 : WordKind := ⟨"u16", 16, false, true, by decide⟩
def u32 : WordKind := ⟨"u32", 32, false, true, by decide⟩
def u64 : WordKind := ⟨"u64", 64, false, true, by decide⟩
def usize : WordKind := ⟨"usize", pointerWidth, false, true, by decide⟩
def i8 : WordKind := ⟨"i8", 8, true, true, by decide⟩
def i16 : WordKind := ⟨"i16", 16, true, true, by decide⟩
def i32 : WordKind := ⟨"i32", 32, true, true, by decide⟩
def i64 : WordKind := ⟨"i64", 64, true, true, by decide⟩
def isize : WordKind := ⟨"isize", pointerWidth, true, true, by decide⟩

/-- The words that come with the library. -/
def all : List WordKind := [u8, u16, u32, u64, usize, i8, i16, i32, i64, isize]

/-- A word of the given width and sign, made anew, if there is one: a sign needs a bit. -/
def ofWidth? (name : String) (width : Int) (signed : Bool) : Option WordKind :=
  if h : 0 ≤ width ∧ (signed = true → 0 < width) then
    some ⟨name, width.toNat, signed, false, fun hs => by have := h.2 hs; omega⟩
  else none

variable (k : WordKind)

/-- How many values a word has. -/
def modulus : Nat := 1 <<< k.width

/-- The word with every bit set, read without sign. -/
def mask : Nat := k.modulus - 1

/-- The least value of a word. -/
def minValue : Int := if k.signed then -((1 <<< (k.width - 1) : Nat) : Int) else 0

/-- The greatest value of a word. -/
def maxValue : Int := if k.signed then ((1 <<< (k.width - 1) : Nat) : Int) - 1 else k.mask

/-- The bits of an integer below the width, read without sign. -/
def low (v : Int) : Nat := (v % (k.modulus : Int)).toNat

/-- The value whose bits are the given ones: with the sign bit set, it is negative. -/
def ofLow (bits : Nat) : Int :=
  if k.signed ∧ 1 <<< (k.width - 1) ≤ bits then (bits : Int) - (k.modulus : Int) else bits

/-- Whether a bit is set. Bits past the width are never set. -/
def test (v : Int) (i : Nat) : Bool := i < k.width && (v >>> i) % 2 == 1

/-- The value with a bit set. -/
def set (v : Int) (i : Nat) : Int := k.ofLow (k.low v ||| 1 <<< i)

/-- The value with a bit cleared. Clearing past the width leaves the value as it is. -/
def clear (v : Int) (i : Nat) : Int :=
  if i < k.width then k.ofLow (k.low v ^^^ (k.low v &&& 1 <<< i)) else v

/-- The number of ones among the lowest `width` binary digits. -/
def ones : Nat → Nat → Nat
  | 0, _ => 0
  | width + 1, n => n % 2 + ones width (n / 2)

/-- The number of set bits. -/
def count (v : Int) : Nat := ones k.width (k.low v)

/-- The lowest one among the binary digits of a number, on its own: a number and its negative have
no other digit in common, since the negative is the complement of the number before. -/
def lowest (n : Nat) : Nat := n ^^^ (n &&& (n - 1))

/-- Without its lowest one a number is smaller. -/
theorem xor_lowest_lt {n : Nat} (h : n ≠ 0) : n ^^^ lowest n < n := by
  have hle : n &&& (n - 1) ≤ n - 1 := Nat.and_le_right
  rw [lowest, ← Nat.xor_assoc, Nat.xor_self, Nat.zero_xor]
  omega

/-- The positions of the ones among the binary digits of a number: the lowest one is taken off again
and again until none is left. -/
def positions (n : Nat) : List Nat :=
  if _h : n = 0 then [] else (lowest n).log2 :: positions (n ^^^ lowest n)
termination_by n
decreasing_by exact xor_lowest_lt _h

/-- The positions of the ones among the lowest `width` binary digits, the first digit being at
`start`, found by looking at one digit after another. -/
def onesFrom (start : Nat) : Nat → Nat → List Nat
  | 0, _ => []
  | width + 1, n =>
    if n % 2 = 1 then start :: onesFrom (start + 1) width (n / 2)
    else onesFrom (start + 1) width (n / 2)

/-- The set bits in ascending order. -/
def indices (v : Int) : List Nat := positions (k.low v)

/-- Whether an integer is one of the word's own values. -/
def Represents (v : Int) : Prop := k.minValue ≤ v ∧ v ≤ k.maxValue

instance (v : Int) : Decidable (k.Represents v) :=
  inferInstanceAs (Decidable (k.minValue ≤ v ∧ v ≤ k.maxValue))

/-! ## Laws -/

theorem modulus_pos : 0 < k.modulus := by
  rw [modulus, Nat.one_shiftLeft]
  exact Nat.two_pow_pos _

/-- The bits below the width fit the width. -/
theorem low_lt (v : Int) : k.low v < k.modulus := by
  have h : (0 : Int) < k.modulus := by exact_mod_cast k.modulus_pos
  have := Int.emod_lt_of_pos v h
  have := Int.emod_nonneg v (Int.ne_of_gt h)
  simp only [low]
  omega

/-- Bits past the width are never set. -/
@[simp] theorem test_of_width_le {v : Int} {i : Nat} (h : k.width ≤ i) : k.test v i = false := by
  simp [test, Nat.not_lt.mpr h]

theorem cast_low (v : Int) : (k.low v : Int) = v % (k.modulus : Int) := by
  have h : (0 : Int) < k.modulus := by exact_mod_cast k.modulus_pos
  rw [low, Int.toNat_of_nonneg (Int.emod_nonneg v (Int.ne_of_gt h))]

/-- Below the width, a bit is looked up in the bits of the remainder. -/
theorem test_eq_testBit {v : Int} {i : Nat} (h : i < k.width) :
    k.test v i = (k.low v).testBit i := by
  obtain ⟨d, hd⟩ : ∃ d, k.width = i + (d + 1) := ⟨k.width - i - 1, by omega⟩
  have split : (k.modulus : Int) = ((2 ^ i : Nat) : Int) * (2 * ((2 ^ d : Nat) : Int)) := by
    rw [modulus, Nat.one_shiftLeft, hd, Nat.pow_add, Nat.pow_succ, Nat.mul_comm (2 ^ d) 2]
    simp only [Int.natCast_mul, Int.cast_ofNat_Int]
  have whole : v = k.low v + ((2 ^ i : Nat) : Int) * (2 * ((2 ^ d : Nat) * (v / k.modulus))) := by
    have := Int.mul_ediv_add_emod v k.modulus
    rw [cast_low, ← Int.mul_assoc 2, ← Int.mul_assoc, ← split, Int.add_comm]
    exact this.symm
  have pos : ((2 ^ i : Nat) : Int) ≠ 0 := by
    have := Nat.two_pow_pos i
    omega
  have shifted : (v >>> i) % 2 = ((k.low v / 2 ^ i % 2 : Nat) : Int) := by
    rw [Int.shiftRight_eq_div_pow]
    conv => lhs; rw [whole]
    rw [Int.add_mul_ediv_left _ _ pos, Int.add_mul_emod_self_left]
    norm_cast
  rw [test, shifted, Nat.testBit_eq_decide_div_mod_eq]
  simp only [h, decide_true, Bool.true_and]
  by_cases hb : k.low v / 2 ^ i % 2 = 1
  · simp [hb]
  · have hz : k.low v / 2 ^ i % 2 = 0 := by omega
    simp [hz]

/-- The bits of a value made of bits are those bits. -/
theorem low_ofLow {bits : Nat} (h : bits < k.modulus) : k.low (k.ofLow bits) = bits := by
  have small : ((bits : Int) % (k.modulus : Int)).toNat = bits := by
    rw [Int.emod_eq_of_lt (by omega) (by exact_mod_cast h)]
    rfl
  rw [low, ofLow]
  split
  · rw [Int.sub_emod_right]
    exact small
  · exact small

/-- Setting a bit changes that bit and no other. -/
theorem test_set {v : Int} {i : Nat} (j : Nat) (h : i < k.width) :
    k.test (k.set v i) j = (j == i || k.test v j) := by
  by_cases hj : j < k.width
  · have bound : k.low v ||| 1 <<< i < k.modulus := by
      have hl := k.low_lt v
      rw [modulus, Nat.one_shiftLeft] at hl ⊢
      rw [Nat.one_shiftLeft]
      exact Nat.or_lt_two_pow hl (Nat.pow_lt_pow_right (by decide) h)
    rw [test_eq_testBit k hj, test_eq_testBit k hj, set, low_ofLow k bound, Nat.testBit_or,
      Nat.one_shiftLeft, Nat.testBit_two_pow, Bool.or_comm]
    by_cases e : i = j
    · simp [e]
    · simp [e, Ne.symm e]
  · have hw : k.width ≤ j := Nat.not_lt.mp hj
    have hne : j ≠ i := by omega
    simp [hw, hne]

/-- Clearing a bit changes that bit and no other. -/
theorem test_clear {v : Int} {i : Nat} (j : Nat) (h : i < k.width) :
    k.test (k.clear v i) j = (j != i && k.test v j) := by
  by_cases hj : j < k.width
  · have bound : k.low v ^^^ (k.low v &&& 1 <<< i) < k.modulus := by
      have hl := k.low_lt v
      simp only [modulus, Nat.one_shiftLeft] at hl ⊢
      exact Nat.xor_lt_two_pow hl (Nat.lt_of_le_of_lt Nat.and_le_left hl)
    rw [test_eq_testBit k hj, test_eq_testBit k hj, clear, if_pos h, low_ofLow k bound,
      Nat.testBit_xor, Nat.testBit_and, Nat.one_shiftLeft, Nat.testBit_two_pow]
    by_cases e : i = j
    · cases hb : (k.low v).testBit j <;> simp [e]
    · cases hb : (k.low v).testBit j <;> simp [e, Ne.symm e]
  · have hw : k.width ≤ j := Nat.not_lt.mp hj
    simp [hw]

/-! ### Taking off the lowest one -/

theorem lowest_ne_zero {n : Nat} (h : n ≠ 0) : lowest n ≠ 0 := by
  intro hz
  have hlt := xor_lowest_lt h
  rw [hz, Nat.xor_zero] at hlt
  exact Nat.lt_irrefl n hlt

/-- The lowest one of an odd number is its last digit. -/
theorem lowest_two_mul_add_one (n : Nat) : lowest (2 * n + 1) = 1 := by
  have half : (2 * n + 1) / 2 = n ∧ 2 * n / 2 = n := by omega
  have digits : lowest (2 * n + 1) / 2 = 0 := by
    rw [lowest, Nat.add_sub_cancel, Nat.xor_div_two, Nat.and_div_two, half.1, half.2, Nat.and_self,
      Nat.xor_self]
  have nonzero := lowest_ne_zero (n := 2 * n + 1) (by omega)
  omega

/-- The lowest one of an even number is that of its half, one place up. -/
theorem lowest_two_mul (n : Nat) : lowest (2 * n) = 2 * lowest n := by
  have half : 2 * n / 2 = n ∧ (2 * n - 1) / 2 = n - 1 := by omega
  have digits : lowest (2 * n) / 2 = lowest n := by
    rw [lowest, Nat.xor_div_two, Nat.and_div_two, half.1, half.2, lowest]
  have even : ¬ lowest (2 * n) % 2 = 1 := by
    rw [lowest, Nat.xor_mod_two_eq_one, Nat.and_mod_two_eq_one]
    omega
  omega

theorem positions_zero : positions 0 = [] := by
  rw [positions, dif_pos rfl]

/-- One place up, each of the positions is one higher. -/
theorem positions_two_mul (n : Nat) : positions (2 * n) = (positions n).map (· + 1) := by
  have double : ∀ a b : Nat, 2 * a ^^^ 2 * b = 2 * (a ^^^ b) := by
    intro a b
    simpa only [Nat.shiftLeft_eq, Nat.pow_one, Nat.mul_comm _ 2] using
      (Nat.shiftLeft_xor_distrib (a := a) (b := b) (i := 1)).symm
  fun_induction positions n with
  | case1 => exact positions_zero
  | case2 n h ih =>
    rw [positions, dif_neg (by omega), lowest_two_mul, double, ih, List.map_cons,
      Nat.log2_two_mul (lowest_ne_zero h)]

/-- An odd number has a one at the start, and the rest of its positions is that of its half. -/
theorem positions_two_mul_add_one (n : Nat) :
    positions (2 * n + 1) = 0 :: (positions n).map (· + 1) := by
  have rest : (2 * n + 1) ^^^ 1 = 2 * n := by
    have digits : ((2 * n + 1) ^^^ 1) / 2 = n := by
      rw [Nat.xor_div_two, show (2 * n + 1) / 2 = n by omega, Nat.xor_zero]
    have even : ¬ ((2 * n + 1) ^^^ 1) % 2 = 1 := by
      rw [Nat.xor_mod_two_eq_one]
      omega
    omega
  rw [positions, dif_neg (by omega), lowest_two_mul_add_one, rest, positions_two_mul]
  rfl

/-- Taking off the lowest one finds the same positions as looking at every digit. -/
theorem map_positions_eq_onesFrom (start : Nat) {width n : Nat} (h : n < 1 <<< width) :
    (positions n).map (· + start) = onesFrom start width n := by
  induction width generalizing start n with
  | zero =>
    rw [Nat.shiftLeft_zero] at h
    obtain rfl : n = 0 := by omega
    rw [positions_zero]
    rfl
  | succ width ih =>
    have below : n / 2 < 1 <<< width := by
      rw [Nat.shiftLeft_succ] at h
      omega
    have shift : ∀ l : List Nat, (l.map (· + 1)).map (· + start) = l.map (· + (start + 1)) := by
      intro l
      rw [List.map_map]
      apply List.map_congr_left
      intro i _
      show i + 1 + start = i + (start + 1)
      omega
    rw [onesFrom, ← ih (start + 1) below]
    split
    · have odd : n = 2 * (n / 2) + 1 := by omega
      conv => lhs; rw [odd]
      rw [positions_two_mul_add_one, List.map_cons, shift, Nat.zero_add]
    · have even : n = 2 * (n / 2) := by omega
      conv => lhs; rw [even]
      rw [positions_two_mul, shift]

/-- The set bits are found by looking at every digit below the width. -/
theorem indices_eq_onesFrom (v : Int) : k.indices v = onesFrom 0 k.width (k.low v) := by
  rw [indices, ← map_positions_eq_onesFrom 0 (k.low_lt v)]
  exact (List.map_id _).symm

/-! ### Listing and counting -/

/-- The listed positions are as many as the counted ones. -/
theorem length_onesFrom (start width n : Nat) : (onesFrom start width n).length = ones width n := by
  induction width generalizing start n with
  | zero => rfl
  | succ width ih =>
    rw [onesFrom, ones]
    split
    · rw [List.length_cons, ih]; omega
    · rw [ih]; omega

/-- The positions listed from `start` on are those of the ones. -/
theorem mem_onesFrom (start width n i : Nat) :
    i ∈ onesFrom start width n ↔
      start ≤ i ∧ i < start + width ∧ n.testBit (i - start) = true := by
  induction width generalizing start n with
  | zero => simp [onesFrom]; omega
  | succ width ih =>
    have head : n.testBit 0 = decide (n % 2 = 1) := Nat.testBit_zero n
    rcases Nat.lt_trichotomy i start with h | h | h
    · have h1 : ¬ start ≤ i := by omega
      have h2 : ¬ start + 1 ≤ i := by omega
      have h3 : i ≠ start := by omega
      rw [onesFrom]
      split <;> simp [ih, h1, h2, h3]
    · subst h
      have h1 : ¬ i + 1 ≤ i := by omega
      rw [onesFrom]
      split <;> rename_i hn <;> simp [ih, h1, head, hn]
    · obtain ⟨d, rfl⟩ : ∃ d, i = start + 1 + d := ⟨i - (start + 1), by omega⟩
      have h3 : start + 1 + d ≠ start := by omega
      have tail : start + 1 + d ∈ onesFrom (start + 1) width (n / 2) ↔
          start ≤ start + 1 + d ∧ start + 1 + d < start + (width + 1) ∧
            n.testBit (start + 1 + d - start) = true := by
        rw [ih, show start + 1 + d - start = d + 1 by omega,
          show start + 1 + d - (start + 1) = d by omega, Nat.testBit_add_one]
        constructor
        · rintro ⟨-, lt, set⟩
          exact ⟨by omega, by omega, set⟩
        · rintro ⟨-, lt, set⟩
          exact ⟨by omega, by omega, set⟩
      rw [onesFrom]
      split
      · rw [List.mem_cons, tail]
        simp only [h3, false_or]
      · exact tail

/-- The listed positions are those of the set bits. -/
@[simp] theorem mem_indices (v : Int) (i : Nat) : i ∈ k.indices v ↔ k.test v i = true := by
  rw [indices_eq_onesFrom, mem_onesFrom]
  by_cases h : i < k.width
  · simp [h, test_eq_testBit k h]
  · simp [h, Nat.not_lt.mp h]

/-- Counting agrees with listing. -/
theorem length_indices (v : Int) : (k.indices v).length = k.count v := by
  rw [indices_eq_onesFrom, length_onesFrom, count]

/-- A word has at most as many set bits as it is wide. -/
theorem length_indices_le (v : Int) : (k.indices v).length ≤ k.width := by
  have bound : ∀ width n, ones width n ≤ width := by
    intro width
    induction width with
    | zero => intro _; exact Nat.le_refl 0
    | succ width ih => intro n; have := ih (n / 2); rw [ones]; omega
  rw [length_indices]
  exact bound _ _

end WordKind

end FlagSets
