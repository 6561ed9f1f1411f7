import FlagSets.Kind
import Mathlib.Data.List.GetD

/-!
# Words and lists of flags, bit by bit

A word in its range, and a list of flags of a given length, are determined by their bits. Writing a
bit therefore gives back the very value from before as soon as every bit is back: there is no second
value with the same bits.

The listings of both are strictly ascending, so that they have as many entries as there are set
bits.

## Main results

* `WordKind.eq_of_test`, `Flags.eq_of_test` : values with the same bits are the same.
* `WordKind.set_clear`, `Flags.set_clear` : setting a cleared bit again restores the value.
* `WordKind.set_comm`, `Flags.set_comm` : bits can be set in any order.
* `WordKind.pairwise_indices`, `Flags.pairwise_indices`, `VarSet.pairwise_indices` : bits are listed
  in ascending order.
-/

namespace FlagSets

/-! ## Words -/

namespace WordKind

variable (k : WordKind)

/-- A signed word has as many values below zero as from zero on. -/
private theorem modulus_eq_add (h : k.signed = true) :
    k.modulus = 1 <<< (k.width - 1) + 1 <<< (k.width - 1) := by
  obtain ⟨w, hw⟩ : ∃ w, k.width = w + 1 := ⟨k.width - 1, by have := k.sign_bit h; omega⟩
  rw [modulus, hw, Nat.one_shiftLeft, Nat.one_shiftLeft, Nat.add_sub_cancel, Nat.pow_succ]
  omega

/-- A value made of bits below the width is one of the word's own. -/
theorem represents_ofLow {bits : Nat} (h : bits < k.modulus) : k.Represents (k.ofLow bits) := by
  unfold Represents minValue maxValue ofLow mask
  cases hs : k.signed with
  | false =>
      simp only [Bool.false_eq_true, false_and, if_false]
      omega
  | true =>
      have hm := k.modulus_eq_add hs
      simp only [true_and, if_true]
      split <;> omega

/-- Zero is a value of every word. -/
theorem represents_zero : k.Represents 0 := by
  have hzero := k.represents_ofLow k.modulus_pos
  have hpos : 0 < 1 <<< (k.width - 1) := by
    rw [Nat.one_shiftLeft]
    exact Nat.two_pow_pos _
  rwa [ofLow, if_neg (by omega)] at hzero

theorem test_zero (i : Nat) : k.test 0 i = false := by
  simp [test]

/-- A value in range is made of its own bits. -/
theorem ofLow_low {v : Int} (h : k.Represents v) : k.ofLow (k.low v) = v := by
  have hpos := k.modulus_pos
  have hlow := k.cast_low v
  unfold Represents minValue maxValue mask at h
  unfold ofLow
  cases hs : k.signed with
  | false =>
      simp only [hs, Bool.false_eq_true, if_false, false_and] at h ⊢
      rw [hlow, Int.emod_eq_of_lt (by omega) (by omega)]
  | true =>
      have hm := k.modulus_eq_add hs
      simp only [hs, if_true, true_and] at h ⊢
      rcases Int.lt_or_le v 0 with hneg | hnonneg
      · have hval : v % (k.modulus : Int) = v + k.modulus := by
          rw [← Int.add_emod_right, Int.emod_eq_of_lt (by omega) (by omega)]
        rw [if_pos (by omega)]
        omega
      · have hval : v % (k.modulus : Int) = v := Int.emod_eq_of_lt hnonneg (by omega)
        rw [if_neg (by omega)]
        omega

/-- Values in range with the same bits are the same. -/
theorem eq_of_test {u v : Int} (hu : k.Represents u) (hv : k.Represents v)
    (h : ∀ i, k.test u i = k.test v i) : u = v := by
  have hlow : k.low u = k.low v := by
    apply Nat.eq_of_testBit_eq
    intro i
    rcases Nat.lt_or_ge i k.width with hi | hi
    · rw [← k.test_eq_testBit hi, ← k.test_eq_testBit hi]
      exact h i
    · have hpast : ∀ x : Int, (k.low x).testBit i = false := fun x => by
        apply Nat.testBit_lt_two_pow
        have hx := k.low_lt x
        rw [modulus, Nat.one_shiftLeft] at hx
        exact Nat.lt_of_lt_of_le hx (Nat.pow_le_pow_right (by decide) hi)
      rw [hpast, hpast]
  rw [← k.ofLow_low hu, ← k.ofLow_low hv, hlow]

/-- Setting a bit below the width stays in range, whatever the value was. -/
theorem represents_set (v : Int) {i : Nat} (h : i < k.width) : k.Represents (k.set v i) := by
  apply represents_ofLow
  have hlow := k.low_lt v
  rw [modulus, Nat.one_shiftLeft] at hlow ⊢
  rw [Nat.one_shiftLeft]
  exact Nat.or_lt_two_pow hlow (Nat.pow_lt_pow_right (by decide) h)

/-- Clearing a bit below the width stays in range, whatever the value was. -/
theorem represents_clear (v : Int) {i : Nat} (h : i < k.width) : k.Represents (k.clear v i) := by
  rw [clear, if_pos h]
  apply represents_ofLow
  have hlow := k.low_lt v
  simp only [modulus, Nat.one_shiftLeft] at hlow ⊢
  exact Nat.xor_lt_two_pow hlow (Nat.lt_of_le_of_lt Nat.and_le_left hlow)

/-- A set bit lies below the width. -/
theorem lt_width_of_test {v : Int} {i : Nat} (h : k.test v i = true) : i < k.width := by
  apply Nat.lt_of_not_le
  intro hle
  rw [k.test_of_width_le hle] at h
  exact Bool.false_ne_true h

/-- Setting a cleared bit again restores the value. -/
theorem set_clear {v : Int} {i : Nat} (hv : k.Represents v) (h : k.test v i = true) :
    k.set (k.clear v i) i = v := by
  have hi := k.lt_width_of_test h
  apply k.eq_of_test (k.represents_set _ hi) hv
  intro j
  rw [k.test_set j hi, k.test_clear j hi]
  by_cases hj : j = i
  · subst hj
    simp [h]
  · rw [bne, beq_eq_false_iff_ne.mpr hj]
    rfl

/-- The order in which two bits are set does not matter. -/
theorem set_comm (v : Int) {i j : Nat} (hi : i < k.width) (hj : j < k.width) :
    k.set (k.set v i) j = k.set (k.set v j) i := by
  apply k.eq_of_test (k.represents_set _ hj) (k.represents_set _ hi)
  intro b
  rw [k.test_set b hj, k.test_set b hi, k.test_set b hi, k.test_set b hj, Bool.or_left_comm]

/-- The positions listed from `start` on ascend. -/
private theorem pairwise_onesFrom (start width n : Nat) :
    (onesFrom start width n).Pairwise (· < ·) := by
  induction width generalizing start n with
  | zero => exact List.Pairwise.nil
  | succ width ih =>
      rw [onesFrom]
      split
      · refine List.pairwise_cons.mpr ⟨?_, ih (start + 1) (n / 2)⟩
        intro j hj
        rw [mem_onesFrom] at hj
        omega
      · exact ih (start + 1) (n / 2)

/-- The set bits of a word are listed in ascending order. -/
theorem pairwise_indices (v : Int) : (k.indices v).Pairwise (· < ·) := by
  rw [k.indices_eq_onesFrom]
  exact pairwise_onesFrom 0 k.width (k.low v)

end WordKind

/-! ## Lists of flags -/

namespace Flags

/-- A set bit lies before the end. -/
theorem lt_length_of_test {bs : List Bool} {i : Nat} (h : test bs i = true) : i < bs.length := by
  apply Nat.lt_of_not_le
  intro hle
  rw [test, List.getD_eq_default _ _ hle] at h
  exact Bool.false_ne_true h

theorem test_replicate (n i : Nat) : test (List.replicate n false) i = false := by
  rw [test, List.getD_eq_getElem?_getD, List.getElem?_replicate]
  split <;> rfl

/-- Lists of one length with the same bits are the same. -/
theorem eq_of_test {bs cs : List Bool} (hlen : bs.length = cs.length)
    (h : ∀ i, test bs i = test cs i) : bs = cs := by
  apply List.ext_getElem hlen
  intro i hi hj
  have hi' := h i
  rwa [test, test, List.getD_eq_getElem _ _ hi, List.getD_eq_getElem _ _ hj] at hi'

/-- Setting a cleared bit again restores the list. -/
theorem set_clear {bs : List Bool} {i : Nat} (h : test bs i = true) :
    set (clear bs i) i = bs := by
  have hi := lt_length_of_test h
  apply eq_of_test
  · rw [length_set, length_clear]
    omega
  · intro j
    rw [test_set, test_clear]
    by_cases hj : j = i
    · subst hj
      simp [h]
    · rw [bne, beq_eq_false_iff_ne.mpr hj]
      rfl

/-- Setting a bit makes a list no shorter. -/
theorem lt_length_set {bs : List Bool} {j : Nat} (h : j < bs.length) (i : Nat) :
    j < (set bs i).length := by
  rw [length_set]
  omega

/-- The order in which two bits are set does not matter. -/
theorem set_comm (bs : List Bool) (i j : Nat) : set (set bs i) j = set (set bs j) i := by
  apply eq_of_test
  · simp only [length_set]
    omega
  · intro b
    rw [test_set, test_set, test_set, test_set, Bool.or_left_comm]

/-- The positions listed from `start` on ascend. -/
private theorem pairwise_indicesFrom (bs : List Bool) (start : Nat) :
    (indicesFrom start bs).Pairwise (· < ·) := by
  induction bs generalizing start with
  | nil => exact List.Pairwise.nil
  | cons b bs ih =>
      cases b with
      | false => exact ih (start + 1)
      | true =>
          refine List.pairwise_cons.mpr ⟨?_, ih (start + 1)⟩
          intro j hj
          rw [mem_indicesFrom] at hj
          omega

/-- The set bits of a list are listed in ascending order. -/
theorem pairwise_indices (bs : List Bool) : (indices bs).Pairwise (· < ·) :=
  pairwise_indicesFrom bs 0

end Flags

/-- The set bits of a growable set are listed in ascending order. -/
theorem VarSet.pairwise_indices (s : VarSet) : s.indices.Pairwise (· < ·) :=
  Flags.pairwise_indices s.bits

end FlagSets
