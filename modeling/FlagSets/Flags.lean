/-!
# Lists of flags

A set of bits as a list with one entry per bit. The list is as long as the capacity of the set: it
grows when a bit past its end is set, and never shrinks. Entries are booleans wherever the library
makes them; the growing and writing steps work for entries of any type, given what stands for a
clear bit and for a set one.

## Main results

* `test_set`, `test_clear` : writing a bit changes that bit and no other.
* `length_set`, `length_clear` : setting grows the list to hold the bit, clearing keeps its length.
* `mem_indices` : the listed positions are those of the set bits.
-/

namespace FlagSets.Flags

/-- The list made at least `n` long by clear entries. -/
def pad {α : Type} (off : α) (xs : List α) (n : Nat) : List α :=
  xs ++ List.replicate (n - xs.length) off

/-- The list with an entry written, grown first if it ends before. -/
def write {α : Type} (off on : α) (xs : List α) (i : Nat) : List α :=
  (pad off xs (i + 1)).set i on

/-- Whether a bit is set. Bits past the end are never set. -/
def test (bs : List Bool) (i : Nat) : Bool := bs.getD i false

/-- The list with a bit set. -/
def set (bs : List Bool) (i : Nat) : List Bool := write false true bs i

/-- The list with a bit cleared. Clearing past the end leaves the list as it is. -/
def clear (bs : List Bool) (i : Nat) : List Bool := bs.set i false

/-- The number of set bits. -/
def count (bs : List Bool) : Nat := bs.count true

/-- The positions of the set bits, the first entry being at `start`. -/
def indicesFrom (start : Nat) : List Bool → List Nat
  | [] => []
  | true :: bs => start :: indicesFrom (start + 1) bs
  | false :: bs => indicesFrom (start + 1) bs

/-- The set bits in ascending order. -/
def indices (bs : List Bool) : List Nat := indicesFrom 0 bs

/-! ## Laws -/

@[simp] theorem length_pad {α : Type} (off : α) (xs : List α) (n : Nat) :
    (pad off xs n).length = max xs.length n := by
  simp only [pad, List.length_append, List.length_replicate]
  omega

/-- Setting a bit grows the list to hold it. -/
@[simp] theorem length_set (bs : List Bool) (i : Nat) :
    (set bs i).length = max bs.length (i + 1) := by
  simp [set, write]

/-- Clearing a bit keeps the length. -/
@[simp] theorem length_clear (bs : List Bool) (i : Nat) : (clear bs i).length = bs.length := by
  simp [clear]

/-- Padding sets nothing. -/
theorem test_pad (bs : List Bool) (n j : Nat) : test (pad false bs n) j = test bs j := by
  simp only [test, pad, List.getD_eq_getElem?_getD, List.getElem?_append]
  split
  · rfl
  · rename_i h
    have hn : bs[j]? = none := List.getElem?_eq_none (Nat.not_lt.mp h)
    rw [hn, List.getElem?_replicate]
    split <;> rfl

/-- Setting a bit changes that bit and no other. -/
theorem test_set (bs : List Bool) (i j : Nat) : test (set bs i) j = (j == i || test bs j) := by
  rw [← test_pad bs (i + 1) j]
  simp only [test, set, write, List.getD_eq_getElem?_getD, List.getElem?_set, length_pad]
  by_cases h : i = j
  · subst h
    simp [Nat.lt_of_lt_of_le (Nat.lt_succ_self i) (Nat.le_max_right _ _)]
  · simp [h, Ne.symm h]

/-- Clearing a bit changes that bit and no other. -/
theorem test_clear (bs : List Bool) (i j : Nat) :
    test (clear bs i) j = (j != i && test bs j) := by
  simp only [test, clear, List.getD_eq_getElem?_getD, List.getElem?_set]
  by_cases h : i = j
  · subst h
    by_cases hl : i < bs.length <;> simp [hl]
  · simp [h, Ne.symm h]

/-- The positions listed from `start` on are those of the set entries. -/
theorem mem_indicesFrom (bs : List Bool) (start i : Nat) :
    i ∈ indicesFrom start bs ↔ start ≤ i ∧ test bs (i - start) = true := by
  induction bs generalizing start with
  | nil => simp [indicesFrom, test]
  | cons b bs ih =>
    have step : ∀ j, start < j → test (b :: bs) (j - start) = test bs (j - (start + 1)) := by
      intro j hj
      obtain ⟨d, rfl⟩ : ∃ d, j = start + 1 + d := ⟨j - (start + 1), by omega⟩
      rw [show start + 1 + d - start = d + 1 by omega,
        show start + 1 + d - (start + 1) = d by omega]
      simp [test]
    rcases Nat.lt_trichotomy i start with h | h | h
    · have h1 : ¬ start ≤ i := by omega
      have h2 : ¬ start + 1 ≤ i := by omega
      have h3 : i ≠ start := by omega
      cases b <;> simp [indicesFrom, ih, h1, h2, h3]
    · subst h
      have h1 : ¬ i + 1 ≤ i := by omega
      cases b <;> simp [indicesFrom, ih, test, h1]
    · have h1 : start ≤ i := by omega
      have h2 : start + 1 ≤ i := h
      have h3 : i ≠ start := by omega
      rw [step i h]
      cases b <;> simp [indicesFrom, ih, h1, h2, h3]

/-- The listed positions are those of the set bits. -/
@[simp] theorem mem_indices (bs : List Bool) (i : Nat) :
    i ∈ indices bs ↔ test bs i = true := by
  simp [indices, mem_indicesFrom]

/-- Counting agrees with listing. -/
theorem length_indices (bs : List Bool) : (indices bs).length = count bs := by
  have go : ∀ start, (indicesFrom start bs).length = count bs := by
    induction bs with
    | nil => intro _; rfl
    | cons b bs ih => intro start; cases b <;> simp [indicesFrom, ih, count]
  exact go 0

end FlagSets.Flags
