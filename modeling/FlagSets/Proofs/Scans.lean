import FlagSets.Proofs.Growth

/-!
# Listing and counting without a scan

The generic way to list or to count the set bits of a value tests every position below its length.
Most kinds have a faster way of their own: a word takes the lowest one off its remainder until none
is left, and adds up the digits; a packed array is searched; a list of flags counts its entries; and
a growable set asks what backs it. All of them give what the scan gives, also for integers that are
no values of the word.

## Main results

* `scanCountFrom_of_test` : the counting scan adds the set ones among its positions.
* `Reads.indices_eq`, `Reads.count_eq` : the kind's own ways are about the same list.
* `listing_eq_scan` : listing and counting agree with the scan, for all that a kind looks at.
-/

namespace FlagSets

namespace VarSet

/-- The entries of a growable set as a value of what backs it. -/
def entries (s : VarSet) : Datum :=
  match s.backing with
  | .bitArray => .bitArray s.bits
  | _ => .bools s.bits

end VarSet

namespace Kind

variable {k : Kind} {v : Datum}

/-- What the kinds of the library look at: a word looks at every integer, in its range or not and
however it is spelled, and a growable kind at its own values. -/
inductive Reads : Kind → Datum → Prop
  | word (w : WordKind) {v : Datum} {n : Int} (h : v.integer? = some n) : Reads (.word w) v
  | bools (bs : List Bool) : Reads (.growable .boolVec) (.bools bs)
  | bitArray (bs : List Bool) : Reads (.growable .bitArray) (.bitArray bs)
  | varSet (b : Backing) {s : VarSet} (h : s.backing = .boolVec ∨ s.backing = .bitArray) :
      Reads (.varsize b) (.varSet s)

/-- The counting scan adds the set ones among its positions to those counted before. -/
theorem scanCountFrom_of_test {flag : Nat → Bool}
    (h : ∀ i : Nat, k.test v (.nat i) = .ok (.bool (flag i))) (counted i n : Nat) :
    k.scanCountFrom v counted i n = .ok (counted + ((List.range' i n).filter flag).length) := by
  induction n generalizing counted i with
  | zero => rfl
  | succ n ih =>
      simp only [scanCountFrom, h, bind, Except.bind, Datum.truthy_bool, List.range'_succ]
      cases hi : flag i with
      | true =>
          rw [if_pos rfl, ih, List.filter_cons_of_pos hi, List.length_cons, Nat.add_right_comm,
            Nat.add_assoc]
      | false => rw [if_neg Bool.false_ne_true, ih, List.filter_cons_of_neg (by simp [hi])]

/-! ## Words out of range -/

section Integers

variable {w : WordKind} {n : Int}

/-- A word looks a bit up in any integer. -/
private theorem test_integer (h : v.integer? = some n) (i : Nat) :
    (word w).test v (.nat i) = .ok (.bool (w.test n i)) := by
  have hvalue : (Numeral.plain (i : Int)).value.toNat = i := Int.toNat_natCast i
  simp only [test, requireIndex_nat, bind, Except.bind, h, hvalue]
  split
  · rfl
  · rename_i hpast
    rw [w.test_of_width_le (Int.ofNat_le.mp (Int.not_lt.mp hpast))]
    rfl

private theorem has_integer (h : v.integer? = some n) (i : Nat) :
    (word w).has v i = w.test n i := by
  simp only [has, test_integer h, bind, Except.bind, Datum.truthy_bool, Outcome.getD_ok]

/-- The listing of a word is what is found by testing each bit below its width. -/
private theorem indices_eq_bitsFrom (h : v.integer? = some n) :
    w.indices n = (word w).bitsFrom v 0 := by
  apply (w.pairwise_indices n).eq_of_mem_iff ((word w).pairwise_bitsFrom v 0)
  intro i
  rw [w.mem_indices, bitsFrom, List.mem_filter, List.mem_range'_1, capacity_word, has_integer h]
  constructor
  · intro hi
    have hlt := w.lt_width_of_test hi
    exact ⟨by omega, hi⟩
  · exact fun hi => hi.2

end Integers

/-! ## All that a kind looks at -/

namespace Reads

theorem length_eq (h : k.Reads v) : k.length v = .ok (k.capacity v) := by
  cases h with
  | word w _ => rfl
  | bools bs => exact (IsValue.bools bs).length_eq
  | bitArray bs => exact (IsValue.bitArray bs).length_eq
  | varSet b _ => exact (IsValue.varSet b _).length_eq

/-- Looking a bit up never fails. -/
theorem test_eq (h : k.Reads v) (i : Nat) : k.test v (.nat i) = .ok (.bool (k.has v i)) := by
  have hi : 0 ≤ (Numeral.plain (i : Int)).value := Int.natCast_nonneg i
  cases h with
  | word w hn => rw [has_integer hn, test_integer hn]
  | bools bs => exact (IsValue.bools bs).test_eq hi
  | bitArray bs => exact (IsValue.bitArray bs).test_eq hi
  | varSet b _ => exact (IsValue.varSet b _).test_eq hi

/-- The kind's own listing. -/
theorem indices_eq [Memory] (h : k.Reads v) : k.indices v = .ok ((k.bitsFrom v 0).map .nat) := by
  cases h with
  | word w hn =>
      rw [← indices_eq_bitsFrom hn]
      simp only [indices, hn]
      rfl
  | bools bs => exact (IsValue.bools bs).indices_eq
  | bitArray bs => exact (IsValue.bitArray bs).indices_eq
  | varSet b _ => exact (IsValue.varSet b _).indices_eq

/-- The kind's own count. -/
theorem count_eq (h : k.Reads v) : k.count v = .ok (k.bitsFrom v 0).length := by
  cases h with
  | word w hn =>
      rw [← indices_eq_bitsFrom hn, w.length_indices]
      simp only [count, hn]
      rfl
  | bools bs => rw [(IsValue.bools bs).count_eq, length_bitsFrom]
  | bitArray bs => rw [(IsValue.bitArray bs).count_eq, length_bitsFrom]
  | varSet b _ => rw [(IsValue.varSet b _).count_eq, length_bitsFrom]

theorem scan_eq (h : k.Reads v) : k.scan v = .ok (k.bitsFrom v 0) := by
  simp only [scan, h.length_eq, bind, Except.bind]
  exact scanFrom_of_test h.test_eq [] 0 (k.capacity v)

theorem scanCount_eq (h : k.Reads v) : k.scanCount v = .ok (k.bitsFrom v 0).length := by
  simp only [scanCount, h.length_eq, bind, Except.bind]
  rw [scanCountFrom_of_test h.test_eq 0 0 (k.capacity v), Nat.zero_add]
  rfl

end Reads

/-! ## Growable sets and what backs them -/

section Entries

variable {s : VarSet}

/-- The entries of a growable set are a value of what backs it. -/
theorem reads_entries (h : s.backing = .boolVec ∨ s.backing = .bitArray) :
    (growable s.backing).Reads s.entries := by
  rcases h with h | h
  · simp only [VarSet.entries, h]
    exact .bools s.bits
  · simp only [VarSet.entries, h]
    exact .bitArray s.bits

/-- What backs a growable set finds the same bits in its entries. -/
theorem bitsFrom_entries (b : Backing) (h : s.backing = .boolVec ∨ s.backing = .bitArray) :
    (growable s.backing).bitsFrom s.entries 0 = (varsize b).bitsFrom (.varSet s) 0 := by
  rcases h with h | h
  · simp only [VarSet.entries, h, bitsFrom, capacity_bools, capacity_varSet]
    apply List.filter_congr
    intro i _
    rw [has_bools, has_varSet]
    rfl
  · simp only [VarSet.entries, h, bitsFrom, capacity_bitArray, capacity_varSet]
    apply List.filter_congr
    intro i _
    rw [has_bitArray, has_varSet]
    rfl

end Entries

/-- Whatever a kind looks at, its own listing ends with the list that the scan finds, in strictly
ascending order and with just the positions below the length that are set, and its own count is the
length of that list, as is the scan's. What backs a growable set agrees with it. -/
theorem listing_eq_scan [Memory] (h : k.Reads v) :
    ∃ (size : Nat) (listed : List Nat),
      k.length v = .ok size ∧
      k.indices v = .ok (listed.map .nat) ∧ k.scan v = .ok listed ∧
      k.count v = .ok listed.length ∧ k.scanCount v = .ok listed.length ∧
      listed.Pairwise (· < ·) ∧
      (∀ i : Nat, i ∈ listed ↔ i < size ∧ k.test v (.nat i) = .ok (.bool true)) ∧
      ∀ s : VarSet, v = .varSet s →
        (growable s.backing).indices s.entries = .ok (listed.map .nat) ∧
          (growable s.backing).count s.entries = .ok listed.length := by
  refine ⟨k.capacity v, k.bitsFrom v 0, h.length_eq, h.indices_eq, h.scan_eq, h.count_eq,
    h.scanCount_eq, k.pairwise_bitsFrom v 0, fun i => ?_, ?_⟩
  · rw [bitsFrom, List.mem_filter, List.mem_range'_1, h.test_eq]
    simp
  · rintro s rfl
    cases h with
    | word w hn => cases hn
    | varSet b hb =>
        rw [(reads_entries hb).indices_eq, (reads_entries hb).count_eq, bitsFrom_entries b hb]
        exact ⟨rfl, rfl⟩

attribute [local instance] Memory.small

/-- An integer far below the range of a signed byte, with the bit of the sign among its own. -/
theorem listing_eq_scan_byte :
    (word .i8).Reads (.int (-332)) ∧
      (word .i8).indices (.int (-332)) = .ok ([2, 4, 5, 7].map .nat) ∧
      (word .i8).count (.int (-332)) = .ok 4 := by
  have hreads : (word .i8).Reads (.int (-332)) := .word .i8 rfl
  obtain ⟨size, listed, -, hindices, hscan, hcount, -⟩ := listing_eq_scan hreads
  have hfound : (word .i8).scan (.int (-332)) = .ok [2, 4, 5, 7] := by rfl
  obtain rfl : listed = [2, 4, 5, 7] := Except.ok.inj (hscan.symm.trans hfound)
  exact ⟨hreads, hindices, hcount⟩

end Kind

end FlagSets
