import FlagSets.Proofs.Values
import FlagSets.Strategy.Generate
import Mathlib.Data.Finset.Sort
import Mathlib.Data.Set.Card

/-!
# Words as sets of positions

Setting bits one after another encodes a set of positions as a value of a word, and listing the set
bits decodes it. Neither the order of the positions nor a repetition leaves a trace, also where the
sign has made the value negative halfway. Encoding and decoding are inverse to each other, so that
the values of a word are as many as the sets of positions below its width.

## Main results

* `test_foldl_set` : the bits of a word after some were set are the old ones and these.
* `ofBits_toFinset` : neither order nor repetition matters.
* `indices_ofBits`, `ofBits_indices` : listing and encoding are inverse to each other.
* `encodesSets` : the operations of every word kind encode sets of positions one to one.
-/

namespace FlagSets

/-- A new value of a kind with some bits set in turn. -/
def Kind.gather [Memory] (k : Kind) (room : Datum) (bits : List Datum) : Outcome Datum := do
  Strategy.setAll k (← k.allocate room) bits

namespace WordKind

variable (w : WordKind) {bits : List Nat} {S : Finset Nat} {v : Int}

/-- The value that stands for a set of positions. -/
def ofBits (S : Finset Nat) : Int := S.sort.foldl w.set 0

/-! ## Setting bits in turn -/

/-- Setting bits in turn never leaves the range. -/
theorem represents_foldl_set (hv : w.Represents v) (h : ∀ b ∈ bits, b < w.width) :
    w.Represents (bits.foldl w.set v) := by
  induction bits generalizing v with
  | nil => exact hv
  | cons b bits ih =>
      rw [List.foldl_cons]
      exact ih (w.represents_set v (h b List.mem_cons_self)) fun i hi =>
        h i (List.mem_cons_of_mem b hi)

/-- Setting bits in turn changes these bits and no others. -/
theorem test_foldl_set (h : ∀ b ∈ bits, b < w.width) (i : Nat) :
    w.test (bits.foldl w.set v) i = (decide (i ∈ bits) || w.test v i) := by
  induction bits generalizing v with
  | nil => simp
  | cons b bits ih =>
      rw [List.foldl_cons, ih fun i hi => h i (List.mem_cons_of_mem b hi),
        w.test_set i (h b List.mem_cons_self)]
      by_cases hb : i = b
      · simp [hb]
      · simp [hb, beq_eq_false_iff_ne.mpr hb]

/-- The kind sets bits in turn as the word does. -/
theorem setAll_eq_foldl [Memory] (h : ∀ b ∈ bits, b < w.width) :
    Strategy.setAll (.word w) (.int v) (bits.map .nat) = .ok (.int (bits.foldl w.set v)) := by
  induction bits generalizing v with
  | nil => rfl
  | cons b bits ih =>
      have hset : (Kind.word w).set (.int v) (.nat b) = .ok (.int (w.set v b)) :=
        Kind.set_word w v (Int.natCast_nonneg b) (Int.ofNat_lt.mpr (h b List.mem_cons_self))
      rw [Strategy.setAll, List.map_cons, List.foldlM_cons, hset, List.foldl_cons]
      exact ih fun i hi => h i (List.mem_cons_of_mem b hi)

/-! ## Sets of positions -/

private theorem forall_lt_sort (hS : S ⊆ Finset.range w.width) : ∀ b ∈ S.sort, b < w.width :=
  fun _ hb => Finset.mem_range.mp (hS ((Finset.mem_sort _).mp hb))

theorem toFinset_subset_range (h : ∀ b ∈ bits, b < w.width) :
    bits.toFinset ⊆ Finset.range w.width :=
  fun b hb => Finset.mem_range.mpr (h b (List.mem_toFinset.mp hb))

theorem lt_width_of_mem_indices : ∀ b ∈ w.indices v, b < w.width :=
  fun b hb => w.lt_width_of_test ((w.mem_indices v b).mp hb)

theorem represents_ofBits (hS : S ⊆ Finset.range w.width) : w.Represents (w.ofBits S) :=
  w.represents_foldl_set w.represents_zero (w.forall_lt_sort hS)

/-- The value that stands for a set has the positions of the set as its bits. -/
theorem test_ofBits (hS : S ⊆ Finset.range w.width) (i : Nat) :
    w.test (w.ofBits S) i = decide (i ∈ S) := by
  rw [ofBits, w.test_foldl_set (w.forall_lt_sort hS), w.test_zero, Bool.or_false]
  simp

/-- Positions below the width, set in any order and with repetitions, give the value that stands for
their set. -/
theorem ofBits_toFinset (h : ∀ b ∈ bits, b < w.width) :
    bits.foldl w.set 0 = w.ofBits bits.toFinset := by
  have hS := w.toFinset_subset_range h
  apply w.eq_of_test (w.represents_foldl_set w.represents_zero h) (w.represents_ofBits hS)
  intro i
  rw [w.test_foldl_set h, w.test_zero, w.test_ofBits hS, Bool.or_false]
  simp

/-- The set is listed in ascending order. -/
theorem indices_ofBits (hS : S ⊆ Finset.range w.width) : w.indices (w.ofBits S) = S.sort := by
  apply (w.pairwise_indices _).eq_of_mem_iff S.sortedLT_sort.pairwise
  intro i
  rw [w.mem_indices, w.test_ofBits hS, decide_eq_true_iff, Finset.mem_sort]

/-- Every value in range stands for the set of its bits. -/
theorem ofBits_indices (hv : w.Represents v) : w.ofBits (w.indices v).toFinset = v := by
  have hS := w.toFinset_subset_range (w.lt_width_of_mem_indices (v := v))
  apply w.eq_of_test (w.represents_ofBits hS) hv
  intro i
  rw [w.test_ofBits hS, Bool.eq_iff_iff, decide_eq_true_iff, List.mem_toFinset, w.mem_indices]

/-! ## The operations of a kind -/

/-- What the operations of a word kind make of sets of positions. -/
structure EncodesSets [Memory] (w : WordKind) : Prop where
  /-- Positions set in turn give a value in range that depends on their set alone, and the set is
  listed in ascending order. -/
  encode : ∀ (room : Datum) (bits : List Nat), (∀ b ∈ bits, b < w.width) →
    ∃ n : Int, (Kind.word w).gather room (bits.map .nat) = .ok (.int n) ∧
      n = w.ofBits bits.toFinset ∧ w.minValue ≤ n ∧ n ≤ w.maxValue ∧
      (Kind.word w).indices (.int n) = .ok (bits.toFinset.sort.map .nat)
  /-- The listed bits of an accepted value, set in turn, give the value back. -/
  decode : ∀ (room v : Datum) (name : String), (Kind.word w).requireValue v name = .ok () →
    ∃ bits, (Kind.word w).indices v = .ok bits ∧ (Kind.word w).gather room bits = .ok v.plain
  /-- Exactly the values that stand for a set are accepted, and each stands for one set. -/
  bijOn : ∀ name : String, Set.BijOn w.ofBits (Finset.range w.width).powerset
    {n | (Kind.word w).requireValue (.int n) name = .ok ()}
  /-- As many values are accepted as there are sets. -/
  card : ∀ name : String,
    Set.ncard {n : Int | (Kind.word w).requireValue (.int n) name = .ok ()} = 2 ^ w.width

/-- Exactly the values in range are accepted. -/
private theorem requireValue_int_iff {name : String} :
    (Kind.word w).requireValue (.int v) name = .ok () ↔ w.Represents v := by
  rw [Kind.requireValue_eq_ok_iff (k := .word w) trivial]
  constructor
  · rintro ⟨hv⟩
    exact hv
  · exact fun hv => .word hv

private theorem gather_eq [Memory] (room : Datum) (h : ∀ b ∈ bits, b < w.width) :
    (Kind.word w).gather room (bits.map .nat) = .ok (.int (w.ofBits bits.toFinset)) := by
  rw [← w.ofBits_toFinset h]
  exact w.setAll_eq_foldl h

theorem bijOn_ofBits (name : String) : Set.BijOn w.ofBits (Finset.range w.width).powerset
    {n | (Kind.word w).requireValue (.int n) name = .ok ()} := by
  refine ⟨?_, ?_, ?_⟩
  · intro S hS
    exact w.requireValue_int_iff.mpr (w.represents_ofBits (Finset.mem_powerset.mp hS))
  · intro S hS T hT heq
    have hlisted : S.sort = T.sort := by
      rw [← w.indices_ofBits (Finset.mem_powerset.mp hS), heq,
        w.indices_ofBits (Finset.mem_powerset.mp hT)]
    rw [← S.sort_toFinset (· ≤ ·), hlisted, T.sort_toFinset (· ≤ ·)]
  · intro n hn
    exact ⟨(w.indices n).toFinset,
      Finset.mem_powerset.mpr (w.toFinset_subset_range w.lt_width_of_mem_indices),
      w.ofBits_indices (w.requireValue_int_iff.mp hn)⟩

/-- Every word kind encodes the sets of positions below its width one to one. -/
theorem encodesSets [Memory] (w : WordKind) : w.EncodesSets where
  encode room bits h := by
    have hS := w.toFinset_subset_range h
    have hv := w.represents_ofBits hS
    refine ⟨_, w.gather_eq room h, rfl, hv.1, hv.2, ?_⟩
    rw [← w.indices_ofBits hS]
    rfl
  decode room v name h := by
    obtain ⟨hv⟩ := (Kind.requireValue_eq_ok_iff (k := .word w) trivial).mp h
    rename_i n
    refine ⟨(w.indices n.value).map .nat, rfl, ?_⟩
    rw [w.gather_eq room w.lt_width_of_mem_indices, w.ofBits_indices hv]
    rfl
  bijOn := w.bijOn_ofBits
  card name := by
    rw [← (w.bijOn_ofBits name).image_eq, (w.bijOn_ofBits name).injOn.ncard_image,
      Set.ncard_coe_finset, Finset.card_powerset, Finset.card_range]

attribute [local instance] Memory.small

/-- The sign of a byte set first, in the middle and again at the end. -/
theorem encodesSets_signed_byte :
    let bits := [7, 0, 7, 3, 7]
    (Kind.word .i8).gather .absent (bits.map .nat) = .ok (.int (-119)) ∧
      (Kind.word .i8).indices (.int (-119)) = .ok ([0, 3, 7].map .nat) := by
  intro bits
  have hgather : (Kind.word .i8).gather .absent (bits.map .nat) = .ok (.int (-119)) := rfl
  obtain ⟨n, hn, -, -, -, hlisted⟩ := (encodesSets .i8).encode .absent bits (by decide)
  cases hn.symm.trans hgather
  have hsort : bits.toFinset.sort = [0, 3, 7] := by
    have hset : bits.toFinset = [0, 3, 7].toFinset := by decide
    rw [hset]
    exact (List.toFinset_sort _ (by decide)).mpr (by decide)
  exact ⟨hgather, hsort ▸ hlisted⟩

end WordKind

end FlagSets
