import FlagSets.Proofs.Growth

/-!
# Equality of growable sets

Two growable sets are compared by their counts, and by looking up in one of them the bits that the
other lists. This is an inclusion in one direction only; that the sets are equally large makes it
one in both, so that equal sets are those that no look-up tells apart. Capacities and backings play
no part in it.

Sets that list the same bits are the same for everything but their capacity. What is done to both of
them alike leaves them equal, as far as memory has room for both.

## Main results

* `equal_iff_indices` : sets are equal when they list the same bits.
* `equal_iff_test` : sets are equal when every bit is in both or in neither.
* `equalByBits` : equality is an equivalence that nothing but a capacity goes beyond.
-/

namespace FlagSets.VarSet

variable {a b : VarSet}

/-! ## Equal sets -/

/-- An inclusion between equally large sets is one in both directions. -/
theorem mem_indices_of_equal (h : a.equal b = true) (i : Nat) :
    i ∈ a.indices ↔ i ∈ b.indices := by
  simp only [equal, Bool.and_eq_true, beq_iff_eq, List.all_eq_true] at h
  obtain ⟨hcount, hlooked⟩ := h
  have hsubset : a.indices ⊆ b.indices := fun i hi => (b.mem_indices i).mpr (hlooked i hi)
  have hnodup : a.indices.Nodup := a.pairwise_indices.imp Nat.ne_of_lt
  have hlength : b.indices.length ≤ a.indices.length := by
    rw [a.length_indices, b.length_indices, hcount]
  exact ((List.subperm_of_subset hnodup hsubset).perm_of_length_le hlength).mem_iff

theorem equal_iff_indices : a.equal b = true ↔ a.indices = b.indices := by
  constructor
  · intro h
    exact a.pairwise_indices.eq_of_mem_iff b.pairwise_indices (mem_indices_of_equal h)
  · intro h
    simp only [equal, Bool.and_eq_true, beq_iff_eq, List.all_eq_true]
    refine ⟨?_, fun i hi => ?_⟩
    · rw [← a.length_indices, ← b.length_indices, h]
    · rwa [h, b.mem_indices] at hi

/-- No look-up tells equal sets apart, and some look-up tells apart those that are not equal. -/
theorem equal_iff_test : a.equal b = true ↔ ∀ i, a.test i = b.test i := by
  rw [equal_iff_indices]
  constructor
  · intro h i
    rw [Bool.eq_iff_iff, ← a.mem_indices, ← b.mem_indices, h]
  · intro h
    apply a.pairwise_indices.eq_of_mem_iff b.pairwise_indices
    intro i
    rw [a.mem_indices, b.mem_indices, h]

theorem equal_equivalence : Equivalence fun a b : VarSet => a.equal b = true where
  refl _ := equal_iff_indices.mpr rfl
  symm h := equal_iff_indices.mpr (equal_iff_indices.mp h).symm
  trans h₁ h₂ := equal_iff_indices.mpr ((equal_iff_indices.mp h₁).trans (equal_iff_indices.mp h₂))

/-! ## Changing both alike -/

theorem equal_set (h : a.equal b = true) (i : Nat) : (a.set i).equal (b.set i) = true := by
  rw [equal_iff_test] at h ⊢
  intro j
  rw [test_set, test_set, h]

theorem equal_clear (h : a.equal b = true) (i : Nat) : (a.clear i).equal (b.clear i) = true := by
  rw [equal_iff_test] at h ⊢
  intro j
  rw [test_clear, test_clear, h]

/-- A look-up at a position never fails. -/
theorem testAt_nat (s : VarSet) (i : Nat) : s.testAt (.nat i) = .ok (s.test i) :=
  s.testAt_num (Int.natCast_nonneg i)

/-- Where setting a bit succeeds, the bit is all that is added. -/
theorem eq_set_of_setAt [Memory] {s t : VarSet} {ix : Datum} (h : s.setAt ix = .ok t) :
    ∃ n : Numeral, ix = .num n ∧ t = s.set n.value.toNat := by
  obtain ⟨n, hn, h⟩ := Outcome.bind_eq_ok_iff.mp h
  refine ⟨n, (requireIndex_eq_ok_iff.mp hn).1, ?_⟩
  dsimp only at h
  split at h
  · obtain ⟨-, -, h⟩ := Outcome.bind_eq_ok_iff.mp h
    exact (Except.ok.inj h).symm
  · exact (Except.ok.inj h).symm

/-- What equality of growable sets means, whatever backs them and however much room they have. -/
structure EqualByBits [Memory] : Prop where
  /-- Sets are equal when no index tells them apart. -/
  equal_iff : ∀ a b : VarSet, (Datum.varSet a).equal (.varSet b) = true ↔
    ∀ i : Nat, a.testAt (.nat i) = b.testAt (.nat i)
  /-- They differ when some index does. -/
  differ_iff : ∀ a b : VarSet, a.differ b = true ↔
    ∃ i : Nat, a.testAt (.nat i) ≠ b.testAt (.nat i)
  equivalence : Equivalence fun a b : VarSet => a.equal b = true
  /-- Equal sets are listed, counted and shown alike. -/
  seen : ∀ a b : VarSet, a.equal b = true →
    a.indices = b.indices ∧ a.count = b.count ∧ (Datum.varSet a).shown = (Datum.varSet b).shown
  /-- Clearing the same bit of equal sets leaves them equal, or is refused for both. -/
  clear : ∀ a b : VarSet, a.equal b = true → ∀ ix : Datum,
    Outcome.Agree (fun a b => a.equal b = true) (a.clearAt ix) (b.clearAt ix)
  /-- So does setting the same bit, wherever it succeeds for both. -/
  set : ∀ a b : VarSet, a.equal b = true → ∀ (ix : Datum) (c d : VarSet),
    a.setAt ix = .ok c → b.setAt ix = .ok d → c.equal d = true
  /-- It is refused for both, or succeeds for both where memory has room for what they lack. -/
  set_agrees : ∀ a b : VarSet, a.equal b = true → ∀ ix : Datum,
    (∀ n : Numeral, ix = .num n →
      n.value + 1 - a.length ≤ Datum.memory ∧ n.value + 1 - b.length ≤ Datum.memory) →
    Outcome.Agree (fun a b => a.equal b = true) (a.setAt ix) (b.setAt ix)

theorem equalByBits [Memory] : EqualByBits where
  equal_iff a b := by
    show a.equal b = true ↔ _
    simp only [equal_iff_test, testAt_nat, Except.ok.injEq]
  differ_iff a b := by
    rw [differ, Bool.not_eq_true', ← Bool.not_eq_true, equal_iff_test]
    simp only [testAt_nat, ne_eq, Except.ok.injEq, not_forall]
  equivalence := equal_equivalence
  seen a b h := by
    have hlisted := equal_iff_indices.mp h
    refine ⟨hlisted, ?_, ?_⟩
    · rw [← a.length_indices, ← b.length_indices, hlisted]
    · show some a.shown = some b.shown
      rw [shown, shown, hlisted]
  clear a b h ix := by
    refine Outcome.Agree.bind_same _ fun n => ?_
    exact .ok (equal_clear h n.value.toNat)
  set a b h ix c d hc hd := by
    obtain ⟨n, rfl, rfl⟩ := eq_set_of_setAt hc
    obtain ⟨m, hm, rfl⟩ := eq_set_of_setAt hd
    cases hm
    exact equal_set h _
  set_agrees a b h ix hroom := by
    cases hix : requireIndex ix "ix" with
    | error fault =>
        simp only [setAt, hix, bind, Except.bind]
        exact .error fault
    | ok n =>
        obtain ⟨rfl, hn⟩ := requireIndex_eq_ok_iff.mp hix
        obtain ⟨hmine, hother⟩ := hroom n rfl
        rw [a.setAt_num hn hmine, b.setAt_num hn hother]
        exact .ok (equal_set h n.value.toNat)

attribute [local instance] Memory.small

/-- Sets of different backings and capacities are equal, and are alike in all but their room. -/
theorem equalByBits_capacities :
    let a : VarSet := ⟨.boolVec, [true, false, true]⟩
    let b : VarSet := ⟨.bitArray, [true, false, true, false, false]⟩
    (a.length ≠ b.length ∧ a.equal b = true) ∧
      (∀ i : Nat, a.testAt (.nat i) = b.testAt (.nat i)) ∧
      (Datum.varSet a).shown = (Datum.varSet b).shown ∧
      Outcome.Agree (fun a b => a.equal b = true) (a.clearAt (.nat 2)) (b.clearAt (.nat 2)) := by
  intro a b
  have h : a.equal b = true := by decide
  exact ⟨⟨by decide, h⟩, (equalByBits.equal_iff a b).mp h, (equalByBits.seen a b h).2.2,
    equalByBits.clear a b h (.nat 2)⟩

end FlagSets.VarSet
