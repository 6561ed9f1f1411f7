import FlagSets.Proofs.Generation
import FlagSets.Proofs.Tapes

/-!
# A number of bits out of a span

A sampled strategy draws a number first, and then that many distinct elements of its bits. The order
in which these come is that of the draws, but it is not seen in the value: on every representation
two bits can be set in either order, and so any number of bits in any order.

Every set within the bits of the strategy and within its sizes comes about. The number is drawn as
the size of the set, the elements as they are listed, and each draw has a tape that leads to it.

## Main results

* `addingAll_perm` : the order in which bits are set does not matter.
* `sampled_of_run` : what a sampled strategy makes of any source.
* `newTree_samples_bits` : what it generates, and that every set of the sizes and bits is generated
  as far as memory goes.
-/

namespace FlagSets

/-- The order in which bits are set does not matter. -/
theorem Kind.IsValue.addingAll_perm [Memory] {k : Kind} {v : Datum} (h : k.IsValue v)
    {bits others : List Nat} (hperm : bits.Perm others) (hbits : ∀ b ∈ bits, b < k.capacity v) :
    k.addingAll v bits = k.addingAll v others := by
  induction hperm generalizing v with
  | nil => rfl
  | @cons b bits others _ ih =>
      have hb := hbits b List.mem_cons_self
      refine ih (h.adding hb) fun i hi => ?_
      rw [h.capacity_adding hb]
      exact hbits i (List.mem_cons_of_mem b hi)
  | swap a b rest =>
      have hb := hbits b List.mem_cons_self
      have ha := hbits a (List.mem_cons_of_mem b List.mem_cons_self)
      exact congrArg (k.addingAll · rest) (h.adding_comm hb ha)
  | trans hfirst _ ih₁ ih₂ =>
      exact (ih₁ h hbits).trans (ih₂ h fun b hb => hbits b (hfirst.mem_iff.mpr hb))

namespace Strategy

section Trees

variable [Memory] {k : Kind} {size bits : Span Numeral}

/-- Setting the elements that were chosen, in any order, makes the value with just these bits. -/
theorem setAll_selected (hk : k.IsStandard) (hs : (sampled k size bits).WellFormed k)
    {blank : Datum} (halloc : k.allocate (.num bits.endExcl) = .ok blank) {count : Numeral}
    {chosen : List Nat} (hchosen : Source.Selected size bits count chosen) :
    k.bitsOf (k.addingAll blank chosen) = chosen.toFinset ∧
      k.length (k.addingAll blank chosen) = .ok (k.width?.getD bits.endExcl.value.toNat) ∧
      ∀ order : List Nat, order.Perm chosen →
        setAll k blank (order.map Datum.nat) = .ok (k.addingAll blank chosen) := by
  have hblank := Kind.blank_of_allocate hk halloc
  have hroom : ∀ b ∈ chosen, b < k.capacity blank := by
    cases hs with
    | sampled _ _ _ hwidth _ =>
        exact fun b hb => hblank.lt_capacity hwidth (hchosen.bounds b hb).2
  obtain ⟨hvalue, hcap, hset⟩ := hblank.isValue.addingAll hroom
  rw [hblank.bitsOf_eq, Finset.empty_union] at hset
  refine ⟨hset, ?_, ?_⟩
  · rw [hvalue.length_eq, hcap, hblank.capacity_eq]
  · intro order horder
    have hroom' : ∀ b ∈ order, b < k.capacity blank := fun b hb => hroom b (horder.mem_iff.mp hb)
    rw [setAll_eq hblank.isValue hroom', hblank.isValue.addingAll_perm horder hroom']

/-- Every set of as many bits as the size allows is generated from some tape, if memory has room for
the value and for a list of these bits. -/
theorem exists_tape_sampled (hk : k.IsStandard) (hs : (sampled k size bits).MadeOver k)
    (hroom : (sampled k size bits).HasRoom) {S : Finset Nat}
    (hS : ∀ b ∈ S, bits.start.value ≤ b ∧ b < bits.endExcl.value)
    (hleast : size.start.value ≤ S.card) (hmost : S.card ≤ size.last)
    (hfits : S.card ≤ Datum.memory) :
    ∃ entries tree, (sampled k size bits).newTree.run (.tape entries) = (.ok tree, .tape []) ∧
      k.bitsOf tree.held = S := by
  have hwf := hs.wellFormed hk
  have hlength := length_toRange_of_madeOver hk hs
  obtain ⟨blank, halloc⟩ := hroom
  have hmem : ∀ b ∈ S.toList, bits.start.value ≤ b ∧ b < bits.endExcl.value :=
    fun b hb => hS b (Finset.mem_toList.mp hb)
  rw [← Finset.length_toList] at hleast hmost hfits
  obtain ⟨entries, count, hcount, hreads⟩ :=
    Source.selection_reads hwf.start_nonneg hlength S.nodup_toList hmem hleast hmost hfits
  have hrun := hreads.run_eq []
  rw [List.append_nil] at hrun
  have hchosen : Source.Selected size bits count S.toList :=
    ⟨hcount ▸ ⟨hleast, hmost⟩, hcount ▸ Int.ofNat_le.mpr hfits, hcount.symm, S.nodup_toList, hmem⟩
  refine ⟨entries, .ofValue k (k.addingAll blank S.toList) (.num bits.start) (.num size.start), ?_,
    (setAll_selected hk hwf halloc hchosen).1.trans S.toList_toFinset⟩
  rw [newTree_sampled_run hk hwf halloc, Step.run_map, hrun]
  dsimp only [Except.map]
  rw [Datum.map_index_nat]

end Trees

attribute [local instance] Memory.small

end Strategy

end FlagSets
