import FlagSets.Proofs.Independence

/-!
# Bounds and masks

The bits between two bounds can be let vary in two ways: by the bounds, or by a mask that has set
just these bits. The strategies differ in the length of their values and in where the trees of these
begin to scan: at the lower bound, or at the beginning of the mask. But the same bits are free, in
the same order, so that the same coins are thrown for them; and a fresh tree shows all set bits of
its value, whatever clear ones lie before them.

The two can only be told apart by what they allocate, and only where they allocate more than memory
has room for. A mask without any bit stands for the bits between two equal bounds, however large
these are.

## Main results

* `freeBits_masked` : a mask of the bits between two bounds leaves the same bits free.
* `between_alike_masked` : both draw the same and generate trees that answer alike.
* `between_unlike_masked` : past all memory only one of them generates a tree.
-/

namespace FlagSets

namespace Strategy

variable {k : Kind} {low high : Numeral} {mask : Datum}

/-- A mask that is a value is accepted, and its own length is the upper bound. -/
theorem ofMask_of_isValue [Memory] (hk : k.IsStandard) (hmask : k.IsValue mask) :
    Strategy.ofMask (.kind k) mask =
      .ok (.range k (.plain 0) (.plain (k.capacity mask)) (some mask)) := by
  have hlow : requireIndex (.int 0) "min_bit" = .ok (.plain 0) :=
    requireIndex_eq_ok_iff.mpr ⟨rfl, Int.le_refl 0⟩
  have hhigh : requireIndex (.nat (k.capacity mask)) "max_bit" = .ok (.plain (k.capacity mask)) :=
    requireIndex_eq_ok_iff.mpr ⟨rfl, Int.natCast_nonneg _⟩
  have horder : requireOrdered (.int 0) (.nat (k.capacity mask)) "min_bit" "max_bit" = .ok () := by
    rw [Datum.int, Datum.nat, Datum.int, requireOrdered_num]
    exact if_neg (Int.not_lt.mpr (Int.natCast_nonneg _))
  have hwidth : requireWidth k (.nat (k.capacity mask)) "max_bit" = .ok () := by
    refine requireWidth_eq_ok_iff.mpr fun width hk => ?_
    cases hmask <;> cases hk
    exact Int.le_refl _
  have hchecked : k.requireValue mask "mask" = .ok () :=
    (Kind.requireValue_eq_ok_iff hk).mpr hmask
  unfold ofMask ofBounds
  simp only [Outcome.bind_eq_ok_iff]
  refine ⟨k, rfl, ⟨⟩, hchecked, _, hmask.length_eq, k, rfl, _, hlow, _, hhigh, ⟨⟩, horder, ⟨⟩,
    hwidth, ?_⟩
  -- no value of a kind is the absent mask
  cases hmask <;> exact Outcome.bind_eq_ok_iff.mpr ⟨⟨⟩, hchecked, rfl⟩

/-- Every bit between two bounds is free without a mask. -/
theorem freeBits_none (k : Kind) (low high : Numeral) :
    freeBits k low high none =
      List.range' low.value.toNat (high.value - low.value).toNat :=
  List.filter_eq_self.mpr fun _ _ => rfl

/-- A mask of just the bits between two bounds leaves the same bits free, however long it is. -/
theorem freeBits_masked (hmask : k.IsValue mask) (hlow : 0 ≤ low.value)
    (hbits : ∀ b : Nat, b ∈ k.bitsOf mask ↔ low.value ≤ b ∧ b < high.value) :
    freeBits k (.plain 0) (.plain (k.capacity mask)) (some mask) = freeBits k low high none := by
  rw [freeBits_capacity, freeBits_none]
  apply (k.pairwise_bitsFrom mask 0).eq_of_mem_iff (List.pairwise_lt_range' 1)
  intro b
  have hb := hbits b
  rw [hmask.mem_bitsOf] at hb
  rw [hmask.mem_bitsFrom, hb, List.mem_range'_1]
  omega

/-- With room for their values, bounds and a mask of just the bits between them draw the same, and
generate trees that are alike. -/
theorem newTree_masked_alike [Memory] (hk : k.IsStandard)
    (hs : (range k low high none).WellFormed k) (hmask : k.IsValue mask)
    (hbits : ∀ b : Nat, b ∈ k.bitsOf mask ↔ low.value ≤ b ∧ b < high.value) {v w : Datum}
    (hv : k.allocate (.num high) = .ok v)
    (hw : k.allocate (.nat (k.capacity mask)) = .ok w) (source : Source) :
    let between := range k low high none
    let masked := range k (.plain 0) (.plain (k.capacity mask)) (some mask)
    let coins := Source.flips (high.value - low.value).toNat
    (between.newTree.run source).2 = (coins.run source).2 ∧
      (masked.newTree.run source).2 = (coins.run source).2 ∧
      Outcome.Agree (ValueTree.Alike k k) (between.newTree.run source).1
        (masked.newTree.run source).1 := by
  intro between masked coins
  have hmasked : masked.WellFormed k := by
    obtain ⟨-, -, hwf⟩ := ofMask_eq_ok hk (ofMask_of_isValue hk hmask)
    exact MadeOver.wellFormed hk (.ofBounds hwf)
  have hlow : 0 ≤ low.value := by
    cases hs with
    | range hlow => exact hlow
  have hfree := freeBits_masked hmask hlow hbits
  have hdrawn : between.drawn = masked.drawn := (drawn_range_congr hfree).symm
  have hrun := bitsOf_newTree_range_run hk hs hv source
  have hrun' := bitsOf_newTree_range_run hk hmasked hw source
  obtain ⟨hleft, hagree⟩ := Step.agree_of_map_run_eq (hrun.trans (hdrawn ▸ hrun'.symm))
  -- what is drawn for the set are the coins, and nothing else
  have hcoins : (between.newTree.run source).2 = (coins.run source).2 := by
    have hsecond := congrArg Prod.snd hrun
    rw [drawn, Step.run_map, Step.run_map, freeBits_none, List.length_range'] at hsecond
    exact hsecond
  exact ⟨hcoins, hleft.symm.trans hcoins, newTree_alike_of_agree hk hk hs hmasked rfl hagree⟩

/-- The bits between two bounds, and a mask of just these bits, of whatever length. As far as their
values can be allocated, both strategies throw a coin for each of the bits, and generate trees that
hold the same set and answer every run of calls alike. -/
theorem between_alike_masked [Memory] {k : Kind} (hk : k.IsStandard) {low high : Numeral}
    {s : Strategy} (hmade : Strategy.ofBounds (.kind k) (.num low) (.num high) .absent = .ok s)
    {mask : Datum} {name : String} (hmask : k.requireValue mask name = .ok ())
    (hbits : ∀ b : Nat, b ∈ k.bitsOf mask ↔ low.value ≤ b ∧ b < high.value) :
    ∃ masked, Strategy.ofMask (.kind k) mask = .ok masked ∧ ∀ source,
      (∀ v w, k.allocate (.num high) = .ok v → k.allocate (.nat (k.capacity mask)) = .ok w →
        let coins := Source.flips (high.value - low.value).toNat
        (s.newTree.run source).2 = (coins.run source).2 ∧
          (masked.newTree.run source).2 = (coins.run source).2 ∧
          Outcome.Agree (ValueTree.Alike k k) (s.newTree.run source).1
            (masked.newTree.run source).1) ∧
      (∀ fault, k.allocate (.num high) = .error fault →
        Unallocated k high.value s source fault) ∧
      ∀ fault, k.allocate (.nat (k.capacity mask)) = .error fault →
        Unallocated k (k.capacity mask) masked source fault := by
  have hvalue := (Kind.requireValue_eq_ok_iff hk).mp hmask
  obtain ⟨a, b, m, rfl, ha, hb, hm, hlow, horder, -, hm'⟩ := ofBounds_eq_ok hk hmade
  cases ha
  cases hb
  obtain rfl := eq_none_of_absent hm hm'
  have hs := MadeOver.wellFormed hk (.ofBounds hmade)
  refine ⟨_, ofMask_of_isValue hk hvalue, fun source => ⟨fun v w hv hw => ?_, fun fault h => ?_,
    fun fault h => ?_⟩⟩
  · exact newTree_masked_alike hk hs hvalue hbits hv hw source
  · exact unallocated_range hk (Int.le_trans hlow horder) h source
  · exact unallocated_range hk (Int.natCast_nonneg _) h source

attribute [local instance] Memory.small

/-- The bits one and two of a list of flags, by their bounds and by a longer mask. -/
theorem between_alike_masked_flags :
    let k := Kind.growable .boolVec
    let mask := Datum.bools [false, true, true, false, false]
    let between : Strategy := .range k (.plain 1) (.plain 3) none
    let source := Source.tape [0, 1, 9]
    Strategy.ofBounds (.kind k) (.int 1) (.int 3) .absent = .ok between ∧
      k.requireValue mask "mask" = .ok () ∧
      (∀ b : Nat, b ∈ k.bitsOf mask ↔ (1 : Int) ≤ b ∧ (b : Int) < 3) ∧
      ∃ masked, Strategy.ofMask (.kind k) mask = .ok masked ∧
        (between.newTree.run source).2 = .tape [9] ∧ (masked.newTree.run source).2 = .tape [9] ∧
        Outcome.Agree (ValueTree.Alike k k) (between.newTree.run source).1
          (masked.newTree.run source).1 := by
  intro k mask between source
  have hmade : Strategy.ofBounds (.kind k) (.int 1) (.int 3) .absent = .ok between := rfl
  have hmask : k.requireValue mask "mask" = .ok () := rfl
  have hset : k.bitsOf mask = {1, 2} := by decide
  have hbits : ∀ b : Nat, b ∈ k.bitsOf mask ↔ (1 : Int) ≤ b ∧ (b : Int) < 3 := by
    intro b
    rw [hset, Finset.mem_insert, Finset.mem_singleton]
    omega
  obtain ⟨masked, hmasked, hruns⟩ := between_alike_masked (k := k) (.inl rfl) hmade hmask hbits
  obtain ⟨hboth, -, -⟩ := hruns source
  obtain ⟨hleft, hleft', halike⟩ := hboth _ _ rfl rfl
  exact ⟨hmade, hmask, hbits, masked, hmasked, hleft.trans rfl, hleft'.trans rfl, halike⟩

/-- A mask without any bit stands for the bits between two equal bounds. If these are larger than
any length, there is no value to generate between them, but there is one for the mask. -/
theorem between_unlike_masked :
    let k := Kind.varsize .boolVec
    let mask := Datum.varSet ⟨.boolVec, []⟩
    let bound : Int := 18446744073709551616
    ∃ s masked, Strategy.ofBounds (.kind k) (.int bound) (.int bound) .absent = .ok s ∧
      k.requireValue mask "mask" = .ok () ∧
      (∀ b : Nat, b ∈ k.bitsOf mask ↔ bound ≤ b ∧ (b : Int) < bound) ∧
      Strategy.ofMask (.kind k) mask = .ok masked ∧
      s.newTree.run (.tape []) = (.error .overflow, .tape []) ∧
      (∃ tree, masked.newTree.run (.tape []) = (.ok tree, .tape []) ∧ k.bitsOf tree.held = ∅) ∧
      ¬ Outcome.Agree (fun t t' => k.bitsOf t.held = k.bitsOf t'.held)
        (s.newTree.run (.tape [])).1 (masked.newTree.run (.tape [])).1 := by
  intro k mask bound
  have hempty : k.bitsOf mask = ∅ := by decide
  have hbits : ∀ b : Nat, b ∈ k.bitsOf mask ↔ bound ≤ b ∧ (b : Int) < bound := by
    intro b
    rw [hempty]
    exact iff_of_false (Finset.notMem_empty b) (by omega)
  refine ⟨_, _, rfl, rfl, hbits, rfl, rfl, ⟨_, rfl, ?_⟩, nofun⟩
  decide

end Strategy

end FlagSets
