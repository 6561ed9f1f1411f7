import FlagSets.Proofs.Allocation
import FlagSets.Proofs.Draws

/-!
# What a strategy generates

A value is generated by setting bits of an empty one that has just enough room. Which bits those are
is all that the source decides: the coins that come up, in the order of the free bits, or a choice
of distinct elements.

The loop over coins is the only place where the number of draws depends on the mask. It is shown to
draw one coin for each free bit first and to set the bits afterwards, so that everything later can
take the coins as a list.

## Main results

* `coins_run` : the loop over coins draws as many as there are free bits, and sets the picked ones.
* `newTree_range_run`, `newTree_sampled_run` : a strategy draws first, and sets bits afterwards.
* `newTree_returns` : a drawn tree holds an admitted value, and nothing lies before its cursor.
-/

namespace FlagSets

namespace Kind

variable [Memory] {k : Kind} {low : Int} {high : Numeral} {v : Datum}

/-! ## Setting several bits -/

/-- The value with each of some bits set in turn. -/
def addingAll (k : Kind) (v : Datum) (bits : List Nat) : Datum := bits.foldl k.adding v

/-- A value with room for some bits is still one of the kind with all of them set, and has just
these bits added. -/
theorem IsValue.addingAll (h : k.IsValue v) {bits : List Nat}
    (hbits : ∀ b ∈ bits, b < k.capacity v) :
    k.IsValue (k.addingAll v bits) ∧ k.capacity (k.addingAll v bits) = k.capacity v ∧
      k.bitsOf (k.addingAll v bits) = k.bitsOf v ∪ bits.toFinset := by
  induction bits generalizing v with
  | nil => exact ⟨h, rfl, by simp [Kind.addingAll]⟩
  | cons b bits ih =>
      have hb := hbits b List.mem_cons_self
      have hcap := h.capacity_adding hb
      obtain ⟨hvalue, hroom, hset⟩ := ih (h.adding hb) fun i hi => by
        rw [hcap]
        exact hbits i (List.mem_cons_of_mem b hi)
      refine ⟨hvalue, hroom.trans hcap, ?_⟩
      show k.bitsOf (k.addingAll (k.adding v b) bits) = _
      rw [hset, h.bitsOf_adding hb, List.toFinset_cons, Finset.union_insert, Finset.insert_union]

theorem IsValue.plain_addingAll (h : k.IsValue v) (hp : v.plain = v) {bits : List Nat}
    (hbits : ∀ b ∈ bits, b < k.capacity v) :
    (k.addingAll v bits).plain = k.addingAll v bits := by
  induction bits generalizing v with
  | nil => exact hp
  | cons b bits ih =>
      have hb := hbits b List.mem_cons_self
      refine ih (h.adding hb) (h.plain_adding hb) ?_
      intro i hi
      rw [h.capacity_adding hb]
      exact hbits i (List.mem_cons_of_mem b hi)

/-- An empty value with bits between two bounds set lies within these, and has just these bits. -/
theorem Blank.within_addingAll (hk : k.IsStandard) (h : k.Blank high.value.toNat v)
    (hwidth : ∀ width ∈ k.width?, high.value ≤ width) {bits : List Nat}
    (hbits : ∀ b ∈ bits, low ≤ b ∧ b < high.value) :
    k.Within low high.value (k.addingAll v bits) ∧
      k.bitsOf (k.addingAll v bits) = bits.toFinset := by
  obtain ⟨hvalue, hcap, hset⟩ :=
    h.isValue.addingAll fun b hb => h.lt_capacity hwidth (hbits b hb).2
  rw [h.bitsOf_eq, Finset.empty_union] at hset
  refine ⟨⟨fun name => (requireValue_eq_ok_iff hk).mpr hvalue, ?_, ?_⟩, hset⟩
  · intro hgrows
    rw [hvalue.length_eq, hcap, h.capacity_eq, hgrows]
    rfl
  · intro b hb
    rw [hset, List.mem_toFinset] at hb
    exact hbits b hb

end Kind

/-! ## Coins -/

namespace Source

/-- A number of coins in a row. -/
def flips : Nat → Draw (List Bool)
  | 0 => return []
  | n + 1 => do
    let coin ← boolean
    let coins ← flips n
    return coin :: coins

end Source

namespace Strategy

variable {k : Kind} {v : Datum}

/-- Whether a bit may vary under a mask. -/
def isFree (k : Kind) (mask : Option Datum) (b : Nat) : Bool :=
  match mask with
  | none => true
  | some m => k.has m b

/-- The bits whose coin came up. -/
def picked : List Nat → List Bool → List Nat
  | b :: bits, coin :: coins => if coin then b :: picked bits coins else picked bits coins
  | _, _ => []

/-- The loop passes over a bit that may not vary, and throws a coin for one that may. -/
private theorem coins_cons [Memory] {mask : Option Datum} (hmask : ∀ m ∈ mask, k.IsValue m)
    (b : Nat) (bits : List Int) (v : Datum) (s : Source) :
    (coins k mask (Int.ofNat b :: bits) v).run s =
      if isFree k mask b then
        (do
          if ← Source.boolean then coins k mask bits (← k.set v (.nat b))
          else coins k mask bits v : Draw Datum).run s
      else (coins k mask bits v).run s := by
  cases mask with
  | none =>
      simp only [coins, Step.run_bind, Step.run_pure, if_true]
      rfl
  | some m =>
      have htest : k.test m (.int (Int.ofNat b)) = .ok (.bool (k.has m b)) :=
        (hmask m rfl).test_eq (Int.natCast_nonneg b)
      unfold isFree
      cases hfree : k.has m b with
      | false =>
          simp only [coins, Step.run_bind, Step.run_liftM, htest, hfree, Datum.truthy_bool,
            Bool.false_eq_true, if_false]
      | true =>
          simp only [coins, Step.run_bind, Step.run_liftM, htest, hfree, Datum.truthy_bool, if_true]
          rfl

/-- The loop over coins draws one for each free bit, and sets the bits whose coin came up. -/
theorem coins_run [Memory] {mask : Option Datum} (hmask : ∀ m ∈ mask, k.IsValue m) {bits : List Nat}
    (hv : k.IsValue v) (hbits : ∀ b ∈ bits, b < k.capacity v) (s : Source) :
    (coins k mask (bits.map Int.ofNat) v).run s =
      ((fun coins => k.addingAll v (picked (bits.filter (isFree k mask)) coins)) <$>
        Source.flips (bits.filter (isFree k mask)).length : Draw Datum).run s := by
  induction bits generalizing v s with
  | nil => rfl
  | cons b bits ih =>
      have hb := hbits b List.mem_cons_self
      have hrest : ∀ i ∈ bits, i < k.capacity v := fun i hi => hbits i (List.mem_cons_of_mem b hi)
      have hadded : ∀ i ∈ bits, i < k.capacity (k.adding v b) := by
        rw [hv.capacity_adding hb]
        exact hrest
      have hset : k.set v (.nat b) = .ok (k.adding v b) :=
        hv.set_eq (Int.natCast_nonneg b) (Int.ofNat_lt.mpr hb)
      rw [List.map_cons, coins_cons hmask]
      by_cases hfree : isFree k mask b = true
      · rw [if_pos hfree, List.filter_cons_of_pos hfree, List.length_cons]
        simp only [Source.flips, Step.run_bind, Step.run_map]
        rcases Source.boolean.run s with ⟨fault | coin, left⟩
        · rfl
        · cases coin with
          | true =>
              simp only [if_true, hset, Step.run_bind, Step.run_liftM, ih (hv.adding hb) hadded,
                Step.run_map]
              rcases (Source.flips _).run left with ⟨fault | coins, last⟩
              · rfl
              · rfl
          | false =>
              simp only [Bool.false_eq_true, if_false, ih hv hrest, Step.run_map]
              rcases (Source.flips _).run left with ⟨fault | coins, last⟩
              · rfl
              · rfl
      · rw [if_neg hfree, List.filter_cons_of_neg hfree, ih hv hrest]

theorem mem_picked_cons {b i : Nat} {bits : List Nat} {coin : Bool} {coins : List Bool} :
    i ∈ picked (b :: bits) (coin :: coins) ↔ i = b ∧ coin = true ∨ i ∈ picked bits coins := by
  cases coin with
  | false => simp [picked]
  | true => simp [picked]

/-- The picked bits are those that stand beside a coin that came up. -/
theorem mem_picked {bits : List Nat} {coins : List Bool} {b : Nat} :
    b ∈ picked bits coins ↔ (b, true) ∈ bits.zip coins := by
  induction bits generalizing coins with
  | nil => simp [picked]
  | cons c bits ih =>
      cases coins with
      | nil => simp [picked]
      | cons coin coins =>
          rw [mem_picked_cons, List.zip_cons_cons, List.mem_cons, Prod.mk.injEq, ih]
          simp only [eq_comm]

theorem mem_of_mem_picked {bits : List Nat} {coins : List Bool} {b : Nat}
    (h : b ∈ picked bits coins) : b ∈ bits :=
  (List.of_mem_zip (mem_picked.mp h)).1

/-! ## Trees -/

/-- The bits that a range strategy lets vary, in ascending order. -/
def freeBits (k : Kind) (low high : Numeral) (mask : Option Datum) : List Nat :=
  (List.range' low.value.toNat (high.value - low.value).toNat).filter (isFree k mask)

/-- A tree as a strategy draws it: over an admitted value, with no set bit before its cursor. -/
inductive Fresh (s : Strategy) (k : Kind) : ValueTree → Prop
  | mk {v : Datum} {c m : Numeral} (hadmits : s.Admits v) (hplain : v.plain = v)
      (hc : 0 ≤ c.value) (hbits : ∀ b, k.has v b = true → c.value ≤ b) (hm : m.value = s.floor) :
      Fresh s k (.ofValue k v (.num c) (.num m))

/-- A cursor that no set bit lies before has all of them ahead. -/
theorem bitsFrom_eq_of_cursor {c : Numeral} (h : ∀ b, k.has v b = true → c.value ≤ b) :
    k.bitsFrom v 0 = k.bitsFrom v c.value.toNat := by
  apply Kind.bitsFrom_eq_of_forall_le
  intro i hi
  have hle := h i hi
  omega

theorem Fresh.isValue (hk : k.IsStandard) {s : Strategy} (hs : s.WellFormed k) {tree : ValueTree}
    (h : s.Fresh k tree) : k.IsValue tree.held := by
  cases h with
  | mk hadmits _ _ _ _ => exact hadmits.isValue hk hs

theorem Fresh.current_eq [Memory] (hk : k.IsStandard) {s : Strategy} (hs : s.WellFormed k)
    {tree : ValueTree} (h : s.Fresh k tree) : tree.current = .ok tree.held := by
  have hv := h.isValue hk hs
  cases h with
  | mk _ _ _ _ _ => exact hv.copy_eq

section Trees

variable {low high : Numeral} {mask : Option Datum} {size bits : Span Numeral}

private theorem bounds_of_mem_freeBits (hlow : 0 ≤ low.value) {b : Nat}
    (hb : b ∈ freeBits k low high mask) : low.value ≤ b ∧ b < high.value := by
  have hrange := List.mem_range'_1.mp (List.mem_filter.mp hb).1
  omega

variable [Memory]

/-- A range strategy throws a coin for each free bit, and sets the bits whose coin came up. -/
theorem newTree_range_run (hk : k.IsStandard) (hs : (range k low high mask).WellFormed k)
    (halloc : k.allocate (.num high) = .ok v) (source : Source) :
    (newTree (.range k low high mask)).run source =
      ((fun coins => .ofValue k (k.addingAll v (picked (freeBits k low high mask) coins))
        (.num low) (.int 0)) <$>
        Source.flips (freeBits k low high mask).length : Draw ValueTree).run source := by
  cases hs with
  | range hlow _ hwidth hmask =>
      have hblank := Kind.blank_of_allocate hk halloc
      have hroom : ∀ b ∈ List.range' low.value.toNat (high.value - low.value).toNat,
          b < k.capacity v := by
        intro b hb
        have hrange := List.mem_range'_1.mp hb
        exact hblank.lt_capacity hwidth (by omega)
      unfold freeBits
      rw [newTree, halloc, Datum.rangeTerms_one hlow]
      simp only [Step.run_bind, Step.run_liftM, coins_run hmask hblank.isValue hroom,
        Step.run_map]
      rcases (Source.flips _).run source with ⟨fault | coins, left⟩
      · rfl
      · rfl

/-- The value that a range strategy makes of any coins is admitted, and a tree over it is fresh. -/
theorem fresh_of_coins (hk : k.IsStandard) (hs : (range k low high mask).WellFormed k)
    (halloc : k.allocate (.num high) = .ok v) (coins : List Bool) :
    (range k low high mask).Fresh k
      (.ofValue k (k.addingAll v (picked (freeBits k low high mask) coins)) (.num low)
        (.int 0)) := by
  cases hs with
  | range hlow _ hwidth hmask =>
      have hblank := Kind.blank_of_allocate hk halloc
      have hbits : ∀ b ∈ picked (freeBits k low high mask) coins,
          low.value ≤ b ∧ b < high.value :=
        fun b hb => bounds_of_mem_freeBits hlow (mem_of_mem_picked hb)
      obtain ⟨hwithin, hset⟩ := hblank.within_addingAll hk hwidth hbits
      refine .mk ⟨hwithin, ?_⟩ ?_ hlow ?_ rfl
      · intro m hm b hb
        rw [hset, List.mem_toFinset] at hb
        have hfree := (List.mem_filter.mp (mem_of_mem_picked hb)).2
        rw [(hmask m hm).mem_bitsOf]
        rw [Option.mem_def.mp hm] at hfree
        exact hfree
      · exact hblank.isValue.plain_addingAll hblank.plain_eq
          fun b hb => hblank.lt_capacity hwidth (hbits b hb).2
      · intro b hb
        exact (hwithin.bounds b ((hwithin.isValue hk).mem_bitsOf.mpr hb)).1

/-- Setting bits that there is room for succeeds, and sets them all. -/
theorem setAll_eq (hv : k.IsValue v) {bs : List Nat} (hbs : ∀ b ∈ bs, b < k.capacity v) :
    setAll k v (bs.map Datum.nat) = .ok (k.addingAll v bs) := by
  induction bs generalizing v with
  | nil => rfl
  | cons b bs ih =>
      have hb := hbs b List.mem_cons_self
      have hset : k.set v (.nat b) = .ok (k.adding v b) :=
        hv.set_eq (Int.natCast_nonneg b) (Int.ofNat_lt.mpr hb)
      have hrest : ∀ i ∈ bs, i < k.capacity (k.adding v b) := by
        intro i hi
        rw [hv.capacity_adding hb]
        exact hbs i (List.mem_cons_of_mem b hi)
      rw [setAll, List.map_cons, List.foldlM_cons, hset]
      exact ih (hv.adding hb) hrest

/-- The value with the selected bits set is admitted by a sampled strategy, and a tree over it is
fresh. -/
theorem fresh_of_selected (hk : k.IsStandard) (hs : (sampled k size bits).WellFormed k)
    (halloc : k.allocate (.num bits.endExcl) = .ok v) {count : Numeral} {chosen : List Nat}
    (h : Source.Selected size bits count chosen) :
    (sampled k size bits).Fresh k
      (.ofValue k (k.addingAll v chosen) (.num bits.start) (.num size.start)) := by
  cases hs with
  | sampled _ hlow _ hwidth _ =>
      have hblank := Kind.blank_of_allocate hk halloc
      obtain ⟨hwithin, hset⟩ := hblank.within_addingAll hk hwidth h.bounds
      refine .mk ⟨hwithin, ?_⟩ ?_ hlow ?_ rfl
      · rw [hset, List.toFinset_card_of_nodup h.nodup, h.length_eq]
        exact h.count_mem
      · exact hblank.isValue.plain_addingAll hblank.plain_eq
          fun b hb => hblank.lt_capacity hwidth (h.bounds b hb).2
      · intro b hb
        exact (hwithin.bounds b ((hwithin.isValue hk).mem_bitsOf.mpr hb)).1

/-- There is room in a new value for all elements of the span. -/
theorem size_le_capacity (hk : k.IsStandard) (hs : (sampled k size bits).WellFormed k)
    (halloc : k.allocate (.num bits.endExcl) = .ok v) : bits.size ≤ k.capacity v := by
  cases hs with
  | sampled _ hlow horder hwidth _ =>
      rcases Nat.eq_zero_or_pos bits.size with hempty | hsome
      · omega
      · have hlast := (Kind.blank_of_allocate hk halloc).lt_capacity hwidth
          (b := bits.endExcl.value.toNat - 1) (by unfold Span.size at hsome; omega)
        unfold Span.size
        omega

/-- With room for a value, a sampled strategy draws a number and a choice, and then sets the bits
that were chosen. -/
theorem newTree_sampled_run (hk : k.IsStandard) (hs : (sampled k size bits).WellFormed k)
    (halloc : k.allocate (.num bits.endExcl) = .ok v) (source : Source) :
    (newTree (.sampled k size bits)).run source =
      ((fun drawn => .ofValue k (k.addingAll v (drawn.2.map Datum.index)) (.num bits.start)
        (.num size.start)) <$> Source.selection size bits : Draw ValueTree).run source := by
  have hcapacity := size_le_capacity hk hs halloc
  cases hs with
  | sampled _ hlow _ hwidth hroom =>
      have hblank := Kind.blank_of_allocate hk halloc
      rw [newTree, halloc, Source.selection]
      simp only [Step.run_bind, Step.run_liftM, Step.run_map, hblank.isValue.length_eq]
      rcases hcount : (Source.integerRange (.num size.start) (.int size.last)).run source with
        ⟨fault | count, middle⟩
      · rfl
      have hmost := ((Source.integerRange_returns size.start (.plain size.last)).of_run hcount).2
      rw [Numeral.value_plain] at hmost
      -- no number that is drawn exceeds the room of the value
      dsimp only
      rw [if_neg (by omega)]
      simp only [Step.run_bind, Step.run_liftM]
      rcases hchosen : (Source.chooseMultiple bits.toRange (.num count)).run middle with
        ⟨fault | chosen, left⟩
      · rfl
      obtain ⟨-, bs, rfl, -, -, hbs⟩ :=
        (Source.chooseMultiple_returns bits hlow count).of_run hchosen
      dsimp only
      rw [setAll_eq hblank.isValue fun b hb => hblank.lt_capacity hwidth (hbs b hb).2]
      show _ = (Except.ok (ValueTree.ofValue k
        (k.addingAll v ((bs.map Datum.nat).map Datum.index)) _ _), left)
      rw [Datum.map_index_nat]
      rfl

/-- Every tree that a strategy draws is fresh. -/
theorem newTree_returns (hk : k.IsStandard) {s : Strategy} (hs : s.WellFormed k) :
    s.newTree.Returns (s.Fresh k) := by
  have hfailed : ∀ {n : Datum} {fault : Fault} {f : Datum → Draw ValueTree},
      k.allocate n = .error fault → (liftM (k.allocate n) >>= f).Returns (s.Fresh k) := by
    intro n fault f halloc
    rw [halloc]
    exact Step.Returns.throw_bind fault f
  cases hs with
  | @range low high mask hlow horder hwidth hmask =>
      have hwf : (Strategy.range k low high mask).WellFormed k :=
        .range hlow horder hwidth hmask
      cases halloc : k.allocate (.num high) with
      | error fault => exact hfailed halloc
      | ok v =>
          rw [Step.ext (newTree_range_run hk hwf halloc)]
          exact Step.Returns.of_map (.any _) fun coins _ => fresh_of_coins hk hwf halloc coins
  | @sampled size bits hleast hlow horder hwidth hroom =>
      have hwf : (Strategy.sampled k size bits).WellFormed k :=
        .sampled hleast hlow horder hwidth hroom
      cases halloc : k.allocate (.num bits.endExcl) with
      | error fault => exact hfailed halloc
      | ok v =>
          rw [Step.ext (newTree_sampled_run hk hwf halloc)]
          apply Step.Returns.of_map (Source.selection_returns size hlow)
          rintro ⟨count, _⟩ ⟨chosen, rfl, hchosen⟩
          rw [Datum.map_index_nat]
          exact fresh_of_selected hk hwf halloc hchosen

/-- Every value that a strategy draws is admitted. -/
theorem value_returns (hk : k.IsStandard) {s : Strategy} (hs : s.WellFormed k) :
    s.value.Returns s.Admits := by
  unfold value
  apply Step.Returns.bind (newTree_returns hk hs)
  intro tree htree
  rw [htree.current_eq hk hs]
  cases htree with
  | mk hadmits _ _ _ _ =>
      refine Step.Returns.of_liftM fun v hv => ?_
      cases hv
      exact hadmits

end Trees

end Strategy

end FlagSets
