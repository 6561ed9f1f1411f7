import FlagSets.Proofs.Contiguous
import FlagSets.Proofs.Readings

/-!
# What the text of a strategy identifies

Two strategies with the same text are over the same kind, and were made in the same way of arguments
that are shown alike. Whatever else they differ in is of no consequence for what they generate, with
one exception: with a mask, the bounds are not shown. These decide which bits of the mask are free,
and how long the values are. As long as the bounds are those of the mask, the text identifies what
is generated; with other bounds it does not.

How the numbers of a sampled strategy are spelled shows in none of its draws, and the length of a
growable set is no part of it as a value.

## Main results

* `chosen_congr` : the spelling of a size has no effect on what is chosen.
* `ReadAlike.indistinct` : strategies that are read alike cannot be told apart by what they generate
  if their bounds let the same bits of their masks vary.
* `ReadAlike.sameReach_of_indistinct` : if they do not, some source tells them apart.
* `identified_by_text` : what a text identifies.
* `not_identified_by_text` : two strategies with the same text that throw different coins.
-/

namespace FlagSets

/-! ## Values that count as equal -/

namespace Kind

variable {k : Kind} {v w : Datum}

/-- Whether values of a kind with the same bits can differ in their length. Words have none of their
own, and that of a growable set does not count. -/
def ShowsLength (k : Kind) : Prop := ∃ b, k = growable b

theorem ShowsLength.grows (h : k.ShowsLength) : k.width? = none := by
  obtain ⟨b, rfl⟩ := h
  rfl

/-- Values that count as equal have the same bits. -/
theorem IsValue.bitsOf_eq_of_same (hv : k.IsValue v) (h : v.Same w) : k.bitsOf v = k.bitsOf w := by
  cases h with
  | refl => rfl
  | @varSet s t h =>
      cases hv with
      | varSet b _ =>
          ext i
          rw [(IsValue.varSet b s).mem_bitsOf, (IsValue.varSet b t).mem_bitsOf, has_varSet,
            has_varSet, VarSet.equal_iff_test.mp h]

/-- Where it shows, values that count as equal have the same length. -/
theorem IsValue.capacity_eq_of_same (hv : k.IsValue v) (hshows : k.ShowsLength) (h : v.Same w) :
    k.capacity v = k.capacity w := by
  obtain ⟨b, rfl⟩ := hshows
  cases h with
  | refl => rfl
  | varSet => cases hv

/-- Values with the same bits, and where it shows of the same length, count as equal. -/
theorem IsValue.same_of_bitsOf_eq (hv : k.IsValue v) (hw : k.IsValue w) (hpv : v.plain = v)
    (hpw : w.plain = w) (hbits : k.bitsOf v = k.bitsOf w)
    (hlength : k.ShowsLength → k.capacity v = k.capacity w) : v.Same w := by
  have hhas := has_eq_of_bitsOf_eq hv hw hbits
  cases hv with
  | @word word m hm =>
      cases hw with
      | @word _ n hn =>
          have hvalue : m.value = n.value :=
            word.eq_of_test hm hn fun i => by rw [← has_word, hhas, has_word]
          rw [← hpv, ← hpw, Datum.plain, Datum.plain, hvalue]
          exact .refl _
  | bools bs =>
      cases hw with
      | bools cs =>
          have hsize := hlength ⟨_, rfl⟩
          rw [capacity_bools, capacity_bools] at hsize
          obtain rfl := Flags.eq_of_test hsize fun i => by rw [← has_bools, hhas, has_bools]
          exact .refl _
  | bitArray bs =>
      cases hw with
      | bitArray cs =>
          obtain rfl := Flags.eq_of_test (hlength ⟨_, rfl⟩) fun i => by
            rw [← has_bitArray, hhas, has_bitArray]
          exact .refl _
  | varSet b s =>
      cases hw with
      | varSet _ t =>
          exact .varSet (VarSet.equal_iff_test.mpr fun i => by
            rw [← has_varSet b, hhas, has_varSet])

end Kind

/-! ## The spelling of sizes -/

namespace Source

/-- An integer between two bounds in order. -/
private theorem integerRange_of_le {low : Numeral} {last : Int} (h : low.value ≤ last) :
    integerRange (.num low) (.int last) =
      if low.value = last then return low else (return .plain (← between low.value last)) := by
  have hlast : requireInteger (.int last) "upper" = .ok (.plain last) := rfl
  unfold integerRange
  rw [requireInteger_num, hlast, Datum.int, requireOrdered_num, Numeral.value_plain,
    if_neg (Int.not_lt.mpr h)]
  rfl

/-- A choice depends on how many elements are wanted, and not on how the number is spelled. -/
private theorem chooseMultiple_congr [Memory] {values : Datum} {m n : Numeral}
    (h : m.value = n.value)
    (hfew : ∀ size, values.length = .ok size → 0 ≤ m.value ∧ m.value ≤ size) :
    chooseMultiple values (.num m) = chooseMultiple values (.num n) := by
  unfold chooseMultiple
  rw [requireInteger_num, requireInteger_num]
  cases hlength : values.length with
  | error fault => rfl
  | ok size =>
      obtain ⟨hnonneg, hle⟩ := hfew size hlength
      apply Step.ext
      intro s
      simp only [Step.run_bind, Step.run_liftM]
      rw [if_neg (by omega), if_neg (by omega), h]

/-- What is chosen depends on the numbers of a size and of a span, and not on their spelling. -/
theorem chosen_congr [Memory] {size₁ size₂ bits₁ bits₂ : Span Numeral}
    (hleast : size₁.start.value = size₂.start.value) (hmost : size₁.last = size₂.last)
    (hbits : bits₁.toRange = bits₂.toRange) (hnonneg : 0 ≤ size₁.start.value)
    (horder : size₁.start.value ≤ size₁.last)
    (hroom : ∀ length, bits₁.toRange.length = .ok length → size₁.last ≤ length) :
    (Prod.snd <$> selection size₁ bits₁ : Draw (List Datum)) =
      Prod.snd <$> selection size₂ bits₂ := by
  apply Step.ext
  intro source
  rw [selection, selection, integerRange_of_le horder, integerRange_of_le (hmost ▸ hleast ▸ horder),
    ← hleast, ← hmost, ← hbits]
  split
  · -- there is one number in the size, which is not drawn but handed on as it is spelled
    rename_i hone
    have hchoice : chooseMultiple bits₁.toRange (.num size₁.start) =
        chooseMultiple bits₁.toRange (.num size₂.start) :=
      chooseMultiple_congr hleast fun length hlength => ⟨hnonneg, hone ▸ hroom length hlength⟩
    simp only [pure_bind, hchoice, Step.run_map, Step.run_bind, Step.run_pure]
    rcases (chooseMultiple bits₁.toRange (.num size₂.start)).run source with ⟨_ | _, _⟩
    · rfl
    · rfl
  · rfl

end Source

/-! ## What a text leaves open -/

namespace Strategy

/-- What the bounds that come with a mask decide: the bits of the mask that are free, and the upper
bound where the length of a value shows. It is not in the text of a strategy. -/
def SameReach (k : Kind) : Strategy → Strategy → Prop
  | range _ low₁ high₁ (some mask₁), range _ low₂ high₂ (some mask₂) =>
    freeBits k low₁ high₁ (some mask₁) = freeBits k low₂ high₂ (some mask₂) ∧
      (k.ShowsLength → high₁.value = high₂.value)
  | _, _ => True

/-- With a mask, the bounds are those of the mask. -/
def SpansMask (k : Kind) : Strategy → Prop
  | range _ low high (some mask) => low.value = 0 ∧ high.value = k.capacity mask
  | _ => True

/-- Two strategies that cannot be told apart from a source: the same source is left, both fail alike
or both generate a tree, and the trees have values that count as equal and answer every run of calls
alike. -/
def Indistinct [Memory] (k : Kind) (s₁ s₂ : Strategy) (source : Source) : Prop :=
  (s₁.newTree.run source).2 = (s₂.newTree.run source).2 ∧
    Outcome.Agree
      (fun t₁ t₂ => Outcome.Agree Datum.Same t₁.current t₂.current ∧ ValueTree.Alike k k t₁ t₂)
      (s₁.newTree.run source).1 (s₂.newTree.run source).1

variable {k : Kind} {s s₁ s₂ : Strategy}

/-! ## What is drawn -/

/-- Strategies that are read alike draw the same, and have the same floor, if their bounds let the
same bits of their masks vary. -/
theorem ReadAlike.drawn_eq [Memory] (hs₁ : s₁.WellFormed k) (h : ReadAlike k s₁ s₂)
    (hreach : SameReach k s₁ s₂) : s₁.drawn = s₂.drawn ∧ s₁.floor = s₂.floor := by
  cases h with
  | between low high => exact ⟨rfl, rfl⟩
  | masked low₁ high₁ low₂ high₂ _ => exact ⟨drawn_range_congr hreach.1, rfl⟩
  | @sampled size₁ size₂ bits₁ bits₂ hleast hmost hlow hhigh =>
      cases hs₁ with
      | sampled hnonneg _ _ _ hsize =>
          have hlast : size₁.last = size₂.last := by
            rw [Span.last, Span.last, hmost]
          have hrange : bits₁.toRange = bits₂.toRange := by
            rw [Span.toRange, Span.toRange, hlow, hhigh]
          have hroom : ∀ length, bits₁.toRange.length = .ok length → size₁.last ≤ length := by
            intro length hlength
            rw [bits₁.length_toRange] at hlength
            rw [Datum.eq_of_reportable hlength]
            exact hsize.2
          have hchosen := Source.chosen_congr hleast hlast hrange hnonneg hsize.1 hroom
          refine ⟨?_, hleast⟩
          have hdrawn : ∀ size bits : Span Numeral, (Strategy.sampled k size bits).drawn =
              (fun ds => (ds.map Datum.index).toFinset) <$>
                (Prod.snd <$> Source.selection size bits : Draw (List Datum)) := by
            intro size bits
            rw [← comp_map]
            rfl
          rw [hdrawn, hdrawn, hchosen]

/-- They make values of the same length too, where it shows. -/
theorem ReadAlike.extent_eq (h : ReadAlike k s₁ s₂) (hreach : SameReach k s₁ s₂)
    (hshows : k.ShowsLength) : s₁.extent = s₂.extent := by
  cases h with
  | between low high => rfl
  | masked low₁ high₁ low₂ high₂ _ => exact hreach.2 hshows
  | sampled _ _ _ hhigh => exact hhigh

/-- A tree that a strategy has just generated over a value of the length that it allocates. -/
theorem Fresh.capacity_eq (hk : k.IsStandard) (hs : s.WellFormed k) (hgrows : k.width? = none)
    {tree : ValueTree} (h : s.Fresh k tree) : k.capacity tree.held = s.extent.toNat := by
  have hvalue := h.isValue hk hs
  cases h with
  | @mk v _ _ hadmits _ _ _ _ =>
      have hlength : k.length v = .ok s.extent.toNat := by
        cases hs with
        | range => exact hadmits.1.length_eq hgrows
        | sampled => exact hadmits.1.length_eq hgrows
      exact Except.ok.inj (hvalue.length_eq.symm.trans hlength)

theorem Fresh.plain_eq {tree : ValueTree} (h : s.Fresh k tree) : tree.held.plain = tree.held := by
  cases h with
  | mk _ hplain _ _ _ => exact hplain

/-- On a tape of enough ones, every free bit comes up. -/
private theorem drawn_ones [Memory] (k : Kind) (low high : Numeral) (mask : Option Datum)
    (more : Nat) :
    let free := freeBits k low high mask
    (range k low high mask).drawn.run (.tape (List.replicate (free.length + more) 1)) =
      (.ok free.toFinset, .tape (List.replicate more 1)) := by
  intro free
  have hones : (free.map fun _ => true).map (fun coin : Bool => (coin.toNat : Int)) =
      List.replicate free.length 1 := by
    rw [List.map_map]
    exact List.map_const'
  have hcoins := (Source.flips_reads (free.map fun _ => true)).run_eq (List.replicate more 1)
  rw [hones, List.length_map, ← List.replicate_add] at hcoins
  have hall : picked free (free.map fun _ => true) = free := by
    rw [picked_map, List.filter_true]
  rw [drawn, Step.run_map, hcoins]
  exact congrArg (fun bits : List Nat => (Except.ok bits.toFinset, _)) hall

/-! ## From equal texts -/

section Read

variable [Memory] (hk : k ∈ Kind.shipped) (hs₁ : s₁.WellFormed k) (hs₂ : s₂.WellFormed k)

include hk hs₁ hs₂

/-- The set of bits of a generated value is the same for both. -/
theorem ReadAlike.bitsOf_run_eq (h : ReadAlike k s₁ s₂) (hreach : SameReach k s₁ s₂)
    (hroom : s₁.extent = s₂.extent ∨ s₁.HasRoom ∧ s₂.HasRoom) (source : Source) :
    ((fun tree => k.bitsOf tree.held) <$> s₁.newTree : Draw (Finset Nat)).run source =
      ((fun tree => k.bitsOf tree.held) <$> s₂.newTree : Draw (Finset Nat)).run source := by
  have hstandard := Kind.isStandard_of_mem_shipped k hk
  have hboth : s₁.HasRoom → s₂.HasRoom →
      ((fun tree => k.bitsOf tree.held) <$> s₁.newTree : Draw (Finset Nat)).run source =
        ((fun tree => k.bitsOf tree.held) <$> s₂.newTree : Draw (Finset Nat)).run source := by
    intro hroom₁ hroom₂
    rw [bitsOf_newTree_run hstandard hs₁ hroom₁, bitsOf_newTree_run hstandard hs₂ hroom₂,
      (h.drawn_eq hs₁ hreach).1]
  rcases hroom with hextent | ⟨hroom₁, hroom₂⟩
  · rcases hasRoom_or_unallocated hstandard hs₁ with hroom₁ | ⟨fault₁, hsized₁, hfails₁⟩
    · refine hboth hroom₁ ((hasRoom_or_unallocated hstandard hs₂).resolve_right ?_)
      rintro ⟨_, -, hfails₂⟩
      have hfits := hroom₁.extent_le hstandard (hfails₂ source).grows hs₁
      have hlong := (hfails₂ source).memory_lt
      omega
    · obtain hroom₂ | ⟨fault₂, hsized₂, hfails₂⟩ := hasRoom_or_unallocated hstandard hs₂
      · have hfits := hroom₂.extent_le hstandard (hfails₁ source).grows hs₂
        have hlong := (hfails₁ source).memory_lt
        omega
      · -- neither has room, and both fail for the same reason
        rw [hextent, hsized₂] at hsized₁
        cases hsized₁
        rw [Step.run_map, Step.run_map, (hfails₁ source).run_eq, (hfails₂ source).run_eq]
  · exact hboth hroom₁ hroom₂

/-- Strategies that are read alike cannot be told apart by what they generate, if their bounds let
the same bits of their masks vary. -/
theorem ReadAlike.indistinct (h : ReadAlike k s₁ s₂) (hreach : SameReach k s₁ s₂)
    (hroom : s₁.extent = s₂.extent ∨ s₁.HasRoom ∧ s₂.HasRoom) (source : Source) :
    Indistinct k s₁ s₂ source := by
  have hstandard := Kind.isStandard_of_mem_shipped k hk
  obtain ⟨hleft, hagree⟩ :=
    Step.agree_of_map_run_eq (h.bitsOf_run_eq hk hs₁ hs₂ hreach hroom source)
  have halike := newTree_alike_of_agree hstandard hstandard hs₁ hs₂ (h.drawn_eq hs₁ hreach).2 hagree
  refine ⟨hleft, ?_⟩
  rcases hrun₁ : s₁.newTree.run source with ⟨outcome₁, left₁⟩
  rcases hrun₂ : s₂.newTree.run source with ⟨outcome₂, left₂⟩
  rw [hrun₁, hrun₂] at halike
  cases halike with
  | error fault => exact .error fault
  | @ok t₁ t₂ halike =>
      have hfresh₁ := (newTree_returns hstandard hs₁).of_run hrun₁
      have hfresh₂ := (newTree_returns hstandard hs₂).of_run hrun₂
      have hsame : t₁.held.Same t₂.held := by
        apply (hfresh₁.isValue hstandard hs₁).same_of_bitsOf_eq (hfresh₂.isValue hstandard hs₂)
          hfresh₁.plain_eq hfresh₂.plain_eq halike.bitsOf_eq
        intro hshows
        rw [hfresh₁.capacity_eq hstandard hs₁ hshows.grows,
          hfresh₂.capacity_eq hstandard hs₂ hshows.grows, h.extent_eq hreach hshows]
      refine .ok ⟨?_, halike⟩
      rw [hfresh₁.current_eq hstandard hs₁, hfresh₂.current_eq hstandard hs₂]
      exact .ok hsame

/-- Strategies with room for their values that cannot be told apart draw the same sets. -/
private theorem drawn_run_eq_of_indistinct (hroom₁ : s₁.HasRoom) (hroom₂ : s₂.HasRoom)
    {source : Source} (h : Indistinct k s₁ s₂ source) :
    s₁.drawn.run source = s₂.drawn.run source := by
  have hstandard := Kind.isStandard_of_mem_shipped k hk
  obtain ⟨hleft, hagree⟩ := h
  rw [← bitsOf_newTree_run hstandard hs₁ hroom₁, ← bitsOf_newTree_run hstandard hs₂ hroom₂,
    Step.run_map, Step.run_map, hleft]
  rcases hrun₁ : s₁.newTree.run source with ⟨outcome₁, left₁⟩
  rcases hrun₂ : s₂.newTree.run source with ⟨outcome₂, left₂⟩
  rw [hrun₁, hrun₂] at hagree
  cases hagree with
  | error fault => rfl
  | ok halike => exact congrArg (fun S => (Except.ok S, left₂)) halike.2.bitsOf_eq

/-- Strategies that cannot be told apart where they generate trees make values of the same length,
where it shows. -/
private theorem extent_eq_of_indistinct (hshows : k.ShowsLength) {source left : Source}
    {tree : ValueTree} (hrun₁ : s₁.newTree.run source = (.ok tree, left))
    (h : Indistinct k s₁ s₂ source) : s₁.extent = s₂.extent := by
  have hstandard := Kind.isStandard_of_mem_shipped k hk
  obtain ⟨-, hagree⟩ := h
  rcases hrun₂ : s₂.newTree.run source with ⟨outcome₂, left₂⟩
  rw [hrun₁, hrun₂] at hagree
  cases hagree with
  | ok halike =>
      have hfresh₁ := (newTree_returns hstandard hs₁).of_run hrun₁
      have hfresh₂ := (newTree_returns hstandard hs₂).of_run hrun₂
      have hcurrent := halike.1
      rw [hfresh₁.current_eq hstandard hs₁, hfresh₂.current_eq hstandard hs₂] at hcurrent
      cases hcurrent with
      | ok hsame =>
          have hlength :=
            (hfresh₁.isValue hstandard hs₁).capacity_eq_of_same hshows hsame
          rw [hfresh₁.capacity_eq hstandard hs₁ hshows.grows,
            hfresh₂.capacity_eq hstandard hs₂ hshows.grows] at hlength
          have hnonneg₁ := hs₁.extent_nonneg
          have hnonneg₂ := hs₂.extent_nonneg
          omega

/-- If the bounds of strategies that are read alike do not let the same bits of their masks vary,
some source tells them apart: one from which every coin comes up. -/
theorem ReadAlike.sameReach_of_indistinct (h : ReadAlike k s₁ s₂) (hroom₁ : s₁.HasRoom)
    (hroom₂ : s₂.HasRoom) (halike : ∀ source, Indistinct k s₁ s₂ source) :
    SameReach k s₁ s₂ := by
  have hstandard := Kind.isStandard_of_mem_shipped k hk
  cases h with
  | between low high => trivial
  | sampled => trivial
  | @masked low₁ high₁ low₂ high₂ mask₁ mask₂ _ =>
      let free₁ := freeBits k low₁ high₁ (some mask₁)
      let free₂ := freeBits k low₂ high₂ (some mask₂)
      let source := Source.tape (List.replicate (free₁.length + free₂.length) 1)
      have hones₁ : (range k low₁ high₁ (some mask₁)).drawn.run source =
          (.ok free₁.toFinset, .tape (List.replicate free₂.length 1)) :=
        drawn_ones k low₁ high₁ (some mask₁) free₂.length
      have hones₂ : (range k low₂ high₂ (some mask₂)).drawn.run source =
          (.ok free₂.toFinset, .tape (List.replicate free₁.length 1)) := by
        unfold source
        rw [Nat.add_comm]
        exact drawn_ones k low₂ high₂ (some mask₂) free₁.length
      have hset : free₁.toFinset = free₂.toFinset := by
        have hdrawn := drawn_run_eq_of_indistinct hk hs₁ hs₂ hroom₁ hroom₂ (halike source)
        rw [hones₁, hones₂] at hdrawn
        exact Except.ok.inj (Prod.mk.inj hdrawn).1
      have hfree : free₁ = free₂ := by
        apply (pairwise_freeBits k low₁ high₁ (some mask₁)).eq_of_mem_iff
          (pairwise_freeBits k low₂ high₂ (some mask₂))
        intro i
        rw [← List.mem_toFinset, ← List.mem_toFinset, hset]
      refine ⟨hfree, fun hshows => ?_⟩
      have hrun := bitsOf_newTree_run hstandard hs₁ hroom₁ source
      rw [hones₁, Step.run_map] at hrun
      rcases hrun₁ : (range k low₁ high₁ (some mask₁)).newTree.run source with ⟨fault | tree, left⟩
      · rw [hrun₁] at hrun
        cases hrun
      · exact extent_eq_of_indistinct hk hs₁ hs₂ hshows hrun₁ (halike source)

end Read

/-! ## The bounds of a mask -/

/-- What is made by a mask alone has the bounds of the mask. -/
theorem spansMask_of_ofMask [Memory] (hk : k.IsStandard) {mask : Datum}
    (h : Strategy.ofMask (.kind k) mask = .ok s) : SpansMask k s := by
  obtain ⟨rfl, -, -⟩ := ofMask_eq_ok hk h
  exact ⟨rfl, rfl⟩

/-- Within the bounds of a mask its bits are free. -/
private theorem freeBits_of_spansMask {low high : Numeral} {mask : Datum}
    (h : SpansMask k (range k low high (some mask))) :
    freeBits k low high (some mask) = k.bitsFrom mask 0 := by
  rw [← freeBits_capacity, freeBits, freeBits, h.1, h.2]
  rfl

/-- With the bounds of their masks, strategies that are read alike let the same bits vary. -/
theorem ReadAlike.sameReach_of_spansMask (hs₁ : s₁.WellFormed k) (hs₂ : s₂.WellFormed k)
    (h : ReadAlike k s₁ s₂) (h₁ : SpansMask k s₁) (h₂ : SpansMask k s₂) : SameReach k s₁ s₂ := by
  cases h with
  | between low high => trivial
  | sampled => trivial
  | masked low₁ high₁ low₂ high₂ hsame =>
      cases hs₁ with
      | range _ _ _ hmask₁ =>
          cases hs₂ with
          | range _ _ _ hmask₂ =>
              have hvalue₁ := hmask₁ _ rfl
              have hvalue₂ := hmask₂ _ rfl
              constructor
              · rw [freeBits_of_spansMask h₁, freeBits_of_spansMask h₂]
                exact Kind.bitsFrom_eq_of_bitsOf_eq hvalue₁ hvalue₂
                  (hvalue₁.bitsOf_eq_of_same hsame) 0
              · intro hshows
                rw [h₁.2, h₂.2, hvalue₁.capacity_eq_of_same hshows hsame]

/-- Two strategies over kinds that come with the library, made in whichever way and of any
arguments, that have the same text. They are over the same kind. If their bounds are those of their
masks, the same bits vary. If the same bits vary, no source tells the strategies apart, as far as
memory has room for the values of both, or these are equally long. If different bits vary, some
source does. Without room nothing is drawn, and nothing is generated. -/
theorem identified_by_text [Memory] {k₁ k₂ : Kind} (hk₁ : k₁ ∈ Kind.shipped)
    (hk₂ : k₂ ∈ Kind.shipped) {s₁ s₂ : Strategy} (h₁ : s₁.MadeOver k₁) (h₂ : s₂.MadeOver k₂)
    (h : s₁.wording = s₂.wording) :
    k₁ = k₂ ∧
      (SpansMask k₁ s₁ → SpansMask k₁ s₂ → SameReach k₁ s₁ s₂) ∧
      (SameReach k₁ s₁ s₂ → s₁.extent = s₂.extent ∨ s₁.HasRoom ∧ s₂.HasRoom →
        ∀ source, Indistinct k₁ s₁ s₂ source) ∧
      (s₁.HasRoom → s₂.HasRoom → (∀ source, Indistinct k₁ s₁ s₂ source) →
        SameReach k₁ s₁ s₂) ∧
      ∀ s, s = s₁ ∨ s = s₂ → ¬ s.HasRoom →
        ∃ fault, ∀ source, Unallocated k₁ s.extent s source fault := by
  have hs₁ := h₁.wellFormed (Kind.isStandard_of_mem_shipped k₁ hk₁)
  have hs₂ := h₂.wellFormed (Kind.isStandard_of_mem_shipped k₂ hk₂)
  obtain ⟨rfl, hread⟩ := readAlike_of_wording_eq hk₁ hk₂ hs₁ hs₂ h
  refine ⟨rfl, hread.sameReach_of_spansMask hs₁ hs₂, hread.indistinct hk₁ hs₁ hs₂,
    hread.sameReach_of_indistinct hk₁ hs₁ hs₂, ?_⟩
  rintro s hs hroom
  have hwf : s.WellFormed k₁ := by
    rcases hs with rfl | rfl
    · exact hs₁
    · exact hs₂
  obtain ⟨fault, -, hfails⟩ :=
    (hasRoom_or_unallocated (Kind.isStandard_of_mem_shipped k₁ hk₁) hwf).resolve_left hroom
  exact ⟨fault, hfails⟩

attribute [local instance] Memory.small

/-- Two masks with the same bits that differ in what backs them and in their room. -/
theorem identified_by_text_growable :
    let k := Kind.varsize .boolVec
    let mask₁ := Datum.varSet ⟨.boolVec, [true, false, true]⟩
    let mask₂ := Datum.varSet ⟨.bitArray, [true, false, true, false, false]⟩
    let s₁ : Strategy := .range k (.plain 0) (.plain 3) (some mask₁)
    let s₂ : Strategy := .range k (.plain 0) (.plain 5) (some mask₂)
    k ∈ Kind.shipped ∧ Strategy.ofMask (.kind k) mask₁ = .ok s₁ ∧
      Strategy.ofMask (.kind k) mask₂ = .ok s₂ ∧ s₁.shown = s₂.shown ∧
      ∀ source, Indistinct k s₁ s₂ source := by
  intro k mask₁ mask₂ s₁ s₂
  have hk : k ∈ Kind.shipped := by decide
  have hmade₁ : Strategy.ofMask (.kind k) mask₁ = .ok s₁ := rfl
  have hmade₂ : Strategy.ofMask (.kind k) mask₂ = .ok s₂ := rfl
  have hshown : s₁.shown = s₂.shown := rfl
  have hstandard : k.IsStandard := .inl rfl
  obtain ⟨-, hspans, halike, -⟩ :=
    identified_by_text hk hk (.ofMask hmade₁) (.ofMask hmade₂) rfl
  have hreach := hspans (spansMask_of_ofMask hstandard hmade₁)
    (spansMask_of_ofMask hstandard hmade₂)
  have hroom₁ : s₁.HasRoom := ⟨.varSet ⟨.boolVec, List.replicate 3 false⟩, rfl⟩
  have hroom₂ : s₂.HasRoom := ⟨.varSet ⟨.boolVec, List.replicate 5 false⟩, rfl⟩
  exact ⟨hk, hmade₁, hmade₂, hshown, halike hreach (.inr ⟨hroom₁, hroom₂⟩)⟩

/-- A mask of four bits, of which explicit bounds let only the lower two vary. The text is that of
the strategy that is made by the mask alone, which throws four coins. -/
theorem not_identified_by_text :
    let k := Kind.word .u8
    let s₁ : Strategy := .range k (.plain 0) (.plain 2) (some (.int 15))
    let s₂ : Strategy := .range k (.plain 0) (.plain 8) (some (.int 15))
    let source := Source.tape [1, 1, 1, 1]
    k ∈ Kind.shipped ∧ Strategy.ofBounds (.kind k) (.int 0) (.int 2) (.int 15) = .ok s₁ ∧
      Strategy.ofMask (.kind k) (.int 15) = .ok s₂ ∧ s₁.shown = some "u8.masked(15)" ∧
      s₂.shown = some "u8.masked(15)" ∧
      s₁.newTree.run source = (.ok ⟨k, .int 3, .int 0, none, .int 0⟩, .tape [1, 1]) ∧
      s₂.newTree.run source = (.ok ⟨k, .int 15, .int 0, none, .int 0⟩, .tape []) ∧
      ¬ Indistinct k s₁ s₂ source := by
  intro k s₁ s₂ source
  have hrun₁ : s₁.newTree.run source =
      (.ok ⟨k, .int 3, .int 0, none, .int 0⟩, .tape [1, 1]) := rfl
  have hrun₂ : s₂.newTree.run source = (.ok ⟨k, .int 15, .int 0, none, .int 0⟩, .tape []) := rfl
  have hk : k ∈ Kind.shipped := by decide
  have hmask : k.IsValue (.int 15) := .word (by decide)
  have hlegible : (Datum.int 15).isLegible = true := hmask.isLegible hk
  have hshown₁ : s₁.shown = some "u8.masked(15)" := if_pos hlegible
  have hshown₂ : s₂.shown = some "u8.masked(15)" := if_pos hlegible
  refine ⟨hk, rfl, rfl, hshown₁, hshown₂, hrun₁, hrun₂, ?_⟩
  rintro ⟨hleft, -⟩
  rw [hrun₁, hrun₂] at hleft
  cases hleft

end Strategy

end FlagSets
