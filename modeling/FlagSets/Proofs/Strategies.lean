import FlagSets.Proofs.Spellings
import FlagSets.Proofs.Values
import FlagSets.Strategy

/-!
# What a strategy promises

The checks made when a strategy is constructed leave bounds that are in order and fit the kind, a
mask that is a value of the kind, and no more bits to set than there are to choose from. The values
that a strategy admits are those with all their bits where it says, as many as it says, and of
exactly the length that its kind allocates.

An admitted value stays admitted when one of its bits is cleared, as long as more bits are set than
the floor of the strategy. This is all that shrinking ever does to a value.

## Main results

* `ofBounds_eq_ok`, `ofMask_eq_ok`, `ofSize_eq_ok` : what arguments that are accepted are like.
* `MadeOver.wellFormed` : what every constructed strategy satisfies.
* `Admits.without` : clearing a bit above the floor keeps to what the strategy admits.
-/

namespace FlagSets

/-- The bits of a value lie between two bounds. A value that grows has room up to the upper one and
no further. -/
structure Kind.Within (k : Kind) (low high : Int) (v : Datum) : Prop where
  checked : ∀ name, k.requireValue v name = .ok ()
  length_eq : k.width? = none → k.length v = .ok high.toNat
  bounds : ∀ b ∈ k.bitsOf v, low ≤ b ∧ b < high

namespace Kind

variable {k : Kind} {low high : Int} {v : Datum}

theorem Within.isValue (hk : k.IsStandard) (h : k.Within low high v) : k.IsValue v :=
  (requireValue_eq_ok_iff hk).mp (h.checked "value")

/-- Clearing a bit keeps a value within its bounds. -/
theorem Within.without (hk : k.IsStandard) (h : k.Within low high v) (b : Nat) :
    k.Within low high (k.without v b) := by
  have hv := h.isValue hk
  refine ⟨fun name => (requireValue_eq_ok_iff hk).mpr (hv.without b), ?_, ?_⟩
  · intro hgrows
    rw [(hv.without b).length_eq, hv.capacity_without, ← hv.length_eq]
    exact h.length_eq hgrows
  · intro i hi
    rw [hv.bitsOf_without] at hi
    exact h.bounds i (Finset.mem_of_mem_erase hi)

end Kind

namespace Strategy

/-- The strategies that are made over a kind, in whichever way. -/
inductive MadeOver [Memory] (k : Kind) (s : Strategy) : Prop
  | ofBounds {low high mask : Datum} (h : Strategy.ofBounds (.kind k) low high mask = .ok s)
  | ofMask {mask : Datum} (h : Strategy.ofMask (.kind k) mask = .ok s)
  | ofSize {size bits : Datum} (h : Strategy.ofSize (.kind k) size bits = .ok s)

/-- What the checks on the arguments of a strategy establish. -/
inductive WellFormed (k : Kind) : Strategy → Prop
  | range {low high : Numeral} {mask : Option Datum} (hlow : 0 ≤ low.value)
      (horder : low.value ≤ high.value) (hwidth : ∀ width ∈ k.width?, high.value ≤ width)
      (hmask : ∀ m ∈ mask, k.IsValue m) : WellFormed k (.range k low high mask)
  | sampled {size bits : Span Numeral} (hleast : 0 ≤ size.start.value)
      (hlow : 0 ≤ bits.start.value) (horder : bits.start.value ≤ bits.endExcl.value)
      (hwidth : ∀ width ∈ k.width?, bits.endExcl.value ≤ width)
      (hroom : size.start.value ≤ size.last ∧ size.last ≤ bits.size) :
      WellFormed k (.sampled k size bits)

/-- The number of set bits below which no value of a strategy is shrunk. -/
def floor : Strategy → Int
  | range _ _ _ _ => 0
  | sampled _ size _ => size.start.value
  | bare => 0

/-- The values that a strategy stands for. -/
def Admits : Strategy → Datum → Prop
  | range k low high mask, v =>
    k.Within low.value high.value v ∧ ∀ m ∈ mask, k.bitsOf v ⊆ k.bitsOf m
  | sampled k size bits, v =>
    k.Within bits.start.value bits.endExcl.value v ∧
      size.start.value ≤ (k.bitsOf v).card ∧ (k.bitsOf v).card ≤ size.last
  | bare, _ => False

/-! ## Construction -/

section Construction

variable {k : Kind}

/-- Exactly the bounds that fit the width of a kind pass. -/
theorem requireWidth_eq_ok_iff {n : Numeral} {name : String} :
    requireWidth k (.num n) name = .ok () ↔ ∀ width ∈ k.width?, n.value ≤ width := by
  rw [requireWidth_num]
  cases k.width? with
  | none => exact iff_of_true rfl nofun
  | some width =>
      by_cases h : (width : Int) < n.value
      · simp [h, Outcome.refuse]
      · simp [h, Int.not_lt.mp h]

/-- Bounds that are accepted are positions in order that fit the kind, and a mask is a value. -/
theorem ofBounds_eq_ok [Memory] (hk : k.IsStandard) {low high mask : Datum} {s : Strategy}
    (h : Strategy.ofBounds (.kind k) low high mask = .ok s) :
    ∃ (a b : Numeral) (m : Option Datum), s = .range k a b m ∧ low = .num a ∧ high = .num b ∧
      mask = m.getD .absent ∧ 0 ≤ a.value ∧ a.value ≤ b.value ∧
      (∀ width ∈ k.width?, b.value ≤ width) ∧ ∀ v ∈ m, k.IsValue v := by
  simp only [Strategy.ofBounds, Outcome.bind_eq_ok_iff] at h
  obtain ⟨_, hkind, low, hlow, high, hhigh, ⟨⟩, horder, ⟨⟩, hwidth, h⟩ := h
  cases hkind
  obtain ⟨rfl, hnonneg⟩ := requireIndex_eq_ok_iff.mp hlow
  obtain ⟨rfl, -⟩ := requireIndex_eq_ok_iff.mp hhigh
  have hle : low.value ≤ high.value := by
    rw [requireOrdered_num] at horder
    split at horder
    · cases horder
    · exact Int.not_lt.mp ‹_›
  have hfits := requireWidth_eq_ok_iff.mp hwidth
  split at h
  · cases h
    exact ⟨low, high, none, rfl, rfl, rfl, rfl, hnonneg, hle, hfits, by simp⟩
  · simp only [Outcome.bind_eq_ok_iff] at h
    obtain ⟨⟨⟩, hmask, copied, hcopy, h⟩ := h
    have hvalue := (Kind.requireValue_eq_ok_iff hk).mp hmask
    rw [hvalue.copy_eq] at hcopy
    cases hcopy
    cases h
    exact ⟨low, high, some mask, rfl, rfl, rfl, rfl, hnonneg, hle, hfits, by simpa using hvalue⟩

/-- A mask that is accepted is a value, and its length is the upper bound. -/
theorem ofMask_eq_ok [Memory] (hk : k.IsStandard) {mask : Datum} {s : Strategy}
    (h : Strategy.ofMask (.kind k) mask = .ok s) :
    s = .range k (.plain 0) (.plain (k.capacity mask)) (some mask) ∧ k.IsValue mask ∧
      Strategy.ofBounds (.kind k) (.int 0) (.nat (k.capacity mask)) mask = .ok s := by
  simp only [Strategy.ofMask, Outcome.bind_eq_ok_iff] at h
  obtain ⟨_, hkind, ⟨⟩, hmask, length, hlength, h⟩ := h
  cases hkind
  have hvalue := (Kind.requireValue_eq_ok_iff hk).mp hmask
  rw [hvalue.length_eq] at hlength
  cases hlength
  obtain ⟨a, b, m, hs, ha, hb, hm, -⟩ := ofBounds_eq_ok hk h
  cases ha
  cases hb
  refine ⟨?_, hvalue, h⟩
  cases m with
  | none =>
      cases hm
      cases hvalue
  | some m =>
      cases hm
      exact hs

/-- A size that is accepted is not empty and at most the number of bits, which fit the kind. -/
theorem ofSize_eq_ok {size bits : Datum} {s : Strategy}
    (h : Strategy.ofSize (.kind k) size bits = .ok s) :
    ∃ sizes elements : Span Numeral, s = .sampled k sizes elements ∧
      Span.ofDatum size "size" = .ok sizes ∧ Span.ofDatum bits "bits" = .ok elements ∧
      sizes.start.value ≤ sizes.last ∧ (∀ width ∈ k.width?, elements.endExcl.value ≤ width) ∧
      Datum.reportable elements.size = .ok elements.size ∧ sizes.last ≤ elements.size := by
  simp only [Strategy.ofSize, Outcome.bind_eq_ok_iff] at h
  obtain ⟨_, hkind, size, hsize, bits, hbits, h⟩ := h
  cases hkind
  split at h
  · obtain ⟨_, hrefused, -⟩ := Outcome.bind_eq_ok_iff.mp h
    cases hrefused
  · rename_i hnonempty
    simp only [Outcome.bind_eq_ok_iff] at h
    obtain ⟨⟨⟩, hwidth, available, havailable, h⟩ := h
    obtain rfl := Datum.eq_of_reportable havailable
    split at h
    · obtain ⟨_, hrefused, -⟩ := Outcome.bind_eq_ok_iff.mp h
      cases hrefused
    · rename_i hfew
      cases h
      refine ⟨size, bits, rfl, hsize, hbits, ?_, requireWidth_eq_ok_iff.mp hwidth, havailable,
        Int.not_lt.mp hfew⟩
      unfold Span.last
      omega

/-- Every strategy over a standard kind satisfies what its construction checks. -/
theorem MadeOver.wellFormed [Memory] (hk : k.IsStandard) {s : Strategy} (h : s.MadeOver k) :
    s.WellFormed k := by
  have hbounds : ∀ {low high mask : Datum},
      Strategy.ofBounds (.kind k) low high mask = .ok s → s.WellFormed k := by
    intro low high mask h
    obtain ⟨a, b, m, rfl, -, -, -, hlow, horder, hwidth, hmask⟩ := ofBounds_eq_ok hk h
    exact .range hlow horder hwidth hmask
  cases h with
  | ofBounds h => exact hbounds h
  | ofMask h => exact hbounds (ofMask_eq_ok hk h).2.2
  | ofSize h =>
      obtain ⟨sizes, elements, rfl, hsize, hbits, hleast, hwidth, -, hmost⟩ := ofSize_eq_ok h
      obtain ⟨hlow, horder⟩ := (Span.ofDatum_eq_ok_iff.mp hbits).inOrder
      have hfirst := (Span.ofDatum_eq_ok_iff.mp hsize).inOrder.1
      exact .sampled hfirst hlow horder hwidth ⟨hleast, hmost⟩

theorem WellFormed.start_nonneg {size bits : Span Numeral}
    (hs : (Strategy.sampled k size bits).WellFormed k) : 0 ≤ bits.start.value := by
  cases hs with
  | sampled _ hlow _ _ _ => exact hlow

/-- The elements that a strategy chooses from are no more than a length can be. -/
theorem length_toRange_of_madeOver [Memory] (hk : k.IsStandard) {size bits : Span Numeral}
    (h : (sampled k size bits).MadeOver k) :
    bits.toRange.length = .ok bits.size := by
  cases h with
  | ofBounds h =>
      obtain ⟨_, _, _, hs, -⟩ := ofBounds_eq_ok hk h
      cases hs
  | ofMask h =>
      obtain ⟨hs, -⟩ := ofMask_eq_ok hk h
      cases hs
  | ofSize h =>
      obtain ⟨_, _, hs, -, -, -, -, hreport, -⟩ := ofSize_eq_ok h
      cases hs
      rw [bits.length_toRange]
      exact hreport

end Construction

/-! ## Shrinking -/

section Shrinking

variable {k : Kind} {s : Strategy} {v : Datum}

theorem Admits.isValue (hk : k.IsStandard) (hs : s.WellFormed k) (h : s.Admits v) :
    k.IsValue v := by
  cases hs with
  | range => exact h.1.isValue hk
  | sampled => exact h.1.isValue hk

/-- Clearing a set bit above the floor keeps to what the strategy admits. -/
theorem Admits.without (hk : k.IsStandard) (hs : s.WellFormed k) (h : s.Admits v) {b : Nat}
    (hb : b ∈ k.bitsOf v) (hcard : s.floor < (k.bitsOf v).card) : s.Admits (k.without v b) := by
  have hv := h.isValue hk hs
  cases hs with
  | range =>
      refine ⟨h.1.without hk b, ?_⟩
      intro m hm
      rw [hv.bitsOf_without]
      exact (Finset.erase_subset b _).trans (h.2 m hm)
  | @sampled size bits =>
      obtain ⟨hwithin, -, hmost⟩ := h
      refine ⟨hwithin.without hk b, ?_⟩
      change size.start.value < _ at hcard
      rw [hv.bitsOf_without, Finset.card_erase_of_mem hb]
      omega

end Shrinking

end Strategy

end FlagSets
