import FlagSets.Proofs.Strategies

/-!
# What can be sampled

A number of bits and a span to choose them from can be sampled if both are spelled as spans, there
is a number to choose, the bits fit the kind, and there are as many of them as may be asked for. The
checks of the construction decide just this, one after another, and refuse whatever fails one of
them.

One of them asks how long the span of the bits is, and a length has a bound of its own. A span with
more elements is not refused: asking for its length fails. So it comes to that fault for every
growable kind, whether or not the span has all the bits that may be asked for.

A refusal quotes what was handed over, or the spans that were read. It is raised if these can be
written out.

## Main results

* `ofSize_of_spells` : what is made of spans once they are read.
* `ofSize_settled` : what can be sampled is accepted and everything else is refused, unless the bits
  are too many to be counted.
-/

namespace FlagSets.Strategy

open Outcome

/-- The sizes are not empty, the elements fit the width of the kind, and they are no fewer than the
largest size. -/
structure Samples (k : Kind) (sizes elements : Span Numeral) : Prop where
  nonempty : sizes.start.value < sizes.endExcl.value
  fits : ∀ width ∈ k.width?, elements.endExcl.value ≤ width
  enough : sizes.endExcl.value - 1 ≤ elements.endExcl.value - elements.start.value

/-- The sizes are not empty and the elements fit the width of the kind, but they are more than a
length can be. -/
structure Exceeds (k : Kind) (sizes elements : Span Numeral) : Prop where
  nonempty : sizes.start.value < sizes.endExcl.value
  fits : ∀ width ∈ k.width?, elements.endExcl.value ≤ width
  uncounted : Datum.maxLength < elements.endExcl.value - elements.start.value

/-- Two data spell spans that are related. -/
def Spelled (p : Span Numeral → Span Numeral → Prop) (size bits : Datum) : Prop :=
  ∃ sizes elements, Span.Spells size sizes ∧ Span.Spells bits elements ∧ p sizes elements

/-- All that a refusal may quote can be written out. -/
structure Quotable (k : Kind) (size bits : Datum) : Prop where
  size_legible : size.isLegible
  bits_legible : bits.isLegible
  sizes_legible : ∀ r, Span.Spells size r → (Datum.ofSpan r).isLegible
  elements_legible : ∀ r, Span.Spells bits r → (Datum.ofSpan r).isLegible
  width_short : ∀ w : Nat, k.width? = some w → Text.isShort w

section Construction

variable {k : Kind} {size bits : Datum} {sizes elements : Span Numeral}

/-- Each datum spells one span at most, and so these are the ones that have to be related. -/
theorem spelled_iff (hsize : Span.Spells size sizes) (hbits : Span.Spells bits elements)
    {p : Span Numeral → Span Numeral → Prop} : Spelled p size bits ↔ p sizes elements := by
  constructor
  · rintro ⟨sizes', elements', hsize', hbits', h⟩
    rwa [hsize.unique hsize', hbits.unique hbits']
  · exact fun h => ⟨sizes, elements, hsize, hbits, h⟩

/-- Where one of the two spells nothing, they are not related in any way. -/
theorem not_spelled {p : Span Numeral → Span Numeral → Prop}
    (h : (∀ r, ¬ Span.Spells size r) ∨ ∀ r, ¬ Span.Spells bits r) : ¬ Spelled p size bits := by
  rintro ⟨sizes, elements, hsize, hbits, -⟩
  exact h.elim (fun hnone => hnone sizes hsize) fun hnone => hnone elements hbits

/-- A datum that spells nothing is refused, wherever it stands. -/
theorem ofSize_of_not_spells (k : Kind)
    (h : (∀ r, ¬ Span.Spells size r) ∨ ∀ r, ¬ Span.Spells bits r) :
    (ofSize (.kind k) size bits).IsRefused (Quotable k size bits) := by
  show IsRefused _ (Span.ofDatum size "size" >>= _)
  obtain ⟨sizes, hsize, hread⟩ | ⟨-, hrefused⟩ := Span.ofDatum_cases size "size"
  · rw [hread]
    show IsRefused _ (Span.ofDatum bits "bits" >>= _)
    obtain ⟨elements, hbits, -⟩ | ⟨-, hrefused⟩ := Span.ofDatum_cases bits "bits"
    · exact absurd h (not_or.mpr ⟨not_forall_not.mpr ⟨sizes, hsize⟩,
        not_forall_not.mpr ⟨elements, hbits⟩⟩)
    · exact (hrefused.mono Quotable.bits_legible).bind _
  · exact (hrefused.mono Quotable.size_legible).bind _

/-- What is checked of two spans once they are read. -/
private theorem ofSize_eq (hsize : Span.Spells size sizes) (hbits : Span.Spells bits elements) :
    ofSize (.kind k) size bits =
      if sizes.endExcl.value ≤ sizes.start.value then refuse (.emptyRange "size" (.ofSpan sizes))
      else do
        requireWidth k (.num elements.endExcl) "bits.end_excl"
        let available ← Datum.reportable elements.size
        if (available : Int) < sizes.last then
          refuse (.tooFewBits available sizes.start sizes.endExcl)
        return .sampled k sizes elements := by
  simp only [ofSize, requireKind, Span.ofDatum_eq_ok_iff.mpr hsize,
    Span.ofDatum_eq_ok_iff.mpr hbits, bind, Except.bind, pure, Except.pure]
  split
  · rfl
  · rfl

/-- The spans that are read can be written out, where all that may be quoted can. -/
private theorem Quotable.spelled (h : Quotable k size bits) (hsize : Span.Spells size sizes)
    (hbits : Span.Spells bits elements) :
    Text.isShort sizes.start.value ∧ Text.isShort sizes.endExcl.value ∧
      (Datum.num elements.endExcl).isLegible := by
  have hsizes := h.sizes_legible sizes hsize
  have helements := h.elements_legible elements hbits
  rw [Datum.isLegible_ofSpan, Bool.and_eq_true] at hsizes helements
  refine ⟨Numeral.isShort_value hsizes.1, Numeral.isShort_value hsizes.2, ?_⟩
  rw [Datum.isLegible]
  exact helements.2

/-- Too few elements, which could be counted, are refused. -/
private theorem Quotable.refuse_tooFewBits (hsize : Span.Spells size sizes)
    (hbits : Span.Spells bits elements) (hcounted : elements.size ≤ Datum.maxLength) :
    (refuse (.tooFewBits elements.size sizes.start sizes.endExcl) : Outcome Strategy).IsRefused
      (Quotable k size bits) := by
  refine .refuse _ fun h => ?_
  obtain ⟨hstart, hend, -⟩ := h.spelled hsize hbits
  have hshort : Text.isShort elements.size :=
    Text.isShort_of_lt_word (Nat.lt_of_le_of_lt hcounted (by decide))
  simp [Refusal.quoted, Datum.isLegible_nat, Datum.isLegible_int, hshort, hstart, hend]

/-- Two spans make a strategy or are refused as the kind can sample them or not, unless there are
too many elements to count. -/
theorem ofSize_of_spells (k : Kind) (hsize : Span.Spells size sizes)
    (hbits : Span.Spells bits elements) :
    (Exceeds k sizes elements ∧ ofSize (.kind k) size bits = .error .overflow) ∨
      ¬ Exceeds k sizes elements ∧
        (Samples k sizes elements ∧
            ofSize (.kind k) size bits = .ok (.sampled k sizes elements) ∨
          ¬ Samples k sizes elements ∧
            (ofSize (.kind k) size bits).IsRefused (Quotable k size bits)) := by
  have hcount : (elements.size : Int) = elements.endExcl.value - elements.start.value := by
    have horder := hbits.inOrder.2
    unfold Span.size
    omega
  rw [ofSize_eq hsize hbits]
  by_cases hempty : sizes.endExcl.value ≤ sizes.start.value
  · rw [if_pos hempty]
    refine .inr ⟨fun h => absurd h.nonempty (Int.not_lt.mpr hempty),
      .inr ⟨fun h => absurd h.nonempty (Int.not_lt.mpr hempty), ?_⟩⟩
    exact .refuse _ fun h => by simp [Refusal.quoted, h.sizes_legible sizes hsize]
  rw [if_neg hempty]
  have hnonempty := Int.not_le.mp hempty
  cases hwidth : requireWidth k (.num elements.endExcl) "bits.end_excl" with
  | error fault =>
      have hrefusal := requireWidth_failsOnly k elements.endExcl _ fault hwidth
      have hwide : ¬ ∀ width ∈ k.width?, elements.endExcl.value ≤ width := by
        intro hfits
        cases hwidth.symm.trans (requireWidth_eq_ok_iff.mpr hfits)
      refine .inr ⟨fun h => hwide h.fits, .inr ⟨fun h => hwide h.fits, fault, rfl, ?_⟩⟩
      exact hrefusal.mono fun h => ⟨(h.spelled hsize hbits).2.2, h.width_short⟩
  | ok _ =>
      have hfits := requireWidth_eq_ok_iff.mp hwidth
      by_cases hmany : Datum.maxLength < elements.size
      · have hreport : Datum.reportable elements.size = .error .overflow := if_pos hmany
        rw [hreport]
        exact .inl ⟨⟨hnonempty, hfits, by omega⟩, rfl⟩
      have hreport : Datum.reportable elements.size = .ok elements.size := if_neg hmany
      rw [hreport]
      refine .inr ⟨fun h => absurd h.uncounted (by omega), ?_⟩
      by_cases hfew : (elements.size : Int) < sizes.last
      · refine .inr ⟨fun h => ?_, ?_⟩
        · have henough := h.enough
          unfold Span.last at hfew
          omega
        · have hrefused := Quotable.refuse_tooFewBits (k := k) hsize hbits (Nat.not_lt.mp hmany)
          show IsRefused _ (if _ then _ else _)
          rwa [if_pos hfew]
      · refine .inl ⟨⟨hnonempty, hfits, ?_⟩, ?_⟩
        · unfold Span.last at hfew
          omega
        · exact if_neg hfew

end Construction

/-- A size and bits, whatever they are, make a strategy or are refused, and the first just if the
kind can sample what they spell. The one exception are elements that are too many to be counted;
and what cannot be quoted may not be refused for what it is. -/
theorem ofSize_settled (k : Kind) (size bits : Datum) :
    (¬ Spelled (Exceeds k) size bits →
      ((∃ s, ofSize (.kind k) size bits = .ok s) ∨
        (ofSize (.kind k) size bits).IsRefused (Quotable k size bits)) ∧
      ∀ s, ofSize (.kind k) size bits = .ok s ↔
        Spelled (fun sizes elements => Samples k sizes elements ∧ s = .sampled k sizes elements)
          size bits) ∧
    (Spelled (Exceeds k) size bits → ofSize (.kind k) size bits = .error .overflow) := by
  by_cases hnone : (∀ r, ¬ Span.Spells size r) ∨ ∀ r, ¬ Span.Spells bits r
  · have hrefused := ofSize_of_not_spells k hnone
    refine ⟨fun _ => ⟨.inr hrefused, fun s => ?_⟩, fun h => absurd h (not_spelled hnone)⟩
    exact iff_of_false (hrefused.ne_ok s) (not_spelled hnone)
  push Not at hnone
  obtain ⟨⟨sizes, hsize⟩, elements, hbits⟩ := hnone
  simp only [spelled_iff hsize hbits]
  obtain ⟨hexceeds, hfault⟩ | ⟨hcounted, ⟨hsamples, hmade⟩ | ⟨hillegal, hrefused⟩⟩ :=
    ofSize_of_spells k hsize hbits
  · exact ⟨fun hcounted => absurd hexceeds hcounted, fun _ => hfault⟩
  · refine ⟨fun _ => ⟨.inl ⟨_, hmade⟩, fun s => ?_⟩, fun h => absurd h hcounted⟩
    rw [hmade, Except.ok.injEq]
    exact ⟨fun h => ⟨hsamples, h.symm⟩, fun h => h.2.symm⟩
  · refine ⟨fun _ => ⟨.inr hrefused, fun s => ?_⟩, fun h => absurd h hcounted⟩
    exact iff_of_false (hrefused.ne_ok s) fun h => hillegal h.1

/-- One bit out of `2 ^ 63` is something that lists of flags can sample, and a number of bits
greater than that is not. Neither is what becomes of it: counting the bits fails in both cases. -/
theorem ofSize_uncounted :
    let k : Kind := .growable .boolVec
    let bits : Datum := .tuple [.int 0, .int 9223372036854775808]
    let many : Datum := .int 9223372036854775809
    Spelled (Samples k) (.int 1) bits ∧ ofSize (.kind k) (.int 1) bits = .error .overflow ∧
      ¬ Spelled (Samples k) many bits ∧ ofSize (.kind k) many bits = .error .overflow ∧
      ¬ ∀ size bits, (∃ s, ofSize (.kind k) size bits = .ok s) ∨
        ∃ why, ofSize (.kind k) size bits = .error (.refused why) := by
  intro k bits many
  have hbits : Span.Spells bits ⟨.plain 0, .plain 9223372036854775808⟩ := .pair (by decide)
  have hone : Span.Spells (.int 1) ⟨.plain 1, .plain 2⟩ := .single (by decide)
  have hmany : Span.Spells many ⟨.plain 9223372036854775809, .plain 9223372036854775810⟩ :=
    .single (by decide)
  have hfault : ofSize (.kind k) (.int 1) bits = .error .overflow := rfl
  refine ⟨(spelled_iff hone hbits).mpr ⟨by decide, nofun, by decide⟩, hfault, ?_, rfl, ?_⟩
  · rw [spelled_iff hmany hbits]
    exact fun h => absurd h.enough (by decide)
  · intro h
    obtain ⟨s, hs⟩ | ⟨why, hwhy⟩ := h (.int 1) bits
    · cases hfault.symm.trans hs
    · cases hfault.symm.trans hwhy

end FlagSets.Strategy
