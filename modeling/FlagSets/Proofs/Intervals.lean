import FlagSets.Proofs.Spellings

/-!
# Spans as intervals

A span has five views of its elements, each with a formula of its own: whether an integer lies in
it, what an iteration yields, whether there is no element, the last one, and how many there are. As
soon as both bounds are integers the views agree, in whatever order the bounds are. A length has a
bound of its own, so it may fail where an iteration would go on; the other views never do.

Conversion settles which interval a datum stands for. There are several spellings of the same
interval, also in numerals that are not plain, and all of them are converted to equal spans. A span
that was converted is converted to itself. A datum that spells none is refused; only if it has an
integer in it that is too long to be written out may there be no message to refuse it with.

## Main results

* `Span.hasElements_of_integer` : the views of a span with integers for bounds agree.
* `Span.equal_iff` : converted spans are equal just if their bounds have the same values.
* `Span.ofDatum_settled` : just the spellings of a span are converted, and what is known of the
  results.
-/

namespace FlagSets

open Outcome

/-! ## The integers between two bounds -/

namespace Datum

variable {a b n : Int}

/-- Just the integers from the one bound up to the other are between them. -/
theorem mem_rangeTerms_one : n ∈ rangeTerms a b 1 ↔ a ≤ n ∧ n < b := by
  rw [rangeTerms, rangeLength_one, List.mem_map]
  constructor
  · rintro ⟨i, hi, rfl⟩
    have hlt : i < (b - a).toNat := List.mem_range.mp hi
    omega
  · rintro ⟨hlow, hhigh⟩
    have hlt : (n - a).toNat < (b - a).toNat := by omega
    exact ⟨(n - a).toNat, List.mem_range.mpr hlt, by omega⟩

theorem length_rangeTerms_one (a b : Int) : (rangeTerms a b 1).length = (b - a).toNat := by
  rw [rangeTerms, rangeLength_one, List.length_map, List.length_range]

/-- There are none just if the bounds are equal or crossed. -/
theorem rangeTerms_one_eq_nil_iff : rangeTerms a b 1 = [] ↔ b ≤ a := by
  rw [← List.length_eq_zero_iff, length_rangeTerms_one]
  omega

theorem pairwise_rangeTerms_one (a b : Int) : (rangeTerms a b 1).Pairwise (· < ·) := by
  rw [rangeTerms, rangeLength_one, List.pairwise_map]
  refine List.pairwise_lt_range.imp ?_
  intro i j hlt
  omega

/-- The last one lies right before the upper bound. -/
theorem getLast?_rangeTerms_one (h : a < b) : (rangeTerms a b 1).getLast? = some (b - 1) := by
  have hcount : (b - a).toNat ≠ 0 := by omega
  rw [rangeTerms, rangeLength_one, List.getLast?_map, List.getLast?_range, if_neg hcount]
  show some (a + 1 * (((b - a).toNat - 1 : Nat) : Int)) = some (b - 1)
  rw [show a + 1 * (((b - a).toNat - 1 : Nat) : Int) = b - 1 by omega]

/-- If there are any, they determine both bounds. -/
theorem bounds_of_rangeTerms_one {c d : Int} (h : rangeTerms a b 1 = rangeTerms c d 1)
    (hne : rangeTerms a b 1 ≠ []) : a = c ∧ b = d := by
  have hlt : a < b := Int.not_le.mp (mt rangeTerms_one_eq_nil_iff.mpr hne)
  -- the first and the last of each are among the other, so neither reaches further
  have hfirst : a ∈ rangeTerms c d 1 := h ▸ mem_rangeTerms_one.mpr ⟨Int.le_refl a, hlt⟩
  have hlast : b - 1 ∈ rangeTerms c d 1 := h ▸ mem_rangeTerms_one.mpr ⟨by omega, by omega⟩
  rw [mem_rangeTerms_one] at hfirst hlast
  have hback : c ∈ rangeTerms a b 1 := h ▸ mem_rangeTerms_one.mpr ⟨Int.le_refl c, by omega⟩
  have hend : d - 1 ∈ rangeTerms a b 1 := h ▸ mem_rangeTerms_one.mpr ⟨by omega, by omega⟩
  rw [mem_rangeTerms_one] at hback hend
  omega

end Datum

namespace Span

/-! ## Views that agree -/

/-- The integers that an iteration over a span yields, one after another: the terms of the range
between its bounds. Unlike a list of them, an iteration needs no memory. -/
def iterated (r : Span Datum) : Outcome (List Int) := do
  match ← Datum.spanRange r with
  | .range start stop step => return Datum.rangeTerms start stop step
  | _ => throw .mismatch

/-- An iteration goes through the integers between the bounds, if these are integers themselves. -/
theorem iterated_eq (r : Span Datum) :
    r.iterated = match r.start.integer?, r.endExcl.integer? with
      | some a, some b => .ok (Datum.rangeTerms a b 1)
      | _, _ => .error .mismatch := by
  unfold iterated Datum.spanRange
  cases r.start.integer? with
  | none => rfl
  | some a =>
      cases r.endExcl.integer? with
      | none => rfl
      | some b => rfl

section Bounds

variable {r : Span Datum} {a b : Int}

/-- Membership compares with both bounds, and the second one only if the first comparison passes. -/
theorem contains_of_integer (ha : r.start.integer? = some a) (hb : r.endExcl.integer? = some b)
    {d : Datum} {n : Int} (hd : d.integer? = some n) :
    r.contains d = .ok (decide (a ≤ n ∧ n < b)) := by
  rw [contains, Datum.isAtMost_of_integer ha hd, Datum.isLess_of_integer hd hb]
  by_cases hlow : a ≤ n
  · simp [hlow, bind, Except.bind]
  · simp [hlow, bind, Except.bind, pure, Except.pure]

theorem spanLength_of_integer (ha : r.start.integer? = some a)
    (hb : r.endExcl.integer? = some b) :
    Datum.spanLength r = Datum.reportable (b - a).toNat := by
  rw [Datum.spanLength, Datum.number?_of_integer ha, Datum.number?_of_integer hb]

end Bounds

/-- A converted span as a caller hands it over. -/
def asData (r : Span Numeral) : Span Datum := ⟨.num r.start, .num r.endExcl⟩

/-- Converted spans are equal just if their bounds have the same values. -/
theorem equal_iff (r s : Span Numeral) :
    r.asData.equal (.ofSpan s) = true ↔
      r.start.value = s.start.value ∧ r.endExcl.value = s.endExcl.value := by
  show ((Datum.num r.start).equal (.num s.start) && (Datum.num r.endExcl).equal (.num s.endExcl)) =
    true ↔ _
  rw [Datum.equal_num, Datum.equal_num, Bool.and_eq_true, decide_eq_true_iff, decide_eq_true_iff]

/-- The range, the last element and the size that strategies go by are views of the span too. -/
theorem views_asData (r : Span Numeral) :
    Datum.spanRange r.asData = .ok r.toRange ∧ r.asData.endIncl = .ok (.int r.last) ∧
      Datum.spanLength r.asData = Datum.reportable r.size := by
  refine ⟨rfl, ?_, spanLength_of_integer rfl rfl⟩
  show (Datum.num r.endExcl).plus (-1) = .ok (.int r.last)
  rw [Datum.plus_num, last, Int.sub_eq_add_neg]

section Elements

variable [Memory]

/-- A list of the elements of a span has those that an iteration yields, as far as memory goes. -/
theorem elements_span (r : Span Datum) :
    (Datum.span r).elements = do
      let ns ← r.iterated
      let _ ← Datum.sized ns.length
      return ns.map .int := by
  rw [iterated_eq, Datum.elements]
  cases r.start.integer? with
  | none => rfl
  | some a =>
      cases r.endExcl.integer? with
      | none => rfl
      | some b =>
          dsimp only [bind, Except.bind]
          rw [Datum.length_rangeTerms_one]

/-- All views of a span say that its elements are the given integers. -/
structure HasElements (r : Span Datum) (ns : List Int) : Prop where
  iterated : r.iterated = .ok ns
  listed : (Datum.span r).elements = do
    let _ ← Datum.sized ns.length
    return ns.map .int
  ascending : ns.Pairwise (· < ·)
  contains : ∀ d n, d.integer? = some n → r.contains d = .ok (decide (n ∈ ns))
  isEmpty : r.isEmpty = .ok (decide (ns = []))
  endIncl : ∀ n, ns.getLast? = some n → r.endIncl = .ok (.int n)
  length : Datum.spanLength r = Datum.reportable ns.length

/-- Whatever integers the bounds are, in order or crossed, the views agree on what lies between. -/
theorem hasElements_of_integer {r : Span Datum} {a b : Int} (ha : r.start.integer? = some a)
    (hb : r.endExcl.integer? = some b) : HasElements r (Datum.rangeTerms a b 1) where
  iterated := by rw [iterated_eq, ha, hb]
  listed := by
    rw [elements_span, iterated_eq, ha, hb]
    rfl
  ascending := Datum.pairwise_rangeTerms_one a b
  contains := by
    intro d n hd
    rw [contains_of_integer ha hb hd]
    simp only [Datum.mem_rangeTerms_one]
  isEmpty := by
    rw [isEmpty, Datum.isAtMost_of_integer hb ha]
    simp only [Datum.rangeTerms_one_eq_nil_iff]
  endIncl := by
    intro n hn
    -- a list with a last entry is not empty, and so the bounds are apart
    have hlt : a < b := by
      refine Int.not_le.mp fun hle => ?_
      rw [Datum.rangeTerms_one_eq_nil_iff.mpr hle] at hn
      cases hn
    rw [Datum.getLast?_rangeTerms_one hlt] at hn
    cases hn
    exact Datum.plus_of_integer hb (-1)
  length := by rw [spanLength_of_integer ha hb, Datum.length_rangeTerms_one]

/-- A converted span has the integers between its bounds for elements. -/
theorem hasElements_asData (r : Span Numeral) :
    HasElements r.asData (Datum.rangeTerms r.start.value r.endExcl.value 1) :=
  hasElements_of_integer rfl rfl

/-! ## Equal results -/

/-- An iteration yields the same each time. -/
theorem HasElements.unique {r : Span Datum} {ns ms : List Int} (h : HasElements r ns)
    (h' : HasElements r ms) : ns = ms :=
  Except.ok.inj (h.iterated.symm.trans h'.iterated)

/-- Spans that have the same elements, and have any, are equal. -/
theorem equal_of_hasElements {r s : Span Numeral} {ns : List Int} (hne : ns ≠ [])
    (hr : HasElements r.asData ns) (hs : HasElements s.asData ns) :
    r.asData.equal (.ofSpan s) = true := by
  obtain rfl := hr.unique r.hasElements_asData
  have hsame := hs.unique s.hasElements_asData
  exact (equal_iff r s).mpr (Datum.bounds_of_rangeTerms_one hsame hne)

/-! ## Conversion -/

/-- A datum spells the interval from `a` up to but not including `b`. -/
def Delimits (d : Datum) (a b : Int) : Prop :=
  ∃ r, Spells d r ∧ r.start.value = a ∧ r.endExcl.value = b

/-- What is known of a span that a datum is converted to.

* `ordered` : its bounds are positions in order.
* `idempotent` : it is converted to itself, under any name.
* `alike` : what spells the same interval is converted to an equal span, and nothing else is.
* `determined` : it is equal to every span with the same elements, if it has any.
* `elements` : its views agree. -/
structure Settled (r : Span Numeral) : Prop where
  ordered : r.InOrder
  idempotent : ∀ name, ofDatum (.ofSpan r) name = .ok r
  alike : ∀ d name, Delimits d r.start.value r.endExcl.value ↔
    ∃ s, ofDatum d name = .ok s ∧ r.asData.equal (.ofSpan s) = true
  determined : ∀ s ns, ns ≠ [] → HasElements r.asData ns → HasElements s.asData ns →
    r.asData.equal (.ofSpan s) = true
  elements : ∃ ns, HasElements r.asData ns

/-- What a datum is converted to is settled by the order of its bounds. -/
theorem settled_of_inOrder {r : Span Numeral} (h : r.InOrder) : Settled r where
  ordered := h
  idempotent := fun name => ofDatum_eq_ok_iff.mpr (.span h)
  alike := by
    intro d name
    constructor
    · rintro ⟨s, hs, hstart, hend⟩
      exact ⟨s, ofDatum_eq_ok_iff.mpr hs, (equal_iff r s).mpr ⟨hstart.symm, hend.symm⟩⟩
    · rintro ⟨s, hs, hequal⟩
      obtain ⟨hstart, hend⟩ := (equal_iff r s).mp hequal
      exact ⟨s, ofDatum_eq_ok_iff.mp hs, hstart.symm, hend.symm⟩
  determined := fun _ _ hne hr hs => equal_of_hasElements hne hr hs
  elements := ⟨_, r.hasElements_asData⟩

/-- Just the spellings of a span are converted, each to the span that it spells, and then all is
settled; whatever else the datum is, it is refused, if it is legible. -/
theorem ofDatum_settled (d : Datum) (name : String) :
    (∀ r, ofDatum d name = .ok r ↔ Spells d r) ∧
      ((∃ r, ofDatum d name = .ok r ∧ Settled r) ∨
        (∀ r, ¬ Spells d r) ∧ (ofDatum d name).IsRefused d.isLegible) := by
  refine ⟨fun r => ofDatum_eq_ok_iff, ?_⟩
  obtain ⟨r, hspells, hr⟩ | hnone := ofDatum_cases d name
  · exact .inl ⟨r, hr, settled_of_inOrder hspells.inOrder⟩
  · exact .inr hnone

end Elements

section Small

attribute [local instance] Memory.small

/-- A pair with a level for its lower bound spells the same as a plain range. -/
theorem ofDatum_settled_level :
    ∃ r, ofDatum (.tuple [.num (.level .debug), .int 5]) "size" = .ok r ∧
      (∃ s, ofDatum (.range 3 5 1) "bits" = .ok s ∧ r.asData.equal (.ofSpan s) = true) ∧
      HasElements r.asData [3, 4] := by
  obtain ⟨r, hr, hsettled⟩ | ⟨hnone, -⟩ :=
    (ofDatum_settled (.tuple [.num (.level .debug), .int 5]) "size").2
  · have hspells := ofDatum_eq_ok_iff.mp hr
    cases hspells with
    | pair h =>
        have hrange : Delimits (.range 3 5 1) 3 5 := ⟨_, .range (by decide), rfl, rfl⟩
        exact ⟨_, hr, (hsettled.alike _ "bits").mp hrange, hasElements_asData _⟩
  · exact absurd (.pair (by decide)) (hnone ⟨.level .debug, .plain 5⟩)

end Small

/-- A negative integer that is too long to be written out spells nothing, and it is not refused
either: there is no way to quote it. -/
theorem ofDatum_negative_of_long {n : Int} (hneg : n < 0) (hlong : Text.isShort n = false)
    (name : String) :
    (∀ r, ¬ Spells (.int n) r) ∧ ofDatum (.int n) name = .error .tooLong := by
  constructor
  · rintro r hr
    cases hr with
    | single h => exact absurd hneg (Int.not_lt.mpr h)
  · have hmute : (Refusal.negativeIndex name (.plain n)).quoted.all Datum.isLegible = false := by
      have hint : (Datum.num (.plain n)).isLegible = false := (Datum.isLegible_int n).trans hlong
      rw [Refusal.quoted, List.all_cons, hint, Bool.false_and]
    have hvalue : (Numeral.plain n).value < 0 := hneg
    show requireIndex (.num (.plain n)) name >>= _ = _
    rw [requireIndex_num, if_pos hvalue, refuse_eq_tooLong hmute]
    rfl

/-- Such an integer is the opposite of the least number that is too long. -/
theorem ofDatum_tooLong :
    (∀ r, ¬ Spells (.int (-Text.leastLong)) r) ∧
      ofDatum (.int (-Text.leastLong)) "size" = .error .tooLong := by
  have hneg : -(Text.leastLong : Int) < 0 := by
    have hword := Text.word_le_leastLong
    omega
  exact ofDatum_negative_of_long hneg Text.isShort_neg_leastLong "size"

end Span

end FlagSets
