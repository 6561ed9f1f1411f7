import FlagSets.Proofs.Refusals
import FlagSets.Span

/-!
# What spells a span

A span is spelled by a span, by a range with step one, by a pair of bounds, or by a single position,
which stands for itself alone. The bounds are integers in order, none of them is negative, and a
boolean is no integer. Everything else is refused, whatever it is: no check that a datum meets on
the way fails in another manner, unless an integer that was handed over is too long for the refusal
to be worded.

## Main results

* `Span.ofDatum_eq_ok_iff` : exactly the spellings are converted, each to the span it spells.
* `Span.ofDatum_cases` : whatever spells none is refused.
-/

namespace FlagSets

open Outcome

/-! ## The checks -/

theorem requireInteger_failsOnly (d : Datum) (name : String) :
    (requireInteger d name).FailsOnly (Fault.IsRefusal d.isLegible) := by
  cases d with
  | num n => exact .ok n
  | _ => exact .refuse _ (by simp [Refusal.quoted])

theorem requireIndex_failsOnly (d : Datum) (name : String) :
    (requireIndex d name).FailsOnly (Fault.IsRefusal d.isLegible) := by
  apply FailsOnly.bind (requireInteger_failsOnly d name)
  intro n hn
  rw [requireInteger_eq_ok_iff.mp hn]
  split
  · exact .refuse _ (by simp [Refusal.quoted])
  · exact .ok n

theorem requireOrdered_failsOnly (lower upper : Numeral) (lowerName upperName : String) :
    (requireOrdered (.num lower) (.num upper) lowerName upperName).FailsOnly
      (Fault.IsRefusal ((Datum.num lower).isLegible ∧ (Datum.num upper).isLegible)) := by
  rw [requireOrdered_num]
  split
  · exact .refuse _ (by simp +contextual [Refusal.quoted])
  · exact .ok ()

theorem requireWidth_failsOnly (k : Kind) (n : Numeral) (name : String) :
    (requireWidth k (.num n) name).FailsOnly
      (Fault.IsRefusal ((Datum.num n).isLegible ∧ ∀ w, k.width? = some w → Text.isShort w)) := by
  rw [requireWidth_num]
  cases k.width? with
  | none => exact .ok ()
  | some width =>
      dsimp only
      split
      · exact .refuse _ (by simp +contextual [Refusal.quoted, Datum.isLegible_nat])
      · exact .ok ()

namespace Span

/-- Two bounds are positions in order. -/
def InOrder (r : Span Numeral) : Prop :=
  0 ≤ r.start.value ∧ r.start.value ≤ r.endExcl.value

instance (r : Span Numeral) : Decidable r.InOrder :=
  inferInstanceAs (Decidable (0 ≤ r.start.value ∧ r.start.value ≤ r.endExcl.value))

/-- What spells a span. -/
inductive Spells : Datum → Span Numeral → Prop
  | span {r : Span Numeral} (h : r.InOrder) : Spells (.ofSpan r) r
  | range {a b : Int} (h : InOrder ⟨.plain a, .plain b⟩) :
      Spells (.range a b 1) ⟨.plain a, .plain b⟩
  | pair {a b : Numeral} (h : InOrder ⟨a, b⟩) : Spells (.tuple [.num a, .num b]) ⟨a, b⟩
  | single {n : Numeral} (h : 0 ≤ n.value) : Spells (.num n) ⟨n, .plain (n.value + 1)⟩

/-- Any two bounds are accepted or refused. -/
theorem ofBounds_failsOnly (start endExcl : Datum) (name : String) :
    (ofBounds start endExcl name).FailsOnly
      (Fault.IsRefusal (start.isLegible ∧ endExcl.isLegible)) := by
  apply FailsOnly.bind ((requireIndex_failsOnly start _).mono fun _ h => h.mono And.left)
  intro low hlow
  apply FailsOnly.bind ((requireIndex_failsOnly endExcl _).mono fun _ h => h.mono And.right)
  intro high hhigh
  obtain ⟨rfl, -⟩ := requireIndex_eq_ok_iff.mp hlow
  obtain ⟨rfl, -⟩ := requireIndex_eq_ok_iff.mp hhigh
  exact FailsOnly.bind (requireOrdered_failsOnly low high _ _) fun _ _ => .ok _

/-- Any datum is converted to a span or refused. -/
theorem ofDatum_failsOnly (d : Datum) (name : String) :
    (ofDatum d name).FailsOnly (Fault.IsRefusal d.isLegible) := by
  unfold ofDatum
  split
  · exact (ofBounds_failsOnly _ _ name).mono fun _ h => h.mono (by simp [Datum.isLegible])
  · split
    · refine (ofBounds_failsOnly _ _ name).mono fun _ h => h.mono ?_
      simp +contextual [Datum.isLegible, Datum.isLegible_int]
    · exact .refuse _ (by simp [Refusal.quoted])
  · refine (ofBounds_failsOnly _ _ name).mono fun _ h => h.mono ?_
    simp [Datum.isLegible, Datum.areLegible]
  · exact .refuse _ (by simp [Refusal.quoted])
  · exact FailsOnly.bind (requireIndex_failsOnly _ name) fun _ _ => .ok _

/-- Exactly the spellings of a span are converted to it. -/
theorem ofDatum_eq_ok_iff {d : Datum} {name : String} {r : Span Numeral} :
    ofDatum d name = .ok r ↔ Spells d r := by
  constructor
  · intro h
    unfold ofDatum at h
    split at h
    · obtain ⟨rfl, rfl, hr⟩ := ofBounds_eq_ok h
      exact .span hr
    · rename_i start stop step
      split at h
      · rename_i hstep
        obtain ⟨hstart, hstop, hr⟩ := ofBounds_eq_ok h
        obtain ⟨low, high⟩ := r
        cases hstart
        cases hstop
        exact hstep ▸ .range hr
      · cases h
    · obtain ⟨rfl, rfl, hr⟩ := ofBounds_eq_ok h
      exact .pair hr
    · cases h
    · obtain ⟨n, hn, hmade⟩ := Outcome.bind_eq_ok_iff.mp h
      obtain ⟨rfl, hpos⟩ := requireIndex_eq_ok_iff.mp hn
      cases hmade
      exact .single hpos
  · intro h
    cases h with
    | span h => exact ofBounds_num h.1 h.2 name
    | range h => exact ofBounds_num h.1 h.2 name
    | pair h => exact ofBounds_num h.1 h.2 name
    | single h => exact ofDatum_num h name

/-- A datum spells a span and is converted to it, or spells none and is refused. -/
theorem ofDatum_cases (d : Datum) (name : String) :
    (∃ r, Spells d r ∧ ofDatum d name = .ok r) ∨
      (∀ r, ¬ Spells d r) ∧ (ofDatum d name).IsRefused d.isLegible := by
  obtain ⟨r, hr⟩ | hrefused := (ofDatum_failsOnly d name).ok_or_refused
  · exact .inl ⟨r, ofDatum_eq_ok_iff.mp hr, hr⟩
  · exact .inr ⟨fun r hr => hrefused.ne_ok r (ofDatum_eq_ok_iff.mpr hr), hrefused⟩

/-- The bounds of a spelled span are in order, and neither is negative. -/
theorem Spells.inOrder {d : Datum} {r : Span Numeral} (h : Spells d r) : r.InOrder := by
  cases h with
  | span h => exact h
  | range h => exact h
  | pair h => exact h
  | single h => exact ⟨h, Int.le_of_lt (Int.lt_succ _)⟩

/-- A datum spells one span at most. -/
theorem Spells.unique {d : Datum} {r₁ r₂ : Span Numeral} (h₁ : Spells d r₁) (h₂ : Spells d r₂) :
    r₁ = r₂ := by
  have hfirst : ofDatum d "" = .ok r₁ := ofDatum_eq_ok_iff.mpr h₁
  have hsecond : ofDatum d "" = .ok r₂ := ofDatum_eq_ok_iff.mpr h₂
  exact Except.ok.inj (hfirst.symm.trans hsecond)

end Span

end FlagSets
