import FlagSets.Proofs.Values
import FlagSets.ValueTree

/-!
# What a step of a value tree does

A tree over a value of its kind can do four things. At the floor `simplify` changes nothing. Past
the last set bit it moves the cursor to the end and forgets what could be undone. Otherwise it
clears the first set bit at or after the cursor, notes it, and moves the cursor behind it. And
`complicate` sets the noted bit again.

Each of them is one equation between states here, and every later argument about trees starts from
these equations instead of the steps.

## Main results

* `skipClear_run` : the scan over clear bits stops at the first listed bit, or at the end.
* `simplify_at_floor`, `simplify_at_end`, `simplify_at_bit` : the three outcomes of `simplify`.
* `complicate_noted` : `complicate` sets the noted bit again.
* `complicate_cleared` : right after a bit was cleared, this brings the value back as it was.
-/

namespace FlagSets.ValueTree

variable {k : Kind} {v : Datum} {c m : Numeral} {undo : Option Datum}

/-- The scan over clear bits stops at the first listed bit from the cursor on, or at the end. -/
theorem skipClear_run (hv : k.IsValue v) (undo : Option Datum) (floor : Datum) {steps : Nat}
    {c : Numeral} (hc : 0 ≤ c.value) (hsteps : k.capacity v - c.value.toNat ≤ steps) :
    ∃ d : Numeral,
      d.value = ((k.bitsFrom v c.value.toNat).headD (max c.value.toNat (k.capacity v)) : Nat) ∧
      (skipClear (k.capacity v) steps).run ⟨k, v, .num c, undo, floor⟩ =
        (.ok (), ⟨k, v, .num d, undo, floor⟩) := by
  induction steps generalizing c with
  | zero =>
      refine ⟨c, ?_, rfl⟩
      rw [Kind.bitsFrom_of_capacity_le (by omega), List.headD_nil]
      omega
  | succ steps ih =>
      unfold skipClear
      by_cases hlt : c.value < k.capacity v
      · have hless : (Datum.num c).isLess (.nat (k.capacity v)) = .ok true := by
          rw [Datum.isLess_nat]
          simp [hlt]
        cases hset : k.has v c.value.toNat with
        | true =>
            refine ⟨c, ?_, ?_⟩
            · rw [Kind.bitsFrom_of_has (by omega) hset, List.headD_cons]
              omega
            · simp [Step.run_bind, hless, hv.test_eq hc, hset]
        | false =>
            have hnext : 0 ≤ (Numeral.plain (c.value + 1)).value := by
              rw [Numeral.value_plain]
              omega
            have hpos : (c.value + 1).toNat = c.value.toNat + 1 := by omega
            obtain ⟨d, hd, hrun⟩ := ih hnext (by rw [Numeral.value_plain]; omega)
            refine ⟨d, ?_, ?_⟩
            · have hend : max (c.value.toNat + 1) (k.capacity v) =
                  max c.value.toNat (k.capacity v) := by omega
              rw [hd, Numeral.value_plain, hpos, Kind.bitsFrom_of_not_has hset, hend]
            · simp [Step.run_bind, hless, hv.test_eq hc, hset, Datum.int, hrun]
      · have hless : (Datum.num c).isLess (.nat (k.capacity v)) = .ok false := by
          rw [Datum.isLess_nat]
          simp [hlt]
        refine ⟨c, ?_, ?_⟩
        · rw [Kind.bitsFrom_of_capacity_le (by omega), List.headD_nil]
          omega
        · simp [Step.run_bind, hless]

/-- The scan is given enough steps to come to its end. -/
private theorem scan_run (hv : k.IsValue v) (undo : Option Datum) (floor : Datum)
    (hc : 0 ≤ c.value) :
    ∃ d : Numeral,
      d.value = ((k.bitsFrom v c.value.toNat).headD (max c.value.toNat (k.capacity v)) : Nat) ∧
      (skipClear (k.capacity v) ((k.capacity v : Int) - c.value).toNat).run
          ⟨k, v, .num c, undo, floor⟩ =
        (.ok (), ⟨k, v, .num d, undo, floor⟩) :=
  skipClear_run hv undo floor hc (by omega)

/-- At the floor nothing changes, and what could be undone still can. -/
theorem simplify_at_floor (hv : k.IsValue v) (cursor : Datum) (undo : Option Datum)
    (hcard : ((k.bitsOf v).card : Int) ≤ m.value) :
    simplify.run ⟨k, v, cursor, undo, .num m⟩ = (.ok false, ⟨k, v, cursor, undo, .num m⟩) := by
  simp [simplify, Step.run_bind, hv.count_eq, Datum.nat_isAtMost, hcard]

/-- Past the last set bit the cursor moves to the end, and nothing can be undone any more. -/
theorem simplify_at_end (hv : k.IsValue v) (undo : Option Datum) (hc : 0 ≤ c.value)
    (hcard : m.value < (k.bitsOf v).card) (hnil : k.bitsFrom v c.value.toNat = []) :
    ∃ d : Numeral, d.value = (max c.value.toNat (k.capacity v) : Nat) ∧
      simplify.run ⟨k, v, .num c, undo, .num m⟩ = (.ok false, ⟨k, v, .num d, none, .num m⟩) := by
  obtain ⟨d, hd, hrun⟩ := scan_run hv undo (.num m) hc
  rw [hnil, List.headD_nil] at hd
  have hless : (Datum.num d).isLess (.nat (k.capacity v)) = .ok false := by
    rw [Datum.isLess_nat, hd]
    simp
  refine ⟨d, hd, ?_⟩
  simp [simplify, Step.run_bind, hv.count_eq, Datum.nat_isAtMost, Int.not_le.mpr hcard,
    hv.length_eq, hrun, hless, Except.map]

/-- Above the floor the first set bit at or after the cursor is cleared and noted. -/
theorem simplify_at_bit (hv : k.IsValue v) (undo : Option Datum) (hc : 0 ≤ c.value)
    (hcard : m.value < (k.bitsOf v).card) {b : Nat} {rest : List Nat}
    (hcons : k.bitsFrom v c.value.toNat = b :: rest) :
    ∃ d : Numeral, d.value = b ∧
      simplify.run ⟨k, v, .num c, undo, .num m⟩ =
        (.ok true, ⟨k, k.without v b, .int (b + 1), some (.num d), .num m⟩) := by
  obtain ⟨d, hd, hrun⟩ := scan_run hv undo (.num m) hc
  rw [hcons, List.headD_cons] at hd
  have hb : b < k.capacity v := by
    have hmem : b ∈ k.bitsFrom v c.value.toNat := by
      rw [hcons]
      exact List.mem_cons_self
    exact hv.lt_capacity (hv.mem_bitsFrom.mp hmem).2
  have hless : (Datum.num d).isLess (.nat (k.capacity v)) = .ok true := by
    rw [Datum.isLess_nat, hd]
    simp [hb]
  have hclear : k.clear v (.num d) = .ok (k.without v b) := by
    rw [hv.clear_eq (by omega), hd, Int.toNat_natCast]
  refine ⟨d, hd, ?_⟩
  simp [simplify, Step.run_bind, hv.count_eq, Datum.nat_isAtMost, Int.not_le.mpr hcard,
    hv.length_eq, hrun, hless, hclear, hd, Except.map]

variable [Memory]

/-- A noted bit is set again, and forgotten. -/
theorem complicate_noted (hv : k.IsValue v) (cursor floor : Datum) {d : Numeral}
    (hd : 0 ≤ d.value) (hlt : d.value < k.capacity v) :
    complicate.run ⟨k, v, cursor, some (.num d), floor⟩ =
      (.ok true, ⟨k, k.adding v d.value.toNat, cursor, none, floor⟩) := by
  simp [complicate, Step.run_bind, hv.set_eq hd hlt, Except.map]

/-- Right after a bit was cleared, the value comes back as it was, and not only its bits. -/
theorem complicate_cleared (hv : k.IsValue v) (hplain : v.plain = v) {b : Nat}
    (hset : k.has v b = true) (cursor floor : Datum) {d : Numeral} (hd : d.value = b) :
    complicate.run ⟨k, k.without v b, cursor, some (.num d), floor⟩ =
      (.ok true, ⟨k, v, cursor, none, floor⟩) := by
  have hlt := hv.lt_capacity hset
  have hroom : d.value < k.capacity (k.without v b) := by
    rw [hv.capacity_without]
    omega
  rw [complicate_noted (hv.without b) cursor floor (by omega) hroom, hd, Int.toNat_natCast,
    hv.adding_without hset, hplain]

end FlagSets.ValueTree
