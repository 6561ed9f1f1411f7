import FlagSets.Proofs.PlainSearch

/-!
# Minimal examples

A condition is upward closed when it goes on to hold as bits are added. For such a condition the
single pass over the bits is enough: a bit that could not be left out of a larger value cannot be
left out of a smaller one either, so that no bit has to be tried twice.

The pass ends for one of two reasons. At its end every bit of the value has been tried and found
needed. At the floor some may be untried, but whatever is left out goes below the floor. The budget
of shrinks never ends it early if it covers the bits of the first example.

## Main results

* `walk_minimal` : what the pass ends with has no smaller set above the floor.
* `find_minimal` : nor has what a search finds.
-/

namespace FlagSets

namespace Plain

variable {k : Kind} {query : Query} {least limit : Int} {P : Finset Nat → Bool}

private theorem eq_false_of_subset (hup : ∀ S T, S ⊆ T → P S = true → P T = true)
    {S T : Finset Nat} (hsub : S ⊆ T) (hT : P T = false) : P S = false := by
  rw [Bool.eq_false_iff]
  intro hS
  rw [hup S T hsub hS] at hT
  cases hT

/-- Of an upward closed condition, if no single bit can be left out, no set of bits can. -/
private theorem false_of_ssubset (hup : ∀ S T, S ⊆ T → P S = true → P T = true) {S T : Finset Nat}
    (hneeded : ∀ b ∈ S, P (S.erase b) = false) (hT : T ⊂ S) : P T = false := by
  obtain ⟨b, hb, hnot⟩ := Finset.exists_of_ssubset hT
  have hsub : T ⊆ S.erase b := by
    intro i hi
    refine Finset.mem_erase.mpr ⟨?_, hT.subset hi⟩
    rintro rfl
    exact hnot hi
  exact eq_false_of_subset hup hsub (hneeded b hb)

/-- The pass leaves a minimal set, if the bits before those yet to be tried are all needed and there
is a shrink left for each of the others. -/
theorem walk_minimal (hup : ∀ S T, S ⊆ T → P S = true → P T = true)
    (hquery : ∀ v, k.IsValue v → query.holds v = .ok (P (k.bitsOf v))) {v : Datum}
    (hv : k.IsValue v) (hholds : P (k.bitsOf v) = true) {bits : List Nat} {kept : Nat}
    (hneeded : ∀ b ∈ k.bitsOf v, b ∉ bits → P ((k.bitsOf v).erase b) = false)
    (hbudget : (kept : Int) + bits.length ≤ limit) {r : Datum}
    (hr : (walk k query least limit bits kept v).2 = .ok r) :
    P (k.bitsOf r) = true ∧ ∀ T ⊂ k.bitsOf r, least ≤ T.card → P T = false := by
  induction bits generalizing v kept with
  | nil =>
      cases hr
      refine ⟨hholds, ?_⟩
      intro T hT _
      exact false_of_ssubset hup (fun b hb => hneeded b hb List.not_mem_nil) hT
  | cons b rest ih =>
      rw [List.length_cons] at hbudget
      rw [walk] at hr
      split at hr
      · -- the floor is reached: a smaller set lies below it
        rename_i hstop
        have hfloor : ((k.bitsOf v).card : Int) ≤ least := by omega
        cases hr
        refine ⟨hholds, ?_⟩
        intro T hT hleast
        have hless := Finset.card_lt_card hT
        omega
      · rw [hquery _ (hv.without b), hv.bitsOf_without] at hr
        cases hwithout : P ((k.bitsOf v).erase b) with
        | true =>
            rw [hwithout] at hr
            have hstill : P (k.bitsOf (k.without v b)) = true := by
              rw [hv.bitsOf_without, hwithout]
            refine ih (hv.without b) hstill ?_ (by push_cast; omega) hr
            intro i hi hnot
            rw [hv.bitsOf_without] at hi ⊢
            obtain ⟨hne, hmem⟩ := Finset.mem_erase.mp hi
            exact eq_false_of_subset hup (Finset.erase_subset_erase i (Finset.erase_subset b _))
              (hneeded i hmem (List.not_mem_cons_of_ne_of_not_mem hne hnot))
        | false =>
            rw [hwithout] at hr
            refine ih hv hholds ?_ (by omega) hr
            intro i hi hnot
            by_cases hib : i = b
            · rw [hib]
              exact hwithout
            · exact hneeded i hi (List.not_mem_cons_of_ne_of_not_mem hib hnot)

/-- The plain search leaves a minimal set, if the budget covers the first example. -/
theorem search_minimal [Memory] (hk : k.IsStandard) {s : Strategy} (hs : s.WellFormed k)
    (hup : ∀ S T, S ⊆ T → P S = true → P T = true)
    (hquery : ∀ v, k.IsValue v → query.holds v = .ok (P (k.bitsOf v))) {attempts : Nat}
    {source : Source} {first r : Datum}
    (hfirst : (search k s query limit attempts source).asked.find? (fun v => P (k.bitsOf v)) =
      some first)
    (hbudget : ((k.bitsOf first).card : Int) ≤ limit)
    (hr : (search k s query limit attempts source).result = .ok r) :
    P (k.bitsOf r) = true ∧ ∀ T ⊂ k.bitsOf r, s.floor ≤ T.card → P T = false := by
  induction attempts generalizing source with
  | zero => cases hr
  | succ attempts ih =>
      rcases hrun : s.value.run source with ⟨fault | v, left⟩
      · rw [search, hrun] at hr
        cases hr
      have hv := ((Strategy.value_returns hk hs).of_run hrun).isValue hk hs
      cases hholds : P (k.bitsOf v) with
      | true =>
          rw [search_of_holds hrun ((hquery v hv).trans (congrArg _ hholds))] at hfirst hr
          dsimp only at hfirst hr
          rw [List.find?_cons_of_pos (p := fun u => P (k.bitsOf u)) hholds] at hfirst
          cases hfirst
          refine walk_minimal hup hquery hv hholds ?_ ?_ hr
          · intro b hb hnot
            exact absurd (List.mem_toFinset.mp hb) hnot
          · rw [k.length_bitsFrom]
            omega
      | false =>
          rw [search_of_not_holds hrun ((hquery v hv).trans (congrArg _ hholds))] at hfirst hr
          dsimp only at hfirst hr
          rw [List.find?_cons_of_neg (p := fun u => P (k.bitsOf u))
            (by rw [hholds]; exact Bool.false_ne_true)] at hfirst
          exact ih hfirst hr

end Plain

/-- What a search returns for an upward closed condition is minimal: the condition holds of its
bits, and of no fewer of them that the floor allows. -/
theorem find_minimal [Memory] {k : Kind} (hk : k.IsStandard) {s : Strategy} (hs : s.MadeOver k)
    {query : Query} {P : Finset Nat → Bool} (hup : ∀ S T, S ⊆ T → P S = true → P T = true)
    (hquery : ∀ v, k.IsValue v → query.holds v = .ok (P (k.bitsOf v))) {inForce : Settings}
    {given : Option Settings} {limit : Int}
    (hlimit : (given.getD inForce).maxShrinks.integer? = some limit) {supply : Source.Supply}
    {first r : Datum}
    (hfirst : (find (.strategy s) query inForce given supply).asked.find?
      (fun v => P (k.bitsOf v)) = some first)
    (hbudget : ((k.bitsOf first).card : Int) ≤ limit)
    (hr : (find (.strategy s) query inForce given supply).result = .ok r) :
    P (k.bitsOf r) = true ∧ ∀ T ⊂ k.bitsOf r, s.floor ≤ T.card → P T = false := by
  cases hsource : supply.wrap with
  | error fault =>
      unfold find at hr
      rw [hsource] at hr
      cases hr
  | ok source =>
      have hwf := hs.wellFormed hk
      obtain ⟨hresult, hasked, -⟩ := find_eq_search hk hwf query inForce given hsource
      rw [Search.budget_eq hlimit] at hresult hasked
      rw [hasked] at hfirst
      rw [hresult] at hr
      exact Plain.search_minimal hk hwf hup hquery hfirst hbudget hr

attribute [local instance] Memory.small

/-- A search among bytes with one to four of the lowest six bits, for two bits in particular. The
two others that were drawn are left out, and neither of the two can be. -/
theorem find_two_bits :
    let P : Finset Nat → Bool := fun S => decide (1 ∈ S) && decide (2 ∈ S)
    let query : Query := ⟨"pair", fun v => .ok (P ((Kind.word .u8).bitsOf v))⟩
    ∃ s, Strategy.ofSize (.kind (.word .u8)) (.tuple [.int 1, .int 5]) (.range 0 6 1) = .ok s ∧
      let found := find (.strategy s) query .plain none (.source (.tape [3, 0, 1, 2, 1]))
      found.asked.find? (fun v => P ((Kind.word .u8).bitsOf v)) = some (.int 23) ∧
        found.result = .ok (.int 6) ∧
        ∀ T ⊂ (Kind.word .u8).bitsOf (.int 6), s.floor ≤ T.card → P T = false := by
  intro P query
  have hk : (Kind.word .u8).IsStandard := trivial
  have hmade : Strategy.ofSize (.kind (.word .u8)) (.tuple [.int 1, .int 5]) (.range 0 6 1) =
      .ok (.sampled (.word .u8) ⟨.plain 1, .plain 5⟩ ⟨.plain 0, .plain 6⟩) := rfl
  have hup : ∀ S T, S ⊆ T → P S = true → P T = true := by
    intro S T hST hS
    obtain ⟨hone, htwo⟩ := Bool.and_eq_true_iff.mp hS
    exact Bool.and_eq_true_iff.mpr ⟨decide_eq_true (hST (of_decide_eq_true hone)),
      decide_eq_true (hST (of_decide_eq_true htwo))⟩
  have hlimit : (Option.getD none Settings.plain).maxShrinks.integer? = some 500 := rfl
  have hsource : (Source.Supply.source (.tape [3, 0, 1, 2, 1])).wrap =
      .ok (.tape [3, 0, 1, 2, 1]) := rfl
  obtain ⟨hresult, hasked, -⟩ := find_eq_search hk ((Strategy.MadeOver.ofSize hmade).wellFormed hk)
    query .plain none hsource
  have hfirst := (congrArg (List.find? fun v => P ((Kind.word .u8).bitsOf v)) hasked).trans
    (show _ = some (Datum.int 23) from rfl)
  have hreturned := hresult.trans (show _ = Except.ok (Datum.int 6) from rfl)
  have hbudget : (((Kind.word .u8).bitsOf (.int 23)).card : Int) ≤ 500 := by decide
  obtain ⟨-, hminimal⟩ := find_minimal hk (.ofSize hmade) hup (fun _ _ => rfl) hlimit hfirst
    hbudget hreturned
  exact ⟨_, hmade, hfirst, hreturned, hminimal⟩

end FlagSets
