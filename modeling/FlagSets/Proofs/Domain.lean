import FlagSets.Proofs.PlainSearch

/-!
# Searches keep to their strategy

Whatever the condition answers, a search asks it about admitted values only, and what it returns is
admitted and satisfies the condition. Clearing a bit above the floor is the one step by which a
value ever changes, and it keeps to the strategy. A value that the pass over bits goes on with is
one of which the condition was found to hold.

## Main results

* `walk_invariant` : what clearing a bit above the least number preserves, the whole pass preserves.
* `find_admits` : a search neither asks about nor returns anything that its strategy does not admit.
-/

namespace FlagSets

namespace Plain

variable {k : Kind} {query : Query} {least limit : Int} {v : Datum}

/-- What clearing a set bit above the least number preserves holds of every value asked about on the
way, and of the one that is left. -/
theorem walk_invariant (query : Query) (limit : Int) {I : Datum → Prop}
    (hvalue : ∀ v, I v → k.IsValue v)
    (hstep : ∀ v b, I v → b ∈ k.bitsOf v → least < (k.bitsOf v).card → I (k.without v b))
    {bits : List Nat} (hdistinct : bits.Nodup) (hbits : ∀ b ∈ bits, b ∈ k.bitsOf v) (kept : Nat)
    (hv : I v) :
    let walked := walk k query least limit bits kept v
    (∀ u ∈ walked.1, I u) ∧ ∀ r, walked.2 = .ok r → I r := by
  induction bits generalizing v kept with
  | nil =>
      refine ⟨by simp [walk], ?_⟩
      intro r hr
      cases hr
      exact hv
  | cons b rest ih =>
      intro walked
      obtain ⟨hnot, hrest⟩ := List.nodup_cons.mp hdistinct
      have hbehind : ∀ i ∈ rest, i ∈ k.bitsOf v := fun i hi => hbits i (List.mem_cons_of_mem b hi)
      unfold walked
      by_cases hstop : limit ≤ kept ∨ ((k.bitsOf v).card : Int) ≤ least
      · rw [walk_of_stop hstop]
        refine ⟨by simp, ?_⟩
        intro r hr
        cases hr
        exact hv
      have habove : least < (k.bitsOf v).card := Int.not_le.mp (not_or.mp hstop).2
      have hcleared := hstep v b hv (hbits b List.mem_cons_self) habove
      rw [walk, if_neg hstop]
      cases query.holds (k.without v b) with
      | error fault =>
          refine ⟨?_, by simp⟩
          intro u hu
          rwa [List.mem_singleton.mp hu]
      | ok holds =>
          cases holds with
          | true =>
              have hleft : ∀ i ∈ rest, i ∈ k.bitsOf (k.without v b) := by
                intro i hi
                rw [(hvalue v hv).bitsOf_without]
                refine Finset.mem_erase.mpr ⟨?_, hbehind i hi⟩
                rintro rfl
                exact hnot hi
              obtain ⟨hasked, hresult⟩ := ih hrest hleft (kept + 1) hcleared
              exact ⟨List.forall_mem_cons.mpr ⟨hcleared, hasked⟩, hresult⟩
          | false =>
              obtain ⟨hasked, hresult⟩ := ih hrest hbehind kept hv
              exact ⟨List.forall_mem_cons.mpr ⟨hcleared, hasked⟩, hresult⟩

/-- The condition holds of the value that is left if it holds of the one to begin with. -/
theorem walk_holds (bits : List Nat) (kept : Nat) (hv : query.holds v = .ok true) {r : Datum}
    (hr : (walk k query least limit bits kept v).2 = .ok r) : query.holds r = .ok true := by
  induction bits generalizing v kept with
  | nil =>
      cases hr
      exact hv
  | cons b rest ih =>
      rw [walk] at hr
      split at hr
      · cases hr
        exact hv
      · cases hcleared : query.holds (k.without v b) with
        | error fault =>
            rw [hcleared] at hr
            cases hr
        | ok holds =>
            rw [hcleared] at hr
            cases holds with
            | true => exact ih (kept + 1) hcleared hr
            | false => exact ih kept hv hr

/-- The plain search asks about admitted values and returns one that satisfies the condition. -/
theorem search_admits [Memory] (hk : k.IsStandard) {s : Strategy} (hs : s.WellFormed k)
    (attempts : Nat) (source : Source) :
    let searched := search k s query limit attempts source
    (∀ v ∈ searched.asked, s.Admits v) ∧
      ∀ r, searched.result = .ok r → s.Admits r ∧ query.holds r = .ok true := by
  induction attempts generalizing source with
  | zero => exact ⟨by simp [search], by simp [search]⟩
  | succ attempts ih =>
      intro searched
      unfold searched
      rcases hrun : s.value.run source with ⟨fault | v, left⟩
      · rw [search, hrun]
        exact ⟨by simp, by simp⟩
      have hv := (Strategy.value_returns hk hs).of_run hrun
      cases hholds : query.holds v with
      | error fault =>
          rw [search_of_fault hrun hholds]
          refine ⟨?_, by simp⟩
          intro u hu
          rwa [List.mem_singleton.mp hu]
      | ok holds =>
          cases holds with
          | true =>
              rw [search_of_holds hrun hholds]
              obtain ⟨hasked, hresult⟩ := walk_invariant query limit (I := s.Admits)
                (fun _ hu => hu.isValue hk hs)
                (fun _ _ hu hb hcard => hu.without hk hs hb hcard) (k.nodup_bitsFrom v 0)
                (fun _ hb => List.mem_toFinset.mpr hb) 0 hv
              refine ⟨List.forall_mem_cons.mpr ⟨hv, hasked⟩, ?_⟩
              intro r hr
              exact ⟨hresult r hr, walk_holds _ 0 hholds hr⟩
          | false =>
              rw [search_of_not_holds hrun hholds]
              obtain ⟨hasked, hresult⟩ := ih left
              exact ⟨List.forall_mem_cons.mpr ⟨hv, hasked⟩, hresult⟩

end Plain

/-- Every value that a search asks its condition about is admitted by the strategy. What it returns
is so too, and satisfies the condition. -/
theorem find_admits [Memory] {k : Kind} (hk : k.IsStandard) {s : Strategy} (hs : s.MadeOver k)
    (query : Query) (inForce : Settings) (given : Option Settings) (supply : Source.Supply) :
    let found := find (.strategy s) query inForce given supply
    (∀ v ∈ found.asked, s.Admits v) ∧
      ∀ r, found.result = .ok r → s.Admits r ∧ query.holds r = .ok true := by
  intro found
  cases hsource : supply.wrap with
  | error fault =>
      unfold found find
      rw [hsource]
      exact ⟨by simp, by simp⟩
  | ok source =>
      have hwf := hs.wellFormed hk
      obtain ⟨hresult, hasked, -⟩ := find_eq_search hk hwf query inForce given hsource
      unfold found
      rw [hresult, hasked]
      exact Plain.search_admits hk hwf _ source

attribute [local instance] Memory.small

/-- A search among growable sets of two or three bits. The lowest bit cannot be left out and is put
back, the next one can, and then the floor ends the search. -/
theorem find_growable_pair :
    let set (bits : List Bool) : Datum := .varSet ⟨.bitArray, bits⟩
    let query : Query := ⟨"one", fun v => .ok ((Kind.varsize .bitArray).has v 1)⟩
    ∃ s, Strategy.ofSize (.kind (.varsize .bitArray)) (.range 2 4 1) (.range 1 5 1) = .ok s ∧
      let found := find (.strategy s) query .plain none (.source (.tape [1, 0, 2, 1]))
      found.asked = [set [false, true, true, true, false], set [false, false, true, true, false],
          set [false, true, false, true, false]] ∧
        (∀ v ∈ found.asked, s.Admits v) ∧
        found.result = .ok (set [false, true, false, true, false]) ∧
        s.Admits (set [false, true, false, true, false]) := by
  intro set query
  have hmade : Strategy.ofSize (.kind (.varsize .bitArray)) (.range 2 4 1) (.range 1 5 1) =
      .ok (.sampled (.varsize .bitArray) ⟨.plain 2, .plain 4⟩ ⟨.plain 1, .plain 5⟩) := rfl
  obtain ⟨hasked, hresult⟩ := find_admits (k := .varsize .bitArray) (.inr rfl) (.ofSize hmade)
    query .plain none (.source (.tape [1, 0, 2, 1]))
  exact ⟨_, hmade, rfl, hasked, rfl, (hresult _ rfl).1⟩

end FlagSets
