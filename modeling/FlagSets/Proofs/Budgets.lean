import FlagSets.Proofs.Narration

/-!
# Larger budgets

A search has two budgets: how many values it draws, and how many shrinks it keeps. Neither takes
part in any decision before it is used up, so that a search with a larger one begins as the search
with the smaller one does, and goes on from where that one has stopped.

For the draws this means that the search with the smaller budget either is the whole of the other
one, or has found nothing. For the shrinks it stops at a value which the longer pass over the bits
merely comes by: from there on the same pass continues with the bits that are left, and can keep no
more shrinks than the budgets differ by. The budget counts kept shrinks only, whatever was rejected
between them, and so does the account of the values that the condition has accepted.

## Main results

* `counter_eq_kept` : the count that the loop keeps is the number of accepted values.
* `search_attempts` : with fewer draws a search is the same one, or finds no example.
* `walk_continues` : with fewer shrinks the pass is the same one, or stops where the longer one goes
  on.
* `find_monotone` : what larger budgets make of a search.
-/

namespace FlagSets

/-- How many shrinks were kept, by the values the condition was asked about: the first one of which
it holds is the example, and each further one is a shrink. -/
def Query.kept (query : Query) (asked : List Datum) : Nat := asked.countP query.accepts - 1

namespace Query

variable {query : Query} {v : Datum} {before after : List Datum}

/-- The values before the example are not counted, nor is the example. -/
theorem kept_append (hbefore : ∀ u ∈ before, query.accepts u = false)
    (hv : query.accepts v = true) :
    query.kept (before ++ v :: after) = after.countP query.accepts := by
  have hnone : before.countP query.accepts = 0 :=
    List.countP_eq_zero.mpr fun u hu => Bool.eq_false_iff.mp (hbefore u hu)
  rw [kept, List.countP_append, hnone, List.countP_cons_of_pos hv]
  omega

end Query

namespace Search

/-- The count that the loop over a tree keeps is the number of shrinks by the values that were asked
about. -/
theorem counter_eq_kept [Memory] {k : Kind} (hk : k.IsStandard) {s : Strategy} (hs : s.WellFormed k)
    (query : Query) (limit : Int) {attempts : Nat} {source : Source} {tree last : ValueTree}
    {n : Nat} (htree : (generate s query attempts source).1.result = .ok tree)
    (hshrunk : (shrink query limit (tree.measure + 1) 0 tree).result = .ok (last, n)) :
    n = query.kept ((generate s query attempts source).1.asked ++
      (shrink query limit (tree.measure + 1) 0 tree).asked) := by
  obtain ⟨-, hholds, before, hasked, hbefore⟩ :=
    (generate_draws query hk hs attempts source).2 tree htree
  have hn := (shrink_messages query limit (tree.measure + 1) 0 tree).2 last n hshrunk
  rw [hasked, List.append_assoc, List.singleton_append,
    Query.kept_append (fun u hu => Query.accepts_of_holds (hbefore u hu))
      (Query.accepts_of_holds hholds), List.countP_eq_length_filter, hn, Nat.zero_add]

end Search

namespace Plain

variable {k : Kind} {s : Strategy} {query : Query} {least limit larger : Int}

/-! ## The number of draws -/

/-- With fewer draws a search is the same one, or finds no example. -/
theorem search_attempts [Memory] (k : Kind) (s : Strategy) (query : Query) (limit : Int)
    {attempts more : Nat} (hle : attempts ≤ more) (source : Source) :
    search k s query limit attempts source = search k s query limit more source ∨
      (search k s query limit attempts source).result =
        .error (.noExample (.text query.name) (.text "")) := by
  induction attempts generalizing more source with
  | zero => exact .inr rfl
  | succ attempts ih =>
      obtain ⟨more, rfl⟩ := Nat.exists_eq_succ_of_ne_zero (Nat.ne_zero_of_lt hle)
      rcases hrun : s.value.run source with ⟨fault | v, left⟩
      · left
        rw [search, search, hrun]
      cases hholds : query.holds v with
      | error fault =>
          left
          rw [search_of_fault hrun hholds, search_of_fault hrun hholds]
      | ok holds =>
          cases holds with
          | true =>
              left
              rw [search_of_holds hrun hholds, search_of_holds hrun hholds]
          | false =>
              -- both searches have one draw less, and go on from the same source
              rw [search_of_not_holds hrun hholds, search_of_not_holds hrun hholds]
              rcases ih (Nat.le_of_succ_le_succ hle) left with hsame | hnone
              · left
                rw [hsame]
              · exact .inr hnone

/-- The draws are the same whatever the budget for shrinks is. They end without an example, or with
a value of which the condition holds first, and then the pass over its bits follows. -/
theorem search_splits [Memory] (hk : k.IsStandard) (hs : s.WellFormed k) (query : Query)
    (attempts : Nat) (source : Source) :
    (∃ asked fault left, ∀ limit,
      search k s query limit attempts source = ⟨asked, .error fault, left⟩) ∨
    ∃ before v left, (∀ u ∈ before, query.accepts u = false) ∧ query.accepts v = true ∧
      k.IsValue v ∧ ∀ limit,
        let walked := walk k query s.floor limit (k.bitsFrom v 0) 0 v
        search k s query limit attempts source = ⟨before ++ v :: walked.1, walked.2, left⟩ := by
  induction attempts generalizing source with
  | zero => exact .inl ⟨[], _, source, fun _ => rfl⟩
  | succ attempts ih =>
      rcases hrun : s.value.run source with ⟨fault | v, left⟩
      · refine .inl ⟨[], fault, left, fun limit => ?_⟩
        rw [search, hrun]
      have hv := ((Strategy.value_returns hk hs).of_run hrun).isValue hk hs
      cases hholds : query.holds v with
      | error fault => exact .inl ⟨[v], fault, left, fun _ => search_of_fault hrun hholds attempts⟩
      | ok holds =>
          have haccepts := Query.accepts_of_holds hholds
          cases holds with
          | true =>
              exact .inr ⟨[], v, left, fun u hu => (by cases hu), haccepts, hv,
                fun _ => search_of_holds hrun hholds attempts⟩
          | false =>
              rcases ih left with ⟨asked, fault, last, hsearch⟩ |
                ⟨before, first, last, hbefore, hfirst, hvalue, hsearch⟩
              · refine .inl ⟨v :: asked, fault, last, fun limit => ?_⟩
                rw [search_of_not_holds hrun hholds, hsearch limit]
              · refine .inr ⟨v :: before, first, last, List.forall_mem_cons.mpr ⟨haccepts, hbefore⟩,
                  hfirst, hvalue, fun limit => ?_⟩
                rw [search_of_not_holds hrun hholds, hsearch limit]
                rfl

/-! ## The number of shrinks -/

/-- The pass over the bits takes bits away, and no more than there are shrinks left to keep. -/
theorem walk_shrinks {v r : Datum} (hv : k.IsValue v) {bits : List Nat} {kept : Nat}
    (hr : (walk k query least limit bits kept v).2 = .ok r) :
    k.bitsOf r ⊆ k.bitsOf v ∧
      ((k.bitsOf v).card : Int) ≤ (k.bitsOf r).card + max 0 (limit - kept) := by
  induction bits generalizing v kept with
  | nil =>
      cases hr
      exact ⟨Finset.Subset.refl _, by omega⟩
  | cons b rest ih =>
      rw [walk] at hr
      split at hr
      · cases hr
        exact ⟨Finset.Subset.refl _, by omega⟩
      rename_i hgo
      cases hholds : query.holds (k.without v b) with
      | error fault =>
          rw [hholds] at hr
          cases hr
      | ok holds =>
          rw [hholds] at hr
          cases holds with
          | true =>
              obtain ⟨hsub, hcard⟩ := ih (hv.without b) hr
              rw [hv.bitsOf_without] at hsub hcard
              have hone := Finset.pred_card_le_card_erase (s := k.bitsOf v) (a := b)
              exact ⟨hsub.trans (Finset.erase_subset b _), by omega⟩
          | false => exact ih hv hr

/-- With fewer shrinks to keep, the pass over the bits is the same one, or has kept them all and
stops where the longer pass goes on. -/
theorem walk_continues (query : Query) (least : Int) (hle : limit ≤ larger) {v : Datum}
    (hv : k.IsValue v) (bits : List Nat) (kept : Nat) :
    let short := walk k query least limit bits kept v
    let long := walk k query least larger bits kept v
    let accepted := kept + short.1.countP query.accepts
    long = short ∨ ∃ r rest, short.2 = .ok r ∧ k.IsValue r ∧ limit ≤ accepted ∧
      let further := walk k query least larger rest accepted r
      long = (short.1 ++ further.1, further.2) := by
  induction bits generalizing v kept with
  | nil => exact .inl rfl
  | cons b rest ih =>
      intro short long accepted
      unfold accepted long short
      by_cases hfloor : ((k.bitsOf v).card : Int) ≤ least
      · left
        rw [walk_of_stop (.inr hfloor), walk_of_stop (.inr hfloor)]
      by_cases hlimit : limit ≤ kept
      · -- the shorter pass stops here, and the longer one is all that remains of it
        right
        rw [walk_of_stop (.inl hlimit)]
        exact ⟨v, b :: rest, rfl, hv, hlimit, rfl⟩
      have hgo : ¬ (limit ≤ kept ∨ ((k.bitsOf v).card : Int) ≤ least) :=
        not_or.mpr ⟨hlimit, hfloor⟩
      have hgo' : ¬ (larger ≤ kept ∨ ((k.bitsOf v).card : Int) ≤ least) :=
        not_or.mpr ⟨by omega, hfloor⟩
      simp only [walk, if_neg hgo, if_neg hgo']
      cases hholds : query.holds (k.without v b) with
      | error fault => exact .inl rfl
      | ok holds =>
          have haccepts := Query.accepts_of_holds hholds
          cases holds with
          | true =>
              have hcount : ∀ asked : List Datum,
                  kept + (k.without v b :: asked).countP query.accepts =
                    kept + 1 + asked.countP query.accepts := by
                intro asked
                rw [List.countP_cons_of_pos haccepts]
                omega
              dsimp only
              rw [hcount]
              rcases ih (hv.without b) (kept + 1) with hsame | ⟨r, others, hr, hvalue, hall, hlong⟩
              · left
                rw [hsame]
              · refine .inr ⟨r, others, hr, hvalue, hall, ?_⟩
                rw [hlong]
                rfl
          | false =>
              dsimp only
              rw [List.countP_cons_of_neg (Bool.eq_false_iff.mp haccepts)]
              rcases ih hv kept with hsame | ⟨r, others, hr, hvalue, hall, hlong⟩
              · left
                rw [hsame]
              · refine .inr ⟨r, others, hr, hvalue, hall, ?_⟩
                rw [hlong]
                rfl

/-- How a search with fewer shrinks to keep relates to one with more of them. -/
structure Stopped (k : Kind) (query : Query) (limit larger : Int) (short long : Course) : Prop where
  asked_prefix : short.asked <+: long.asked
  left_eq : short.left = long.left
  shrinks : ∀ r r', short.result = .ok r → long.result = .ok r' →
    k.bitsOf r' ⊆ k.bitsOf r ∧
      ((k.bitsOf r).card : Int) ≤ (k.bitsOf r').card + (larger - limit)
  eq_of_kept : (query.kept short.asked : Int) < limit → long = short

/-- A search that neither budget stops is the same one with both. -/
theorem Stopped.refl (hle : limit ≤ larger) (course : Course) :
    Stopped k query limit larger course course where
  asked_prefix := List.prefix_refl _
  left_eq := rfl
  shrinks r r' hr hr' := by
    cases hr.symm.trans hr'
    exact ⟨Finset.Subset.refl _, by omega⟩
  eq_of_kept _ := rfl

/-- With fewer shrinks to keep, a search asks and finds the same until it has kept them. -/
theorem search_stopped [Memory] (hk : k.IsStandard) (hs : s.WellFormed k) (query : Query)
    (hle : limit ≤ larger) (attempts : Nat) (source : Source) :
    Stopped k query limit larger (search k s query limit attempts source)
      (search k s query larger attempts source) := by
  rcases search_splits hk hs query attempts source with ⟨asked, fault, left, hsearch⟩ |
    ⟨before, v, left, hbefore, hv, hvalue, hsearch⟩
  · rw [hsearch limit, hsearch larger]
    exact .refl hle _
  rw [hsearch limit, hsearch larger]
  rcases walk_continues query s.floor hle hvalue (k.bitsFrom v 0) 0 with
    hsame | ⟨r, rest, hr, hrvalue, hall, hlong⟩
  · rw [hsame]
    exact .refl hle _
  rw [Nat.zero_add] at hall hlong
  refine ⟨?_, rfl, fun r₁ r' hr₁ hr' => ?_, fun hkept => ?_⟩
  · rw [hlong]
    exact ⟨_, by rw [List.append_assoc]; rfl⟩
  · -- what the longer pass takes away from here on, the shorter one has left
    cases hr.symm.trans hr₁
    dsimp only at hr'
    rw [hlong] at hr'
    obtain ⟨hsub, hcard⟩ := walk_shrinks hrvalue hr'
    exact ⟨hsub, by omega⟩
  · rw [Query.kept_append hbefore hv] at hkept
    omega

end Plain

/-! ## Searches -/

/-- What larger budgets make of a search. With more draws, a search that returns comes to the same
by the same questions, and one without an example has none with fewer draws either. With more
shrinks to keep, it draws the same and asks the same to begin with; what it returns has no further
bits and at most as many fewer as the budgets differ by, and is the same where the smaller budget
was not used up. -/
theorem find_monotone [Memory] {k : Kind} (hk : k.IsStandard) {s : Strategy} (hs : s.MadeOver k)
    (query : Query) {inForce inForce' : Settings} {given given' : Option Settings}
    {attempts attempts' limit limit' : Int}
    (hattempts : (given.getD inForce).maxExamples.integer? = some attempts)
    (hattempts' : (given'.getD inForce').maxExamples.integer? = some attempts')
    (hlimit : (given.getD inForce).maxShrinks.integer? = some limit)
    (hlimit' : (given'.getD inForce').maxShrinks.integer? = some limit')
    (supply : Source.Supply) :
    let found := find (.strategy s) query inForce given supply
    let found' := find (.strategy s) query inForce' given' supply
    (attempts ≤ attempts' → limit = limit' →
      (∀ r, found.result = .ok r →
        found'.result = .ok r ∧ found'.asked = found.asked ∧ found'.source = found.source) ∧
      ((∃ c d, found'.result = .error (.noExample c d)) →
        ∃ c d, found.result = .error (.noExample c d))) ∧
    (attempts = attempts' → limit ≤ limit' →
      found.asked <+: found'.asked ∧ found.source = found'.source ∧
      ∀ r r', found.result = .ok r → found'.result = .ok r' →
        k.bitsOf r' ⊆ k.bitsOf r ∧
          ((k.bitsOf r).card : Int) ≤ (k.bitsOf r').card + (limit' - limit) ∧
          ((query.kept found.asked : Int) < limit → r' = r)) := by
  intro found found'
  cases hsource : supply.wrap with
  | error fault =>
      unfold found found' find
      rw [hsource]
      exact ⟨fun _ _ => ⟨nofun, id⟩, fun _ _ => ⟨List.prefix_refl _, rfl, nofun⟩⟩
  | ok source =>
      obtain ⟨hresult, hasked, hleft⟩ :=
        find_eq_plain_search hk hs query inForce given hattempts hlimit hsource
      obtain ⟨hresult', hasked', hleft'⟩ :=
        find_eq_plain_search hk hs query inForce' given' hattempts' hlimit' hsource
      unfold found found'
      rw [hresult, hasked, hleft, hresult', hasked', hleft']
      constructor
      · rintro hle rfl
        rcases Plain.search_attempts k s query limit (Int.toNat_le_toNat hle) source with
          hsame | hnone
        · rw [hsame]
          exact ⟨fun r hr => ⟨hr, rfl, rfl⟩, id⟩
        · rw [hnone]
          exact ⟨nofun, fun _ => ⟨_, _, rfl⟩⟩
      · rintro rfl hle
        have hstopped :=
          Plain.search_stopped hk (hs.wellFormed hk) query hle attempts.toNat source
        refine ⟨hstopped.asked_prefix, congrArg some hstopped.left_eq, fun r r' hr hr' => ?_⟩
        obtain ⟨hsub, hcard⟩ := hstopped.shrinks r r' hr hr'
        refine ⟨hsub, hcard, fun hkept => ?_⟩
        rw [hstopped.eq_of_kept hkept] at hr'
        exact Except.ok.inj (hr'.symm.trans hr)

attribute [local instance] Memory.small

/-- Searches over a masked signed byte for two set bits. The second value drawn is the first one
that has them, so that a third draw is not made. It has three, and the lowest of these is left out
if any shrink is kept at all; a second one is not to be had. -/
theorem find_monotone_masked_byte :
    let k := Kind.word .i8
    let s : Strategy := .range k (.plain 0) (.plain 8) (some (.int (-76)))
    let query : Query := ⟨"two", fun v => .ok (decide (2 ≤ (k.bitsOf v).card))⟩
    let budgets (attempts limit : Int) : Settings :=
      { Settings.plain with maxExamples := .int attempts, maxShrinks := .int limit }
    let source := Source.tape [0, 1, 0, 0, 1, 1, 0, 1, 9]
    let found (attempts limit : Int) :=
      find (.strategy s) query .plain (some (budgets attempts limit)) (.source source)
    Strategy.ofMask (.kind k) (.int (-76)) = .ok s ∧ (found 2 0).result = .ok (.int (-108)) ∧
      (found 2 2).result = .ok (.int (-112)) ∧ query.kept (found 2 2).asked = 1 ∧
      (found 3 2).result = .ok (.int (-112)) ∧ (found 3 2).source = some (.tape [9]) ∧
      k.bitsOf (.int (-112)) ⊆ k.bitsOf (.int (-108)) ∧
      ∀ r, (found 2 500).result = .ok r → r = .int (-112) := by
  intro k s query budgets source found
  have hk : k.IsStandard := trivial
  have hmade : Strategy.ofMask (.kind k) (.int (-76)) = .ok s := rfl
  have hs : s.MadeOver k := .ofMask hmade
  have hattempts (attempts limit : Int) :
      (Option.getD (some (budgets attempts limit)) .plain).maxExamples.integer? = some attempts :=
    rfl
  have hlimit (attempts limit : Int) :
      (Option.getD (some (budgets attempts limit)) .plain).maxShrinks.integer? = some limit := rfl
  have hsupply : (Source.Supply.source source).wrap = .ok source := rfl
  have hplain (attempts limit : Int) := find_eq_plain_search hk hs query .plain
    (some (budgets attempts limit)) (hattempts attempts limit) (hlimit attempts limit) hsupply
  have hmonotone (attempts attempts' limit limit' : Int) := find_monotone hk hs query
    (hattempts attempts limit) (hattempts attempts' limit') (hlimit attempts limit)
    (hlimit attempts' limit') (.source source)
  have hfound₀ : (found 2 0).result = .ok (.int (-108)) := (hplain 2 0).1.trans rfl
  have hfound₂ : (found 2 2).result = .ok (.int (-112)) := (hplain 2 2).1.trans rfl
  have hasked : (found 2 2).asked = [.int 16, .int (-108), .int (-112), .int (-128), .int 16] :=
    (hplain 2 2).2.1.trans rfl
  have hsource : (found 2 2).source = some (.tape [9]) := (hplain 2 2).2.2.trans rfl
  have hkept : query.kept (found 2 2).asked = 1 := by
    rw [hasked]
    decide
  obtain ⟨hsame, -⟩ := (hmonotone 2 3 2 2).1 (by decide) rfl
  obtain ⟨hfound₃, -, hsource₃⟩ := hsame _ hfound₂
  obtain ⟨-, -, hshrinks⟩ := (hmonotone 2 2 0 2).2 rfl (by decide)
  obtain ⟨-, -, henough⟩ := (hmonotone 2 2 2 500).2 rfl (by decide)
  refine ⟨hmade, hfound₀, hfound₂, hkept, hfound₃, hsource₃.trans hsource,
    (hshrinks _ _ hfound₀ hfound₂).1, fun r hr => ?_⟩
  refine (henough _ r hfound₂ hr).2.2 ?_
  show (query.kept (found 2 2).asked : Int) < 2
  rw [hkept]
  decide

end FlagSets
