import FlagSets.Proofs.Generation
import FlagSets.Proofs.Steps
import FlagSets.Search

/-!
# The search as a plain pass over bits

A search without trees, cursors and undoing. Values are drawn one after another until the condition
holds of one; then its set bits are gone through once, in ascending order, and each is left out of
the value for good exactly if the condition holds without it. The pass ends early when no more
shrinks are to be kept, or when the value has no more bits than the floor of the strategy.

The search over value trees asks the same questions in the same order and comes to the same result.
The pass over bits is tied to the loop over trees by what lies behind the cursor of a tree: these
bits are the list that the pass has yet to go through, whether the last step was kept or undone.
That an undone step leaves no trace needs the value to be restored as it was, not only its bits, and
holds because a generated value is spelled plainly.

## Main results

* `shrink_eq_walk` : the shrinking loop is the pass over the bits from the cursor on.
* `find_eq_plain_search` : a search comes to what the plain one comes to, by the same questions.
-/

namespace FlagSets

/-- What came of a search without reports: the values that the condition was asked about, the
result, and the source that was left. -/
structure Course where
  asked : List Datum
  result : Outcome Datum
  left : Source

namespace Plain

/-- Goes through bits of a value in turn, and leaves each of them out for good if the condition
holds without it. Gives the values asked about and the value that is left. -/
def walk (k : Kind) (query : Query) (least limit : Int) :
    List Nat → Nat → Datum → List Datum × Outcome Datum
  | [], _, v => ([], .ok v)
  | b :: rest, kept, v =>
    if limit ≤ kept ∨ ((k.bitsOf v).card : Int) ≤ least then ([], .ok v)
    else
      match query.holds (k.without v b) with
      | .error fault => ([k.without v b], .error fault)
      | .ok true =>
        let (asked, result) := walk k query least limit rest (kept + 1) (k.without v b)
        (k.without v b :: asked, result)
      | .ok false =>
        let (asked, result) := walk k query least limit rest kept v
        (k.without v b :: asked, result)

/-- Draws values until the condition holds of one, and goes through the set bits of that one. -/
def search [Memory] (k : Kind) (s : Strategy) (query : Query) (limit : Int) : Nat → Source → Course
  | 0, source => ⟨[], .error (.noExample (.text query.name) (.text "")), source⟩
  | attempts + 1, source =>
    match s.value.run source with
    | (.error fault, left) => ⟨[], .error fault, left⟩
    | (.ok v, left) =>
      match query.holds v with
      | .error fault => ⟨[v], .error fault, left⟩
      | .ok true =>
        let (asked, result) := walk k query s.floor limit (k.bitsFrom v 0) 0 v
        ⟨v :: asked, result, left⟩
      | .ok false =>
        let rest := search k s query limit attempts left
        { rest with asked := v :: rest.asked }

section Walk

variable {k : Kind} {query : Query} {least limit : Int} {v : Datum} {kept : Nat}

theorem walk_of_stop (h : limit ≤ kept ∨ ((k.bitsOf v).card : Int) ≤ least) (bits : List Nat) :
    walk k query least limit bits kept v = ([], .ok v) := by
  cases bits with
  | nil => rfl
  | cons b rest => exact if_pos h

end Walk

section Draws

variable [Memory] {k : Kind} {s : Strategy} {query : Query} {limit : Int} {source left : Source}
  {v : Datum}

/-- A value of which the condition holds ends the draws. -/
theorem search_of_holds (hrun : s.value.run source = (.ok v, left))
    (hholds : query.holds v = .ok true) (attempts : Nat) :
    search k s query limit (attempts + 1) source =
      ⟨v :: (walk k query s.floor limit (k.bitsFrom v 0) 0 v).1,
        (walk k query s.floor limit (k.bitsFrom v 0) 0 v).2, left⟩ := by
  rw [search, hrun]
  dsimp only
  rw [hholds]

/-- A value of which the condition does not hold is followed by another one. -/
theorem search_of_not_holds (hrun : s.value.run source = (.ok v, left))
    (hholds : query.holds v = .ok false) (attempts : Nat) :
    search k s query limit (attempts + 1) source =
      ⟨v :: (search k s query limit attempts left).asked,
        (search k s query limit attempts left).result,
        (search k s query limit attempts left).left⟩ := by
  rw [search, hrun]
  dsimp only
  rw [hholds]

/-- A condition that fails on a value ends the search. -/
theorem search_of_fault (hrun : s.value.run source = (.ok v, left)) {fault : Fault}
    (hholds : query.holds v = .error fault) (attempts : Nat) :
    search k s query limit (attempts + 1) source = ⟨[v], .error fault, left⟩ := by
  rw [search, hrun]
  dsimp only
  rw [hholds]

end Draws

end Plain

/-- What went before a part of a search goes before all that follows it. -/
private theorem Account.after_andThen {α β : Type} (a : Account α) (next : α → Account β)
    (asked : List Datum) (messages : List (Verbosity × String)) :
    (a.after asked messages).andThen next = (a.andThen next).after asked messages := by
  obtain ⟨fault | x, earlier, said⟩ := a
  · rfl
  · simp only [andThen, after, List.append_assoc]

namespace Search

open ValueTree

variable {k : Kind} {v : Datum} {c m : Numeral} (query : Query) (limit : Int)

/-- The loop over a tree asks what the pass over the bits from its cursor on asks, and ends with a
tree that holds what the pass ends with. -/
theorem shrink_eq_walk [Memory] (hv : k.IsValue v) (hplain : v.plain = v) (hc : 0 ≤ c.value)
    (undo : Option Datum) {steps : Nat} (kept : Nat)
    (hsteps : (k.bitsFrom v c.value.toNat).length ≤ steps) :
    let shrunk := shrink query limit steps kept ⟨k, v, .num c, undo, .num m⟩
    let walked := Plain.walk k query m.value limit (k.bitsFrom v c.value.toNat) kept v
    shrunk.asked = walked.1 ∧ (shrunk.result >>= fun last => last.1.current) = walked.2 := by
  induction steps generalizing v c undo kept with
  | zero =>
      rw [List.length_eq_zero_iff.mp (Nat.le_zero.mp hsteps)]
      exact ⟨rfl, hv.copy_eq⟩
  | succ steps ih =>
      intro shrunk walked
      unfold shrunk walked shrink
      by_cases hlimit : limit ≤ kept
      · rw [if_pos hlimit, Plain.walk_of_stop (.inl hlimit)]
        exact ⟨rfl, hv.copy_eq⟩
      rw [if_neg hlimit]
      by_cases hcard : ((k.bitsOf v).card : Int) ≤ m.value
      · rw [simplify_at_floor hv _ undo hcard, Plain.walk_of_stop (.inr hcard)]
        exact ⟨rfl, hv.copy_eq⟩
      cases hlist : k.bitsFrom v c.value.toNat with
      | nil =>
          obtain ⟨d, -, hrun⟩ := simplify_at_end hv undo hc (Int.not_le.mp hcard) hlist
          rw [hrun]
          exact ⟨rfl, hv.copy_eq⟩
      | cons b rest =>
          obtain ⟨d, hd, hrun⟩ := simplify_at_bit hv undo hc (Int.not_le.mp hcard) hlist
          obtain ⟨-, hset, hrest⟩ := Kind.of_bitsFrom_eq_cons hlist
          have hpos : (Numeral.plain (b + 1)).value.toNat = b + 1 := Int.toNat_natCast_add_one
          have hnext : 0 ≤ (Numeral.plain (b + 1)).value := Int.le_of_lt (Int.natCast_succ_pos b)
          have hlen : rest.length ≤ steps := by
            rw [hlist] at hsteps
            exact Nat.le_of_succ_le_succ hsteps
          have hcopy : current ⟨k, k.without v b, .int (b + 1), some (.num d), .num m⟩ =
              .ok (k.without v b) := (hv.without b).copy_eq
          rw [hrun]
          simp only [hcopy]
          unfold Plain.walk
          rw [if_neg (not_or.mpr ⟨hlimit, hcard⟩)]
          cases query.holds (k.without v b) with
          | error fault => exact ⟨rfl, rfl⟩
          | ok holds =>
              cases holds with
              | true =>
                  have hbehind := hv.bitsFrom_without b
                  rw [← hrest] at hbehind
                  obtain ⟨hasked, hresult⟩ := ih (hv.without b) (hv.plain_without hplain b) hnext
                    (some (.num d)) (kept + 1) (by rw [hpos, hbehind]; exact hlen)
                  rw [hpos, hbehind] at hasked hresult
                  exact ⟨congrArg (k.without v b :: ·) hasked, hresult⟩
              | false =>
                  obtain ⟨hasked, hresult⟩ := ih hv hplain hnext none kept
                    (by rw [hpos, ← hrest]; exact hlen)
                  rw [hpos, ← hrest] at hasked hresult
                  simp only [complicate_cleared hv hplain hset _ _ hd]
                  exact ⟨congrArg (k.without v b :: ·) hasked, hresult⟩

/-- The measure of a tree is enough for the bits from its cursor on. -/
private theorem length_bitsFrom_le_measure (hv : k.IsValue v) (hc : 0 ≤ c.value)
    (undo : Option Datum) (floor : Datum) :
    (k.bitsFrom v c.value.toNat).length ≤ ValueTree.measure ⟨k, v, .num c, undo, floor⟩ := by
  have hmeasure : ValueTree.measure ⟨k, v, .num c, undo, floor⟩ =
      ((k.capacity v : Int) - c.value).toNat := by
    rw [ValueTree.measure, hv.length_eq]
    exact Datum.stepsBelow_num c (k.capacity v)
  have hlen : (k.bitsFrom v c.value.toNat).length ≤ k.capacity v - c.value.toNat := by
    refine Nat.le_trans (List.length_filter_le _ _) ?_
    rw [List.length_range']
  omega

/-- Shrinking a fresh tree is the pass over the set bits of its value. -/
theorem minimise_eq_walk [Memory] (hk : k.IsStandard) {s : Strategy} (hs : s.WellFormed k)
    {tree : ValueTree} (htree : s.Fresh k tree) :
    let walked := Plain.walk k query s.floor limit (k.bitsFrom tree.held 0) 0 tree.held
    (minimise query limit tree).asked = walked.1 ∧
      (minimise query limit tree).result = walked.2 := by
  intro walked
  cases htree with
  | @mk v c m hadmits hplain hc hbits hm =>
      have hv := hadmits.isValue hk hs
      have hall := Strategy.bitsFrom_eq_of_cursor hbits
      have hwalked : walked =
          Plain.walk k query m.value limit (k.bitsFrom v c.value.toNat) 0 v := by
        rw [hm, ← hall]
        rfl
      have hfuel := Nat.le_succ_of_le (length_bitsFrom_le_measure hv hc none (.num m))
      obtain ⟨hasked, hresult⟩ := shrink_eq_walk query limit (m := m) hv hplain hc none 0 hfuel
      rw [hwalked, ← hasked, ← hresult]
      have hcopy : current (.ofValue k v (.num c) (.num m)) = .ok v := hv.copy_eq
      unfold minimise
      rw [hcopy]
      unfold ofValue Account.andThen
      generalize shrink query limit _ 0 ⟨k, v, .num c, none, .num m⟩ = shrunk
      obtain ⟨fault | ⟨last, kept⟩, asked, messages⟩ := shrunk
      · exact ⟨rfl, rfl⟩
      · dsimp only [Account.after]
        cases hlast : last.current with
        | error fault => exact ⟨List.append_nil asked, hlast.symm⟩
        | ok value => exact ⟨List.append_nil asked, hlast.symm⟩

/-- Drawing until the condition holds, and then shrinking, is the plain search. -/
private theorem generate_andThen_minimise [Memory] (hk : k.IsStandard) {s : Strategy}
    (hs : s.WellFormed k) (attempts : Nat) (source : Source) :
    let drawn := generate s query attempts source
    let plain := Plain.search k s query limit attempts source
    (drawn.1.andThen (minimise query limit)).result = plain.result ∧
      (drawn.1.andThen (minimise query limit)).asked = plain.asked ∧ drawn.2 = plain.left := by
  induction attempts generalizing source with
  | zero => exact ⟨rfl, rfl, rfl⟩
  | succ attempts ih =>
      intro drawn plain
      unfold drawn plain generate Plain.search Strategy.value
      rw [Step.run_bind]
      rcases hrun : s.newTree.run source with ⟨fault | tree, left⟩
      · exact ⟨rfl, rfl, rfl⟩
      have hfresh := (Strategy.newTree_returns hk hs).of_run hrun
      simp only [Step.run_liftM, hfresh.current_eq hk hs]
      cases query.holds tree.held with
      | error fault => exact ⟨rfl, rfl, rfl⟩
      | ok holds =>
          cases holds with
          | true =>
              obtain ⟨hasked, hresult⟩ := minimise_eq_walk query limit hk hs hfresh
              exact ⟨hresult, congrArg (tree.held :: ·) hasked, rfl⟩
          | false =>
              obtain ⟨hresult, hasked, hleft⟩ := ih left
              simp only [Account.after_andThen]
              exact ⟨hresult, congrArg (tree.held :: ·) hasked, hleft⟩

theorem budget_eq {d : Datum} {n : Int} (h : d.integer? = some n) : budget d = n := by
  rw [budget, h, Option.getD_some]

end Search

/-- With a source, what is found is what the plain search finds, by the same questions. -/
theorem find_eq_search [Memory] {k : Kind} (hk : k.IsStandard) {s : Strategy} (hs : s.WellFormed k)
    (query : Query) (inForce : Settings) (given : Option Settings) {supply : Source.Supply}
    {source : Source} (hsource : supply.wrap = .ok source) :
    let found := find (.strategy s) query inForce given supply
    let plain := Plain.search k s query (Search.budget (given.getD inForce).maxShrinks)
      (Search.budget (given.getD inForce).maxExamples).toNat source
    found.result = plain.result ∧ found.asked = plain.asked ∧
      found.source = some plain.left := by
  intro found plain
  obtain ⟨hresult, hasked, hleft⟩ := Search.generate_andThen_minimise query
    (Search.budget (given.getD inForce).maxShrinks) hk hs
    (Search.budget (given.getD inForce).maxExamples).toNat source
  unfold found find
  rw [hsource]
  exact ⟨hresult, hasked, congrArg some hleft⟩

/-- A search finds what the plain search finds, asks about the same values in the same order, and
leaves the same source. -/
theorem find_eq_plain_search [Memory] {k : Kind} (hk : k.IsStandard) {s : Strategy}
    (hs : s.MadeOver k) (query : Query) (inForce : Settings) (given : Option Settings)
    {attempts limit : Int} (hattempts : (given.getD inForce).maxExamples.integer? = some attempts)
    (hlimit : (given.getD inForce).maxShrinks.integer? = some limit) {supply : Source.Supply}
    {source : Source} (hsource : supply.wrap = .ok source) :
    let found := find (.strategy s) query inForce given supply
    let plain := Plain.search k s query limit attempts.toNat source
    found.result = plain.result ∧ found.asked = plain.asked ∧ found.source = some plain.left := by
  have hfound := find_eq_search hk (hs.wellFormed hk) query inForce given hsource
  rw [Search.budget_eq hattempts, Search.budget_eq hlimit] at hfound
  exact hfound

attribute [local instance] Memory.small

/-- A search over a masked signed byte for two set bits. The first value drawn has only one; of the
second, the lowest bit is left out, and the sign bit stays. -/
theorem find_masked_byte :
    let query : Query := ⟨"two", fun v => do return 2 ≤ (← (Kind.word .i8).count v)⟩
    let source := Source.tape [0, 1, 0, 0, 1, 1, 0, 1, 9]
    ∃ s, Strategy.ofMask (.kind (.word .i8)) (.int (-76)) = .ok s ∧
      let found := find (.strategy s) query .plain none (.source source)
      found.result = .ok (.int (-112)) ∧
        found.asked = [.int 16, .int (-108), .int (-112), .int (-128), .int 16] ∧
        found.source = some (.tape [9]) := by
  intro query source
  have hmade : Strategy.ofMask (.kind (.word .i8)) (.int (-76)) =
      .ok (.range (.word .i8) (.plain 0) (.plain 8) (some (.int (-76)))) := rfl
  have hattempts : (Option.getD none Settings.plain).maxExamples.integer? = some 100 := rfl
  have hlimit : (Option.getD none Settings.plain).maxShrinks.integer? = some 500 := rfl
  have hsource : (Source.Supply.source source).wrap = .ok source := rfl
  obtain ⟨hresult, hasked, hleft⟩ := find_eq_plain_search (k := .word .i8) trivial
    (.ofMask hmade) query .plain none hattempts hlimit hsource
  exact ⟨_, hmade, hresult.trans rfl, hasked.trans rfl, hleft.trans rfl⟩

end FlagSets
