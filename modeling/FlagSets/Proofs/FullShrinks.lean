import FlagSets.Proofs.Independence
import Mathlib.Data.Finset.Sort

/-!
# Shrinking to the end

When `simplify` is called again and again, and nothing is undone in between, it goes through the set
bits from the cursor on and clears each of them. It stops for one of two reasons: no bit is left
from the cursor on, or no more bits are set than the floor asks for. Which of them comes first is
known from the beginning, since each call takes one bit from both counts, however far the cursor has
to move for it.

A tree that a strategy generates has all its bits from the cursor on, and so at the end it has as
many bits as its floor says, and these are the highest ones.

## Main results

* `Zipper.play_simplify` : what a number of calls take out of the set.
* `Shows.runsOut` : when a tree stops, and what it holds until then.
* `runsOut_of_isStandard` : so for every fresh tree, and for those that strategies generate.
-/

namespace FlagSets

/-! ## The zipper -/

namespace Zipper

variable {floor : Int} {held : Finset Nat} {rest : List Nat}

/-- How many bits can be taken out of a set in turn: those on a list, down to a floor. -/
def turns (floor : Int) (held : Finset Nat) (rest : List Nat) : Nat :=
  min ((held.card : Int) - floor).toNat rest.length

/-- As long as there is a turn left, each call takes the next bit out. -/
theorem play_simplify (hnodup : rest.Nodup) (hrest : ∀ b ∈ rest, b ∈ held) (pending : Option Nat)
    {n : Nat} (hn : n ≤ turns floor held rest) :
    ∃ last, play floor (List.replicate n .simplify) ⟨held, pending, rest⟩ =
      (List.replicate n true, ⟨held \ (rest.take n).toFinset, last, rest.drop n⟩) := by
  induction n generalizing held pending rest with
  | zero => exact ⟨pending, by simp [play]⟩
  | succ n ih =>
      unfold turns at hn
      cases rest with
      | nil =>
          rw [List.length_nil] at hn
          omega
      | cons b rest =>
          rw [List.length_cons] at hn
          obtain ⟨hnot, hrestNodup⟩ := List.nodup_cons.mp hnodup
          have hcard := Finset.card_erase_add_one (hrest b List.mem_cons_self)
          -- the bits behind stay in the set, and both counts go down by one
          have hothers : ∀ i ∈ rest, i ∈ held.erase b := fun i hi =>
            Finset.mem_erase.mpr ⟨fun hib => hnot (hib ▸ hi), hrest i (List.mem_cons_of_mem b hi)⟩
          obtain ⟨last, hplay⟩ := ih hrestNodup hothers (some b) (by unfold turns; omega)
          refine ⟨last, ?_⟩
          rw [List.replicate_succ, play, move, simplify_cons (by omega)]
          dsimp only
          rw [hplay, List.take_succ_cons, List.toFinset_cons, Finset.sdiff_insert,
            Finset.erase_sdiff_comm]
          rfl

/-- Without a turn left, a call takes nothing out. -/
theorem simplify_of_turns_eq_zero (h : turns floor held rest = 0) (pending : Option Nat) :
    ∃ last, simplify floor ⟨held, pending, rest⟩ = (false, ⟨held, last, rest⟩) := by
  by_cases hcard : (held.card : Int) ≤ floor
  · exact ⟨pending, simplify_of_card_le hcard⟩
  · have hnil : rest = [] := by
      rw [← List.length_eq_zero_iff]
      unfold turns at h
      omega
    rw [hnil]
    exact ⟨none, simplify_nil (Int.not_le.mp hcard) pending⟩

theorem play_append (floor : Int) (moves others : List Move) (z : Zipper) :
    play floor (moves ++ others) z =
      ((play floor moves z).1 ++ (play floor others (play floor moves z).2).1,
        (play floor others (play floor moves z).2).2) := by
  induction moves generalizing z with
  | nil => rfl
  | cons m ms ih => simp only [List.cons_append, play, ih]

/-- After all turns the next call takes nothing out. -/
theorem play_simplify_to_end (hnodup : rest.Nodup) (hrest : ∀ b ∈ rest, b ∈ held)
    (pending : Option Nat) :
    let n := turns floor held rest
    ∃ last, play floor (List.replicate (n + 1) .simplify) ⟨held, pending, rest⟩ =
      (List.replicate n true ++ [false],
        ⟨held \ (rest.take n).toFinset, last, rest.drop n⟩) := by
  intro n
  obtain ⟨last, hplay⟩ := play_simplify hnodup hrest pending (Nat.le_refl n)
  have hsub : (rest.take n).toFinset ⊆ held := fun b hb =>
    hrest b (List.mem_of_mem_take (List.mem_toFinset.mp hb))
  have hlength : n ≤ rest.length := Nat.min_le_right _ _
  have htaken : (rest.take n).toFinset.card = n := by
    rw [List.toFinset_card_of_nodup (hnodup.sublist (List.take_sublist n rest)),
      List.length_take_of_le hlength]
  have hnone : turns floor (held \ (rest.take n).toFinset) (rest.drop n) = 0 := by
    have hle := Finset.card_le_card hsub
    rw [turns, Finset.card_sdiff_of_subset hsub, List.length_drop]
    unfold n turns at *
    omega
  obtain ⟨after, hstop⟩ := simplify_of_turns_eq_zero hnone last
  refine ⟨after, ?_⟩
  rw [List.replicate_succ', play_append, hplay]
  simp only [play, move, hstop]

end Zipper

/-! ## The lowest members of a set -/

/-- What is left of a set when a number of the lowest members of a part of it are taken out. -/
def withoutLowest (S ahead : Finset Nat) (n : Nat) : Finset Nat := S \ (ahead.sort.take n).toFinset

/-- The lowest members of a sorted list are its first ones. -/
theorem withoutLowest_toFinset {ahead : List Nat} (h : ahead.Pairwise (· < ·)) (S : Finset Nat)
    (n : Nat) : withoutLowest S ahead.toFinset n = S \ (ahead.take n).toFinset := by
  have hsort : ahead.toFinset.sort = ahead :=
    (List.toFinset_sort (· ≤ ·) (h.imp Nat.ne_of_lt)).mpr (h.imp Nat.le_of_lt)
  rw [withoutLowest, hsort]

/-- A number of members of a set that are above all the others. -/
structure Highest (S T : Finset Nat) (n : Int) : Prop where
  subset : T ⊆ S
  card_eq : (T.card : Int) = n
  lt_of_mem : ∀ b ∈ S, b ∉ T → ∀ c ∈ T, b < c

/-- Without the lowest members the highest ones are left. -/
theorem highest_withoutLowest {S : Finset Nat} {n : Nat} (hn : n ≤ S.card) :
    Highest S (withoutLowest S S n) (S.card - n) := by
  have hlow : (S.sort.take n).toFinset ⊆ S := fun b hb =>
    (S.mem_sort (· ≤ ·)).mp (List.mem_of_mem_take (List.mem_toFinset.mp hb))
  have hcard : (S.sort.take n).toFinset.card = n := by
    rw [List.toFinset_card_of_nodup ((S.sort_nodup (· ≤ ·)).sublist (List.take_sublist n _)),
      List.length_take_of_le (by rw [Finset.length_sort]; exact hn)]
  refine ⟨Finset.sdiff_subset, ?_, fun b hb hnot c hc => ?_⟩
  · rw [withoutLowest, Finset.card_sdiff_of_subset hlow, hcard]
    omega
  · -- what is left out stands before what is left in the sorted list
    obtain ⟨hcS, hcnot⟩ := Finset.mem_sdiff.mp hc
    have hbtaken : b ∈ S.sort.take n := by
      by_contra hout
      exact hnot (Finset.mem_sdiff.mpr ⟨hb, fun h => hout (List.mem_toFinset.mp h)⟩)
    have hsplit := List.take_append_drop n S.sort
    have hcdropped : c ∈ S.sort.drop n := by
      have hmem := (S.mem_sort (· ≤ ·)).mpr hcS
      rw [← hsplit] at hmem
      exact (List.mem_append.mp hmem).resolve_left fun h => hcnot (List.mem_toFinset.mpr h)
    have hsorted := S.sortedLT_sort.pairwise
    rw [← hsplit] at hsorted
    exact (List.pairwise_append.mp hsorted).2.2 b hbtaken c hcdropped

/-- The listed bits of a value are the sorted set of those from the start on. -/
theorem Kind.IsValue.bitsFrom_eq_sort {k : Kind} {v : Datum} (h : k.IsValue v) (start : Nat) :
    k.bitsFrom v start = ((k.bitsOf v).filter (start ≤ ·)).sort := by
  apply (k.pairwise_bitsFrom v start).eq_of_mem_iff (Finset.sortedLT_sort _).pairwise
  intro b
  rw [Finset.mem_sort, Finset.mem_filter, h.mem_bitsOf, h.mem_bitsFrom, and_comm]

/-! ## Trees -/

namespace ValueTree

variable [Memory]

/-- A tree gives out a value with a set of bits. -/
def Gives (k : Kind) (S : Finset Nat) (t : ValueTree) : Prop :=
  ∃ w, t.current = .ok w ∧ k.bitsOf w = S

theorem Shows.gives {k : Kind} {floor : Int} {z : Zipper} {t : ValueTree}
    (h : t.Shows k floor z) : t.Gives k z.held := by
  have hcurrent : t.current = .ok t.held := h.sound.isValue.copy_eq
  exact ⟨t.held, hcurrent, h.bitsOf_held⟩

/-- A tree on which `simplify` answers true a number of times and false after that. The sets of bits
that it gives out after each of these calls are known. -/
structure RunsOut (k : Kind) (tree : ValueTree) (turns : Nat) (held : Nat → Finset Nat) : Prop where
  answers : ∀ n ≤ turns, ∃ t, (play (List.replicate n .simplify)).run tree =
    (.ok (List.replicate n true), t) ∧ t.Gives k (held n)
  stops : ∃ t, (play (List.replicate (turns + 1) .simplify)).run tree =
    (.ok (List.replicate turns true ++ [false]), t) ∧ t.Gives k (held turns)
  shrinkFully : ∀ steps, turns < steps → ∃ t, (shrinkFully steps).run tree = (.ok turns, t) ∧
    t.Gives k (held turns)

/-- Several calls answer when the first one does, and the others after it. -/
private theorem play_cons_run {m : Move} {ms : List Move} {t last : ValueTree} {answer : Bool}
    {answers : List Bool} (h : (play (m :: ms)).run t = (.ok (answer :: answers), last)) :
    ∃ next, (move m).run t = (.ok answer, next) ∧ (play ms).run next = (.ok answers, last) := by
  rw [play, Step.run_bind] at h
  rcases hfirst : (move m).run t with ⟨fault | first, next⟩
  · rw [hfirst] at h
    cases h
  rw [hfirst] at h
  dsimp only at h
  rw [Step.run_bind] at h
  rcases hrest : (play ms).run next with ⟨fault | others, after⟩
  · rw [hrest] at h
    cases h
  · rw [hrest] at h
    cases h
    exact ⟨next, rfl, hrest⟩

/-- Calling `simplify` until it answers false counts the answers before that. -/
theorem shrinkFully_of_play {turns steps : Nat} (hsteps : turns < steps) {t last : ValueTree}
    (h : (play (List.replicate (turns + 1) .simplify)).run t =
      (.ok (List.replicate turns true ++ [false]), last)) :
    (shrinkFully steps).run t = (.ok turns, last) := by
  induction turns generalizing steps t with
  | zero =>
      obtain ⟨steps, rfl⟩ := Nat.exists_eq_succ_of_ne_zero (Nat.ne_zero_of_lt hsteps)
      obtain ⟨next, hanswer, hrest⟩ := play_cons_run h
      cases hrest
      change simplify.run t = _ at hanswer
      rw [shrinkFully, Step.run_bind, hanswer]
      rfl
  | succ turns ih =>
      obtain ⟨steps, rfl⟩ := Nat.exists_eq_succ_of_ne_zero (Nat.ne_zero_of_lt hsteps)
      obtain ⟨next, hanswer, hrest⟩ := play_cons_run h
      change simplify.run t = _ at hanswer
      rw [shrinkFully, Step.run_bind, hanswer]
      simp only [if_true, Step.run_bind, ih (Nat.lt_of_succ_lt_succ hsteps) hrest, Step.run_pure]

section Shows

variable {k : Kind} {floor : Int} {S ahead : Finset Nat} {pending : Option Nat} {tree : ValueTree}

/-- As long as there is a turn left, each call clears the next bit of a tree. -/
theorem Shows.play_simplify (hahead : ahead ⊆ S)
    (h : tree.Shows k floor ⟨S, pending, ahead.sort⟩) {n : Nat}
    (hn : n ≤ Zipper.turns floor S ahead.sort) :
    ∃ t, (ValueTree.play (List.replicate n .simplify)).run tree =
      (.ok (List.replicate n true), t) ∧ t.Gives k (withoutLowest S ahead n) := by
  obtain ⟨last, hplay⟩ := Zipper.play_simplify (ahead.sort_nodup (· ≤ ·))
    (fun b hb => hahead ((ahead.mem_sort (· ≤ ·)).mp hb)) pending hn
  obtain ⟨t, hrun, ht⟩ := h.play (List.replicate n .simplify)
  rw [hplay] at hrun ht
  exact ⟨t, hrun, ht.gives⟩

/-- After all turns the next call clears nothing. -/
theorem Shows.play_simplify_to_end (hahead : ahead ⊆ S)
    (h : tree.Shows k floor ⟨S, pending, ahead.sort⟩) :
    let n := Zipper.turns floor S ahead.sort
    ∃ t, (ValueTree.play (List.replicate (n + 1) .simplify)).run tree =
      (.ok (List.replicate n true ++ [false]), t) ∧ t.Gives k (withoutLowest S ahead n) := by
  intro n
  obtain ⟨last, hplay⟩ := Zipper.play_simplify_to_end (ahead.sort_nodup (· ≤ ·))
    (fun b hb => hahead ((ahead.mem_sort (· ≤ ·)).mp hb)) pending
  obtain ⟨t, hrun, ht⟩ := h.play (List.replicate (n + 1) .simplify)
  rw [hplay] at hrun ht
  exact ⟨t, hrun, ht.gives⟩

/-- A tree runs out after as many calls as its zipper has turns. -/
theorem Shows.runsOut (hahead : ahead ⊆ S) (h : tree.Shows k floor ⟨S, pending, ahead.sort⟩) :
    tree.RunsOut k (min ((S.card : Int) - floor).toNat ahead.card) (withoutLowest S ahead) := by
  have hturns : Zipper.turns floor S ahead.sort =
      min ((S.card : Int) - floor).toNat ahead.card := by
    rw [Zipper.turns, Finset.length_sort]
  rw [← hturns]
  refine ⟨fun n hn => h.play_simplify hahead hn, h.play_simplify_to_end hahead, ?_⟩
  intro steps hsteps
  obtain ⟨t, hrun, ht⟩ := h.play_simplify_to_end hahead
  exact ⟨t, shrinkFully_of_play hsteps hrun, ht⟩

end Shows

/-- A tree over a value runs out at its floor, or after all bits from its start on. -/
theorem runsOut_ofValue {k : Kind} {v : Datum} (hv : k.IsValue v) {start : Numeral}
    (hstart : 0 ≤ start.value) (floor : Numeral) :
    let ahead := (k.bitsOf v).filter fun b : Nat => start.value ≤ b
    (ofValue k v (.num start) (.num floor)).RunsOut k
      (min (((k.bitsOf v).card : Int) - floor.value).toNat ahead.card)
      (withoutLowest (k.bitsOf v) ahead) := by
  intro ahead
  have hshows := Shows.ofValue hv hstart floor
  have hahead : (k.bitsOf v).filter (start.value.toNat ≤ ·) = ahead :=
    Finset.filter_congr fun b _ => by omega
  rw [hv.bitsFrom_eq_sort, hahead] at hshows
  exact hshows.runsOut (Finset.filter_subset _ _)

end ValueTree

/-! ## Generated trees -/

namespace Strategy

variable {k : Kind} {s : Strategy} {tree : ValueTree}

/-- The floor of a strategy is no larger than the values that it admits. -/
theorem Admits.floor_le {v : Datum} (hs : s.WellFormed k) (h : s.Admits v) :
    0 ≤ s.floor ∧ s.floor ≤ (k.bitsOf v).card := by
  cases hs with
  | range => exact ⟨Int.le_refl 0, Int.natCast_nonneg _⟩
  | sampled hleast => exact ⟨hleast, h.2.1⟩

/-- A generated tree ends with just as many bits as the floor of its strategy says. These are its
highest ones. -/
theorem Fresh.runsOut [Memory] (hk : k.IsStandard) (hs : s.WellFormed k) (h : s.Fresh k tree) :
    let S := k.bitsOf tree.held
    let turns := ((S.card : Int) - s.floor).toNat
    tree.RunsOut k turns (withoutLowest S S) ∧
      Highest S (withoutLowest S S turns) s.floor := by
  intro S turns
  have hv := h.isValue hk hs
  obtain ⟨hnonneg, hfloor⟩ : 0 ≤ s.floor ∧ s.floor ≤ S.card := by
    cases h with
    | mk hadmits => exact hadmits.floor_le hs
  have hshows := h.shows hk hs
  rw [hv.bitsFrom_eq_sort, Finset.filter_true_of_mem fun _ _ => Nat.zero_le _] at hshows
  have hruns := hshows.runsOut (Finset.Subset.refl _)
  have hturns : turns ≤ S.card := by omega
  rw [Nat.min_eq_left hturns] at hruns
  have hhighest := highest_withoutLowest hturns
  rw [show (S.card : Int) - turns = s.floor by omega] at hhighest
  exact ⟨hruns, hhighest⟩

/-- Calling `simplify` on a fresh tree until it answers false. Over any value, with any start and
any floor, it answers true once for each set bit from the start on, unless the floor is reached
before, and clears these bits in ascending order. A tree of a range strategy ends without any bit,
and one of a sampled strategy with just the least size that the strategy allows, and the highest
bits. -/
theorem runsOut_of_isStandard [Memory] {k : Kind} (hk : k.IsStandard) :
    (∀ (v : Datum) (name : String) (start floor : Numeral), k.requireValue v name = .ok () →
      0 ≤ start.value →
        let ahead := (k.bitsOf v).filter fun b : Nat => start.value ≤ b
        (ValueTree.ofValue k v (.num start) (.num floor)).RunsOut k
          (min (((k.bitsOf v).card : Int) - floor.value).toNat ahead.card)
          (withoutLowest (k.bitsOf v) ahead)) ∧
    (∀ low high mask source tree left, (range k low high mask).MadeOver k →
      (range k low high mask).newTree.run source = (.ok tree, left) →
        let S := k.bitsOf tree.held
        tree.RunsOut k S.card (withoutLowest S S) ∧ withoutLowest S S S.card = ∅) ∧
    ∀ size bits source tree left, (sampled k size bits).MadeOver k →
      (sampled k size bits).newTree.run source = (.ok tree, left) →
        let S := k.bitsOf tree.held
        let turns := ((S.card : Int) - size.start.value).toNat
        tree.RunsOut k turns (withoutLowest S S) ∧
          Highest S (withoutLowest S S turns) size.start.value := by
  have hfresh : ∀ (s : Strategy) source tree left, s.MadeOver k →
      s.newTree.run source = (.ok tree, left) →
        let S := k.bitsOf tree.held
        let turns := ((S.card : Int) - s.floor).toNat
        tree.RunsOut k turns (withoutLowest S S) ∧
          Highest S (withoutLowest S S turns) s.floor := by
    intro s source tree left hs hrun
    have hwf := hs.wellFormed hk
    exact ((newTree_returns hk hwf).of_run hrun).runsOut hk hwf
  refine ⟨?_, ?_, fun size bits => hfresh (sampled k size bits)⟩
  · intro v name start floor hv hstart
    exact ValueTree.runsOut_ofValue ((Kind.requireValue_eq_ok_iff hk).mp hv) hstart floor
  · intro low high mask source tree left hs hrun S
    obtain ⟨hruns, hhighest⟩ := hfresh _ source tree left hs hrun
    have hturns : ((S.card : Int) - 0).toNat = S.card := by omega
    change tree.RunsOut k ((S.card : Int) - 0).toNat _ at hruns
    change Highest S (withoutLowest S S ((S.card : Int) - 0).toNat) 0 at hhighest
    rw [hturns] at hruns hhighest
    exact ⟨hruns, Finset.card_eq_zero.mp (Int.ofNat.inj hhighest.card_eq)⟩

attribute [local instance] Memory.small

/-- A negative byte with four bits, one of them before the start, stops at its floor. A range of
three bits ends without any. Of three selected bits of a wide word the lowest one is cleared. -/
theorem runsOut_words :
    let byte : ValueTree := .ofValue (.word .i8) (.int (-76)) (.int 3) (.int 2)
    let free : Strategy := .range (.word .u8) (.plain 0) (.plain 4) none
    let chosen : Strategy := .sampled (.word .u64) ⟨.plain 2, .plain 4⟩ ⟨.plain 3, .plain 40⟩
    (∃ t, (ValueTree.shrinkFully 9).run byte = (.ok 2, t) ∧ t.Gives (.word .i8) {2, 7}) ∧
      (∃ tree, free.newTree.run (.tape [1, 0, 1, 1]) = (.ok tree, .tape []) ∧
        ∃ t, (ValueTree.shrinkFully 9).run tree = (.ok 3, t) ∧ t.Gives (.word .u8) ∅) ∧
      ∃ tree, chosen.newTree.run (.tape [1, 5, 5, 30, 36]) = (.ok tree, .tape []) ∧
        ∃ t, (ValueTree.shrinkFully 9).run tree = (.ok 1, t) ∧ t.Gives (.word .u64) {33, 39} := by
  intro byte free chosen
  have hbyte : (Kind.word .i8).requireValue (.int (-76)) "value" = .ok () := rfl
  have hfree : Strategy.ofBounds (.kind (.word .u8)) (.int 0) (.int 4) .absent = .ok free := rfl
  have hchosen : Strategy.ofSize (.kind (.word .u64)) (.tuple [.int 2, .int 4]) (.range 3 40 1) =
      .ok chosen := rfl
  obtain ⟨hvalues, -, -⟩ := runsOut_of_isStandard (k := .word .i8) trivial
  obtain ⟨-, hranges, -⟩ := runsOut_of_isStandard (k := .word .u8) trivial
  obtain ⟨-, -, hsamples⟩ := runsOut_of_isStandard (k := .word .u64) trivial
  refine ⟨?_, ⟨_, rfl, ?_⟩, ⟨_, rfl, ?_⟩⟩
  · have hbits : (Kind.word .i8).bitsOf (.int (-76)) = {2, 4, 5, 7} := by decide
    have hahead : ((Kind.word .i8).bitsOf (.int (-76))).filter
        (fun b : Nat => (Numeral.plain 3).value ≤ b) = [4, 5, 7].toFinset := by decide
    have hleft : withoutLowest {2, 4, 5, 7} [4, 5, 7].toFinset 2 = {2, 7} := by
      rw [withoutLowest_toFinset (by decide)]
      decide
    have hruns := hvalues _ _ (.plain 3) (.plain 2) hbyte (by decide)
    dsimp only at hruns
    rw [hahead, hbits] at hruns
    obtain ⟨t, hrun, ht⟩ := hruns.shrinkFully 9 (by decide)
    exact ⟨t, hrun, hleft ▸ ht⟩
  · obtain ⟨hruns, hnone⟩ := hranges _ _ _ (.tape [1, 0, 1, 1]) _ (.tape []) (.ofBounds hfree) rfl
    obtain ⟨t, hrun, ht⟩ := hruns.shrinkFully 9 (by decide)
    exact ⟨t, hrun, hnone ▸ ht⟩
  · have hbits : (Kind.word .u64).bitsOf (.int 558345748736) = [8, 33, 39].toFinset := by decide
    have hleft : withoutLowest [8, 33, 39].toFinset [8, 33, 39].toFinset 1 = {33, 39} := by
      rw [withoutLowest_toFinset (by decide)]
      decide
    obtain ⟨hruns, -⟩ := hsamples _ _ (.tape [1, 5, 5, 30, 36]) _ (.tape []) (.ofSize hchosen) rfl
    obtain ⟨t, hrun, ht⟩ := hruns.shrinkFully 9 (by decide)
    rw [← hleft, ← hbits]
    exact ⟨t, hrun, ht⟩

end Strategy

end FlagSets
