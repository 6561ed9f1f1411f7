import FlagSets.Proofs.Coins
import FlagSets.Proofs.Exhaustion
import FlagSets.Proofs.Sampling

/-!
# Every strategy generates

What is checked when a strategy is made is all that generating relies on later: every bit that is
set lies below the capacity of the new value, a mask can be looked at everywhere, and there are as
many bits to choose from as may be asked for. Nothing in the course of generating is ever refused,
so that only the source is left to fail, and there are sources that do not.

## Main results

* `newTree_takes` : generating fails only when its source does.
* `exists_tape_newTree` : there is a tape on which it does not fail.
* `newTreeFrom_total` : both, for every strategy that can be made and as far as memory goes.
-/

namespace FlagSets

namespace Source

theorem flips_takes (n : Nat) : Takes 0 (flips n) := by
  induction n with
  | zero => exact Takes.of_pure []
  | succ n ih =>
      unfold flips
      refine Takes.bind_zero (.any _) boolean_takes fun coin _ => ?_
      exact Takes.bind_zero (.any _) ih fun coins _ => .of_pure (coin :: coins)

end Source

namespace Strategy

variable [Memory] {k : Kind} {s : Strategy}

/-- A strategy that finds room generates, unless the source fails. -/
theorem newTree_takes (hk : k.IsStandard) (hs : s.MadeOver k) (hroom : s.HasRoom)
    (hchoose : s.RoomToChoose) : Source.Takes 0 s.newTree := by
  have hwf := hs.wellFormed hk
  cases hwf with
  | range =>
      obtain ⟨blank, halloc⟩ := hroom
      rw [Step.ext (newTree_range_run hk (hs.wellFormed hk) halloc)]
      exact (Source.flips_takes _).map _
  | sampled hleast hlow _ _ hsize =>
      obtain ⟨blank, halloc⟩ := hroom
      obtain ⟨made, hmade⟩ := hchoose
      rw [Step.ext (newTree_sampled_run hk (hs.wellFormed hk) halloc)]
      have hselect := Source.selection_takes hlow (length_toRange_of_madeOver hk hs) hleast
        hsize.1 hsize.2 hmade
      exact hselect.map _

/-- A strategy that finds room generates from some tape. -/
theorem exists_tape_newTree (hk : k.IsStandard) (hs : s.MadeOver k) (hroom : s.HasRoom)
    (hchoose : s.RoomToChoose) :
    ∃ entries tree, s.newTree.run (.tape entries) = (.ok tree, .tape []) := by
  have hwf := hs.wellFormed hk
  cases hwf with
  | range =>
      obtain ⟨blank, halloc⟩ := hroom
      obtain ⟨coins, ⟨-, hmade⟩, -⟩ := existsUnique_coins hk (hs.wellFormed hk) halloc
        (Finset.empty_subset _)
      obtain ⟨tree, hrun, -⟩ := hmade []
      exact ⟨_, tree, hrun⟩
  | @sampled size bits hleast hlow horder hwidth hsize =>
      -- the least number of elements, the first ones of the span
      let S := (List.range' bits.start.value.toNat size.start.value.toNat).toFinset
      have hcard : S.card = size.start.value := by
        rw [List.toFinset_card_of_nodup List.nodup_range', List.length_range']
        omega
      have hbounds : ∀ b ∈ S, bits.start.value ≤ b ∧ b < bits.endExcl.value := by
        intro b hb
        have hmem := List.mem_range'_1.mp (List.mem_toFinset.mp hb)
        have hmany := hsize.1.trans hsize.2
        unfold Span.size at hmany
        omega
      have hfits : S.card ≤ Datum.memory := by
        obtain ⟨made, hmade⟩ := hchoose
        have hmost := Datum.le_memory_of_sized hmade
        have horder := hsize.1
        omega
      obtain ⟨entries, tree, hrun, -⟩ := exists_tape_sampled hk hs hroom hbounds
        (Int.le_of_eq hcard.symm) (hcard ▸ hsize.1) hfits
      exact ⟨entries, tree, hrun⟩

end Strategy

/-- A strategy that could be made generates a tree from every source, unless the source fails to
deliver: there is no other fault, as long as its values can be allocated, and over words also the
list of their bits. From some tape it does generate one. -/
theorem Strategy.newTreeFrom_total [Memory] {k : Kind} (hk : k.IsStandard) {s : Strategy}
    (hs : s.MadeOver k) (hroom : s.HasRoom) (hchoose : k.width? ≠ none → s.RoomToChoose) :
    (∀ source, (∃ tree left, s.newTreeFrom (.source source) = (.ok tree, .source left) ∧
        s.Fresh k tree) ∨
      ∃ fault left, s.newTreeFrom (.source source) = (.error fault, .source left) ∧
        Source.Spent fault left) ∧
    ∃ entries tree, s.newTreeFrom (.source (.tape entries)) = (.ok tree, .source (.tape [])) := by
  have hwf := hs.wellFormed hk
  have hchoose : s.RoomToChoose := by
    by_cases hgrows : k.width? = none
    · exact hroom.roomToChoose hk hgrows hwf
    · exact hchoose hgrows
  have hfrom : ∀ source, s.newTreeFrom (.source source) =
      ((s.newTree.run source).1, .source (s.newTree.run source).2) := fun source => rfl
  constructor
  · intro source
    have hends := (newTree_takes hk hs hroom hchoose).ends source
    rw [hfrom]
    cases hrun : s.newTree.run source with
    | mk outcome left =>
        rw [hrun] at hends
        cases hends with
        | ok tree _ => exact .inl ⟨tree, left, rfl, (newTree_returns hk hwf).of_run hrun⟩
        | error hspent => exact .inr ⟨_, left, rfl, hspent⟩
  · obtain ⟨entries, tree, hrun⟩ := exists_tape_newTree hk hs hroom hchoose
    refine ⟨entries, tree, ?_⟩
    rw [hfrom, hrun]

attribute [local instance] Memory.small

/-- All eight bits of a signed byte are sampled, the sign among them. A tape with a position in the
pool for each of them is enough, and one of three entries runs dry. -/
theorem Strategy.newTreeFrom_full_byte :
    let size : Span Numeral := ⟨.plain 8, .plain 9⟩
    let bits : Span Numeral := ⟨.plain 0, .plain 8⟩
    let s : Strategy := .sampled (.word .i8) size bits
    let tree : ValueTree := ⟨.word .i8, .int (-1), .int 0, none, .int 8⟩
    Strategy.ofSize (.kind (.word .i8)) (.int 8) (.range 0 8 1) = .ok s ∧ s.HasRoom ∧
      s.RoomToChoose ∧
      s.newTreeFrom (.source (.tape [7, 2, 5, 0, 3, 1, 1, 0])) =
        (.ok tree, .source (.tape [])) ∧
      s.newTreeFrom (.source (.tape [7, 2, 5])) = (.error .dry, .source (.tape [])) ∧
      (∀ source, (∃ tree left, s.newTreeFrom (.source source) = (.ok tree, .source left) ∧
          s.Fresh (.word .i8) tree) ∨
        ∃ fault left, s.newTreeFrom (.source source) = (.error fault, .source left) ∧
          Source.Spent fault left) ∧
      ∃ entries tree,
        s.newTreeFrom (.source (.tape entries)) = (.ok tree, .source (.tape [])) := by
  intro size bits s tree
  have hmade : Strategy.ofSize (.kind (.word .i8)) (.int 8) (.range 0 8 1) = .ok s := rfl
  have hroom : s.HasRoom := ⟨.int 0, rfl⟩
  have hchoose : s.RoomToChoose := ⟨8, rfl⟩
  have htree : s.newTreeFrom (.source (.tape [7, 2, 5, 0, 3, 1, 1, 0])) =
      (.ok tree, .source (.tape [])) := by
    unfold s size bits
    rfl
  have hdry : s.newTreeFrom (.source (.tape [7, 2, 5])) = (.error .dry, .source (.tape [])) := by
    unfold s size bits
    rfl
  exact ⟨hmade, hroom, hchoose, htree, hdry,
    newTreeFrom_total (k := .word .i8) trivial (.ofSize hmade) hroom fun _ => hchoose⟩

end FlagSets
