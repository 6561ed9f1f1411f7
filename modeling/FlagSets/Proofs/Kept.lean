import FlagSets.Proofs.Zipper
import Mathlib.Data.Finset.Filter

/-!
# What every run of a tree keeps

A tree remembers very little of the value it started from, and yet no run of its two calls can lose
that value: bits are only ever cleared at the cursor, the cursor only moves on, and what can be put
back is the bit that was cleared last. The invariant says how far the tree has come, and that
everything at or after the cursor, and everything before the start, is as it was.

The number of set bits is no measure of progress, since putting a bit back raises it again. What
falls with each successful `simplify`, and never rises, is the number of bits of the first value
that the cursor has not passed. A loop that simplifies until the answer is false therefore ends,
whatever is put back in between.

## Main results

* `Kept.simplify_cases`, `Kept.complicate_cases` : each call succeeds, keeps the invariant, and does
  not move the cursor back.
* `Kept.play` : so does a run, and each successful `simplify` in it passes a bit of the first value.
* `play_ofValue_kept` : what holds after every run of a fresh tree.
-/

namespace FlagSets

/-- Whether a call with its answer has cleared a bit. -/
def Move.cleared : Move → Bool → Bool
  | .simplify, answer => answer
  | .complicate, _ => false

/-- Whether a call is `simplify`. -/
def Move.isSimplify : Move → Bool
  | .simplify => true
  | .complicate => false

namespace ValueTree

/-- The position of the cursor. -/
def position (t : ValueTree) : Int := t.cursor.integer?.getD 0

@[simp] theorem position_mk (k : Kind) (v : Datum) (c : Numeral) (undo : Option Datum)
    (floor : Datum) : position ⟨k, v, .num c, undo, floor⟩ = c.value := rfl

/-- What a tree keeps that started from a value, at a position and with a floor. -/
structure Kept (k : Kind) (v : Datum) (start floor : Numeral) (t : ValueTree) : Prop where
  kind_eq : t.kind = k
  floor_eq : t.floor = .num floor
  cursor_eq : ∃ c : Numeral, t.cursor = .num c
  checked : ∀ name, k.requireValue t.held name = .ok ()
  length_eq : k.length t.held = k.length v
  start_le : start.value ≤ t.position
  position_le : t.position ≤ max start.value (k.capacity v)
  untouched : ∀ b : Nat, t.position ≤ b ∨ b < start.value →
    (b ∈ k.bitsOf t.held ↔ b ∈ k.bitsOf v)
  subset : k.bitsOf t.held ⊆ k.bitsOf v
  least_le : min ((k.bitsOf v).card : Int) floor.value ≤ (k.bitsOf t.held).card
  undo_eq : ∀ d ∈ t.undo, ∃ (n : Numeral) (b : Nat), d = .num n ∧ n.value = b ∧
    (b : Int) = t.position - 1 ∧ b ∈ k.bitsOf v ∧ b ∉ k.bitsOf t.held

/-- The bits of a value at or after a position. -/
def ahead (k : Kind) (v : Datum) (position : Int) : Finset Nat :=
  (k.bitsOf v).filter fun b : Nat => position ≤ b

section Ahead

variable {k : Kind} {v : Datum} {p q : Int}

/-- Bits are looked for below the capacity only. -/
private theorem lt_capacity_of_mem_bitsOf {b : Nat} (h : b ∈ k.bitsOf v) : b < k.capacity v := by
  rw [Kind.bitsOf, List.mem_toFinset, Kind.bitsFrom, List.mem_filter, List.mem_range'_1] at h
  omega

theorem ahead_subset (h : p ≤ q) : ahead k v q ⊆ ahead k v p := by
  intro b hb
  rw [ahead, Finset.mem_filter] at hb ⊢
  exact ⟨hb.1, h.trans hb.2⟩

/-- A bit that is passed is no longer ahead. -/
theorem card_ahead_lt {b : Nat} (hb : b ∈ k.bitsOf v) (hp : p ≤ b) (hq : (b : Int) < q) :
    (ahead k v q).card < (ahead k v p).card := by
  apply Finset.card_lt_card
  refine Finset.ssubset_iff_subset_ne.mpr ⟨ahead_subset (by omega), ?_⟩
  intro heq
  have hmem : b ∈ ahead k v q := by
    rw [heq, ahead, Finset.mem_filter]
    exact ⟨hb, hp⟩
  rw [ahead, Finset.mem_filter] at hmem
  omega

end Ahead

namespace Kept

variable {k : Kind} {v : Datum} {start floor : Numeral} {t : ValueTree}

/-- A fresh tree is at its start. -/
theorem ofValue (hk : k.IsStandard) (hv : k.IsValue v) :
    Kept k v start floor (.ofValue k v (.num start) (.num floor)) where
  kind_eq := rfl
  floor_eq := rfl
  cursor_eq := ⟨start, rfl⟩
  checked _ := (Kind.requireValue_eq_ok_iff hk).mpr hv
  length_eq := rfl
  start_le := Int.le_refl start.value
  position_le := Int.le_max_left _ _
  untouched _ _ := Iff.rfl
  subset := Finset.Subset.refl _
  least_le := Int.min_le_left _ _
  undo_eq _ hd := nomatch hd

theorem isValue (hk : k.IsStandard) (h : t.Kept k v start floor) : k.IsValue t.held :=
  (Kind.requireValue_eq_ok_iff hk).mp (h.checked "value")

/-- The value has the length it had. -/
private theorem capacity_eq (h : t.Kept k v start floor) : k.capacity t.held = k.capacity v := by
  rw [Kind.capacity, Kind.capacity, h.length_eq]

/-- `simplify` succeeds and keeps to the value it started from. It leaves the value alone and does
not move the cursor back, or it clears and notes a set bit at or after the cursor, and moves the
cursor behind it. -/
theorem simplify_cases (hk : k.IsStandard) (hstart : 0 ≤ start.value) (h : t.Kept k v start floor) :
    (∃ t', ValueTree.simplify.run t = (.ok false, t') ∧ t'.Kept k v start floor ∧
        t'.held = t.held ∧ t.position ≤ t'.position) ∨
      ∃ (b : Nat) (d : Numeral) (t' : ValueTree), k.has t.held b = true ∧ t.position ≤ b ∧
        d.value = b ∧
        t' = ⟨k, k.without t.held b, .num (.plain (b + 1)), some (.num d), .num floor⟩ ∧
        ValueTree.simplify.run t = (.ok true, t') ∧ t'.Kept k v start floor := by
  have hv := h.isValue hk
  have hcap := h.capacity_eq
  obtain ⟨k, u, _, undo, _⟩ := t
  have hkept := h
  obtain ⟨rfl, rfl, ⟨c, rfl⟩, hchecked, hlength, hle, hend, huntouched, hsub, hleast, hundo⟩ := h
  simp only [position_mk] at *
  by_cases hcard : ((k.bitsOf u).card : Int) ≤ floor.value
  · -- at the floor nothing changes, not even what can be undone
    exact .inl ⟨_, simplify_at_floor hv _ undo hcard, hkept, rfl, Int.le_refl _⟩
  have habove := Int.not_le.mp hcard
  have hc : 0 ≤ c.value := hstart.trans hle
  cases hlist : k.bitsFrom u c.value.toNat with
  | nil =>
      obtain ⟨d, hd, hrun⟩ := simplify_at_end hv undo hc habove hlist
      have hmove : c.value ≤ d.value := by omega
      refine .inl ⟨_, hrun, ?_, rfl, hmove⟩
      exact {
        hkept with
        cursor_eq := ⟨d, rfl⟩
        start_le := hle.trans hmove
        position_le := by
          rw [position_mk]
          omega
        untouched := fun b hb => huntouched b (hb.imp_left hmove.trans)
        undo_eq := nofun }
  | cons b rest =>
      obtain ⟨d, hd, hrun⟩ := simplify_at_bit hv undo hc habove hlist
      obtain ⟨hcb, hset, -⟩ := Kind.of_bitsFrom_eq_cons hlist
      have hlt := hv.lt_capacity hset
      have hmem : b ∈ k.bitsOf u := hv.mem_bitsOf.mpr hset
      have hleft := hv.bitsOf_without b
      refine .inr ⟨b, d, _, hset, by omega, hd, rfl, hrun, ?_⟩
      refine ⟨rfl, rfl, ⟨.plain (b + 1), rfl⟩, fun _ => ?_, ?_, ?_, ?_, ?_, ?_, ?_, ?_⟩
      · exact (Kind.requireValue_eq_ok_iff hk).mpr (hv.without b)
      · rw [← hlength, (hv.without b).length_eq, hv.capacity_without, hv.length_eq]
      · show start.value ≤ b + 1
        omega
      · show (b : Int) + 1 ≤ _
        omega
      · intro i hi
        change (b : Int) + 1 ≤ i ∨ (i : Int) < start.value at hi
        rw [hleft, Finset.mem_erase, huntouched i (by omega)]
        exact and_iff_right (by omega)
      · rw [hleft]
        exact (Finset.erase_subset b _).trans hsub
      · rw [hleft, Finset.card_erase_of_mem hmem]
        omega
      · intro e he
        obtain rfl := Option.some.inj he
        refine ⟨d, b, rfl, hd, ?_, hsub hmem, ?_⟩
        · show (b : Int) = b + 1 - 1
          omega
        · rw [hleft]
          exact Finset.notMem_erase b _

/-- `simplify` does not move the cursor back, and moves it past a bit of the value that the tree
started from if it clears one. -/
theorem simplify (hk : k.IsStandard) (hstart : 0 ≤ start.value) (h : t.Kept k v start floor) :
    ∃ answer t', ValueTree.simplify.run t = (.ok answer, t') ∧ t'.Kept k v start floor ∧
      t.position ≤ t'.position ∧
      answer.toNat + (ahead k v t'.position).card ≤ (ahead k v t.position).card := by
  obtain ⟨t', hrun, hkept, -, hmove⟩ | ⟨b, d, t', hset, hpos, -, rfl, hrun, hkept⟩ :=
    h.simplify_cases hk hstart
  · refine ⟨false, t', hrun, hkept, hmove, ?_⟩
    rw [Bool.toNat_false, Nat.zero_add]
    exact Finset.card_le_card (ahead_subset hmove)
  · have hmem : b ∈ k.bitsOf v := h.subset ((h.isValue hk).mem_bitsOf.mpr hset)
    refine ⟨true, _, hrun, hkept, ?_, ?_⟩
    · rw [position_mk, Numeral.value_plain]
      omega
    · rw [Bool.toNat_true, Nat.add_comm]
      exact card_ahead_lt hmem hpos (Int.lt_succ b)

variable [Memory]

/-- `complicate` succeeds and keeps to the value it started from, without moving the cursor. It
leaves the tree alone, or it sets a bit for which there is room. -/
theorem complicate_cases (hk : k.IsStandard) (h : t.Kept k v start floor) :
    ValueTree.complicate.run t = (.ok false, t) ∨
      ∃ b < k.capacity t.held, ∃ t', ValueTree.complicate.run t = (.ok true, t') ∧
        t'.held = k.adding t.held b ∧ t'.Kept k v start floor ∧ t'.position = t.position := by
  have hv := h.isValue hk
  have hcap := h.capacity_eq
  obtain ⟨k, u, _, undo, _⟩ := t
  cases undo with
  | none => exact .inl (complicate_of_undo_none rfl)
  | some e =>
      have hkept := h
      obtain ⟨rfl, rfl, ⟨c, rfl⟩, hchecked, hlength, hle, hend, huntouched, hsub, hleast, hundo⟩ :=
        h
      obtain ⟨d, b, rfl, hd, hpos, hmem, hclear⟩ := hundo e rfl
      simp only [position_mk] at *
      have hnat : d.value.toNat = b := by omega
      have hb : b < k.capacity u := by
        rw [hcap]
        exact lt_capacity_of_mem_bitsOf hmem
      have hstart : ¬ (b : Int) < start.value := fun hlt =>
        hclear ((huntouched b (.inr hlt)).mpr hmem)
      have hback := hv.bitsOf_adding hb
      have hrun := complicate_noted hv (.num c) (.num floor) (by omega) (by omega : d.value < _)
      rw [hnat] at hrun
      refine .inr ⟨b, hb, _, hrun, rfl, ?_, rfl⟩
      exact {
        hkept with
        checked := fun _ => (Kind.requireValue_eq_ok_iff hk).mpr (hv.adding hb)
        length_eq := by
          rw [← hlength, (hv.adding hb).length_eq, hv.capacity_adding hb, hv.length_eq]
        untouched := by
          intro i hi
          rw [position_mk] at hi
          rw [hback, Finset.mem_insert, huntouched i hi]
          exact or_iff_right (by omega)
        subset := by
          rw [hback]
          exact Finset.insert_subset hmem hsub
        least_le := by
          rw [hback, Finset.card_insert_of_notMem hclear]
          omega
        undo_eq := nofun }

/-- `complicate` does not move the cursor. -/
theorem complicate (hk : k.IsStandard) (h : t.Kept k v start floor) :
    ∃ answer t', ValueTree.complicate.run t = (.ok answer, t') ∧ t'.Kept k v start floor ∧
      t'.position = t.position := by
  obtain hrun | ⟨b, -, t', hrun, -, hkept, hpos⟩ := h.complicate_cases hk
  · exact ⟨false, t, hrun, h, rfl⟩
  · exact ⟨true, t', hrun, hkept, hpos⟩

/-- Every call succeeds, and passes a bit of the value it started from if it clears one. -/
theorem move (hk : k.IsStandard) (hstart : 0 ≤ start.value) (h : t.Kept k v start floor)
    (m : Move) :
    ∃ answer t', (ValueTree.move m).run t = (.ok answer, t') ∧ t'.Kept k v start floor ∧
      t.position ≤ t'.position ∧
      (m.cleared answer).toNat + (ahead k v t'.position).card ≤ (ahead k v t.position).card := by
  cases m with
  | simplify => exact h.simplify hk hstart
  | complicate =>
      obtain ⟨answer, t', hrun, h', hpos⟩ := h.complicate hk
      refine ⟨answer, t', hrun, h', Int.le_of_eq hpos.symm, ?_⟩
      rw [hpos, Move.cleared, Bool.toNat_false, Nat.zero_add]

/-- Every run succeeds, and passes a bit of the value it started from each time it clears one. -/
theorem play (hk : k.IsStandard) (hstart : 0 ≤ start.value) (h : t.Kept k v start floor)
    (moves : List Move) :
    ∃ answers t', (ValueTree.play moves).run t = (.ok answers, t') ∧
      answers.length = moves.length ∧ t'.Kept k v start floor ∧ t.position ≤ t'.position ∧
      (moves.zip answers).countP (fun call => call.1.cleared call.2) +
        (ahead k v t'.position).card ≤ (ahead k v t.position).card := by
  induction moves generalizing t with
  | nil => exact ⟨[], t, rfl, rfl, h, Int.le_refl _, by simp⟩
  | cons m ms ih =>
      obtain ⟨answer, t₁, hrun₁, h₁, hpos₁, hcount₁⟩ := h.move hk hstart m
      obtain ⟨answers, t₂, hrun₂, hlen, h₂, hpos₂, hcount₂⟩ := ih h₁
      refine ⟨answer :: answers, t₂, ?_, by rw [List.length_cons, hlen, List.length_cons], h₂,
        hpos₁.trans hpos₂, ?_⟩
      · simp only [ValueTree.play, Step.run_bind, hrun₁, hrun₂, Step.run_pure]
      · rw [List.zip_cons_cons, List.countP_cons]
        cases hcleared : m.cleared answer <;> simp [hcleared] at hcount₁ ⊢ <;> omega

end Kept

/-- Calls that were never answered with false by `simplify` cleared a bit each time. -/
private theorem countP_isSimplify_le {moves : List Move} {answers : List Bool}
    (hlen : answers.length = moves.length) (h : (Move.simplify, false) ∉ moves.zip answers) :
    moves.countP Move.isSimplify ≤
      (moves.zip answers).countP fun call => call.1.cleared call.2 := by
  induction moves generalizing answers with
  | nil => exact Nat.le_refl 0
  | cons m ms ih =>
      obtain _ | ⟨answer, answers⟩ := answers
      · cases hlen
      rw [List.zip_cons_cons, List.mem_cons, not_or] at h
      have hrest := ih (Nat.succ.inj hlen) h.2
      rw [List.zip_cons_cons, List.countP_cons, List.countP_cons]
      cases m with
      | complicate => exact Nat.add_le_add_right hrest 0
      | simplify =>
          cases answer with
          | false => exact absurd rfl h.1
          | true => exact Nat.add_le_add_right hrest 1

/-- A run goes on from where its first part ended. -/
private theorem play_append [Memory] (first second : List Move) :
    play (first ++ second) =
      (do
        let passed ← play first
        let answers ← play second
        return passed ++ answers : TreeStep (List Bool)) := by
  induction first with
  | nil => simp [play]
  | cons m ms ih => simp [play, ih]

/-- A fresh tree over any value of a kind answers every run of calls, and keeps to that value: the
cursor never goes back, and each successful `simplify` passes another bit of the value, so that one
of them is answered with false as soon as there are more calls of it than such bits. -/
theorem play_ofValue_kept [Memory] {k : Kind} (hk : k.IsStandard) {v : Datum} {name : String}
    (hv : k.requireValue v name = .ok ()) {start : Numeral} (hstart : 0 ≤ start.value)
    (floor : Numeral) (moves : List Move) :
    let fresh := ValueTree.ofValue k v (.num start) (.num floor)
    let bits := (k.bitsOf v).filter fun b : Nat => start.value ≤ b
    ∃ answers t, (play moves).run fresh = (.ok answers, t) ∧ t.Kept k v start floor ∧
      (∀ n, ∃ passed before, (play (moves.take n)).run fresh = (.ok passed, before) ∧
        before.position ≤ t.position) ∧
      (moves.zip answers).countP (fun call => call.1.cleared call.2) ≤ bits.card ∧
      (bits.card < moves.countP Move.isSimplify → (Move.simplify, false) ∈ moves.zip answers) := by
  intro fresh bits
  have hfresh : fresh.Kept k v start floor := .ofValue hk ((Kind.requireValue_eq_ok_iff hk).mp hv)
  obtain ⟨answers, t, hrun, hlen, ht, -, hcount⟩ := hfresh.play hk hstart moves
  have hbound : (moves.zip answers).countP (fun call => call.1.cleared call.2) ≤ bits.card :=
    Nat.le_of_add_right_le hcount
  refine ⟨answers, t, hrun, ht, ?_, hbound, ?_⟩
  · intro n
    obtain ⟨passed, before, hfirst, -, hbefore, -⟩ := hfresh.play hk hstart (moves.take n)
    obtain ⟨rest, after, hsecond, -, -, hpos, -⟩ := hbefore.play hk hstart (moves.drop n)
    have happend : (play moves).run fresh = (.ok (passed ++ rest), after) := by
      rw [← List.take_append_drop n moves, play_append]
      simp only [Step.run_bind, hfirst, hsecond, Step.run_pure]
    rw [hrun] at happend
    cases happend
    exact ⟨passed, before, hfirst, hpos⟩
  · intro hmany
    by_contra hnone
    have := countP_isSimplify_le hlen hnone
    omega

attribute [local instance] Memory.small

/-- A packed array of three set bits, one of them before the cursor. The floor is met twice, and the
first time what was cleared just before is put back all the same. -/
theorem play_packed_kept :
    let k : Kind := .growable .bitArray
    let v : Datum := .bitArray [false, true, true, false, true]
    let moves : List Move := [.simplify, .simplify, .complicate, .simplify, .simplify]
    let answers := [true, false, true, true, false]
    let last : ValueTree :=
      ⟨k, .bitArray [false, true, true, false, false], .int 5, some (.int 4), .int 2⟩
    k.IsStandard ∧ k.requireValue v "mask" = .ok () ∧ 0 ≤ (Numeral.plain 2).value ∧
      (play moves).run (.ofValue k v (.int 2) (.int 2)) = (.ok answers, last) ∧
      last.Kept k v (.plain 2) (.plain 2) ∧
      (∀ n, ∃ passed before,
        (play (moves.take n)).run (.ofValue k v (.int 2) (.int 2)) = (.ok passed, before) ∧
          before.position ≤ last.position) ∧
      (moves.zip answers).countP (fun call => call.1.cleared call.2) ≤ 2 ∧
      (Move.simplify, false) ∈ moves.zip answers := by
  intro k v moves answers last
  have hvalue : k.requireValue v "mask" = .ok () := rfl
  have hstart : 0 ≤ (Numeral.plain 2).value := by decide
  have hcard : ((k.bitsOf v).filter fun b : Nat => (2 : Int) ≤ b).card = 2 := by decide
  have heval : (play moves).run (.ofValue k v (.int 2) (.int 2)) = (.ok answers, last) := rfl
  obtain ⟨_, _, hrun, hkept, hprefix, hcount, hmany⟩ :=
    play_ofValue_kept (k := k) (.inr rfl) hvalue hstart (.plain 2) moves
  cases heval.symm.trans hrun
  exact ⟨.inr rfl, hvalue, hstart, heval, hkept, hprefix, hcount.trans_eq hcard,
    hmany (hcard.trans_lt (by decide))⟩

end ValueTree

end FlagSets
