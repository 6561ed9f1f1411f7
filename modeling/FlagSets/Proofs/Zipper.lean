import FlagSets.Proofs.Steps

/-!
# Value trees as zippers

Seen from outside, a value tree is a set of bits with a list of those it has yet to look at: no
representation, no cursor, and no clear bit to skip. `simplify` takes the head off the list and out
of the set, and keeps it pending; `complicate` puts it back. A floor on the size of the set stops
`simplify` before it looks at the list.

The view of a tree forgets everything else, and each step of the tree is the step of the zipper on
its view. What carries this is that the list is always made of the set bits from the cursor on, and
that the pending bit lies just before it: putting it back changes the set but not the list.

## Main results

* `Shows.simplify`, `Shows.complicate` : a step of the tree is a step of the zipper it shows.
* `Shows.play` : so is a run of any steps in any order.
* `play_ofValue_eq_zipper` : a fresh tree answers every run as the zipper of its set bits does.
-/

namespace FlagSets

/-- A set of bits, the one that was taken out last and may be put back, and the list of those that
may still be taken out. -/
structure Zipper where
  held : Finset Nat
  pending : Option Nat
  rest : List Nat

/-- The two calls that change a value tree. -/
inductive Move
  | simplify
  | complicate

namespace Zipper

/-- Takes the next bit out, if the set is larger than the floor. At the end of the list the pending
bit can no longer be put back. -/
def simplify (floor : Int) (z : Zipper) : Bool × Zipper :=
  if (z.held.card : Int) ≤ floor then (false, z)
  else match z.rest with
    | [] => (false, { z with pending := none })
    | b :: rest => (true, ⟨z.held.erase b, some b, rest⟩)

theorem simplify_of_card_le {floor : Int} {z : Zipper} (h : (z.held.card : Int) ≤ floor) :
    z.simplify floor = (false, z) := if_pos h

theorem simplify_nil {floor : Int} {held : Finset Nat} (h : floor < held.card)
    (pending : Option Nat) : simplify floor ⟨held, pending, []⟩ = (false, ⟨held, none, []⟩) :=
  if_neg (Int.not_le.mpr h)

theorem simplify_cons {floor : Int} {held : Finset Nat} (h : floor < held.card)
    (pending : Option Nat) (b : Nat) (rest : List Nat) :
    simplify floor ⟨held, pending, b :: rest⟩ = (true, ⟨held.erase b, some b, rest⟩) :=
  if_neg (Int.not_le.mpr h)

/-- Puts the pending bit back. -/
def complicate (z : Zipper) : Bool × Zipper :=
  match z.pending with
  | none => (false, z)
  | some b => (true, { z with held := insert b z.held, pending := none })

/-- One call. -/
def move (floor : Int) (z : Zipper) : Move → Bool × Zipper
  | .simplify => z.simplify floor
  | .complicate => z.complicate

/-- The answers of several calls, and the zipper after them. -/
def play (floor : Int) : List Move → Zipper → List Bool × Zipper
  | [], z => ([], z)
  | m :: ms, z =>
    let (answer, after) := z.move floor m
    let (answers, last) := play floor ms after
    (answer :: answers, last)

end Zipper

namespace ValueTree

/-- One call. -/
def move [Memory] : Move → TreeStep Bool
  | .simplify => simplify
  | .complicate => complicate

/-- Several calls in turn, with their answers. -/
def play [Memory] : List Move → TreeStep (List Bool)
  | [] => return []
  | m :: ms => do
    let answer ← move m
    let answers ← play ms
    return answer :: answers

/-- The number of set bits below which nothing is cleared. -/
def least (t : ValueTree) : Int := t.floor.integer?.getD 0

/-- A tree as a zipper. -/
def view (t : ValueTree) : Zipper where
  held := t.kind.bitsOf t.held
  pending := t.undo.map Datum.index
  rest := t.kind.bitsFrom t.held t.cursor.index

/-- A tree over a value of its kind, at a position and with a number for its floor. What can be
undone is the bit just before the cursor, and it is clear. -/
inductive Sound : ValueTree → Prop
  | fresh {k : Kind} {v : Datum} {c m : Numeral} (hv : k.IsValue v) (hc : 0 ≤ c.value) :
      Sound ⟨k, v, .num c, none, .num m⟩
  | noted {k : Kind} {v : Datum} {c d m : Numeral} (hv : k.IsValue v) (hd : 0 ≤ d.value)
      (hlt : d.value < k.capacity v) (hnext : c.value = d.value + 1)
      (hclear : k.has v d.value.toNat = false) : Sound ⟨k, v, .num c, some (.num d), .num m⟩

theorem Sound.isValue {t : ValueTree} (h : t.Sound) : t.kind.IsValue t.held := by
  cases h with
  | fresh hv _ => exact hv
  | noted hv _ _ _ _ => exact hv

/-- A sound tree has numerals for its cursor and its floor. -/
private theorem Sound.exists_eq {t : ValueTree} (h : t.Sound) :
    ∃ c m : Numeral, 0 ≤ c.value ∧ t = ⟨t.kind, t.held, .num c, t.undo, .num m⟩ := by
  cases h with
  | fresh _ hc => exact ⟨_, _, hc, rfl⟩
  | noted _ hd _ hnext _ => exact ⟨_, _, by omega, rfl⟩

/-- What a tree is seen as. -/
private theorem view_mk (k : Kind) (v : Datum) (c m : Numeral) (undo : Option Datum) :
    view ⟨k, v, .num c, undo, .num m⟩ =
      ⟨k.bitsOf v, undo.map Datum.index, k.bitsFrom v c.value.toNat⟩ := rfl

/-- A sound tree over a kind, with a floor, that is seen as a zipper. -/
structure Shows (k : Kind) (floor : Int) (z : Zipper) (t : ValueTree) : Prop where
  sound : t.Sound
  kind_eq : t.kind = k
  least_eq : t.least = floor
  view_eq : t.view = z

namespace Shows

variable {k : Kind} {floor : Int} {z : Zipper} {t : ValueTree}

/-- A tree over a value shows the bits of the value. -/
theorem ofValue {v : Datum} (hv : k.IsValue v) {start : Numeral} (hstart : 0 ≤ start.value)
    (m : Numeral) :
    (ValueTree.ofValue k v (.num start) (.num m)).Shows k m.value
      ⟨k.bitsOf v, none, k.bitsFrom v start.value.toNat⟩ :=
  ⟨.fresh hv hstart, rfl, rfl, rfl⟩

/-- The tree holds the set of the zipper. -/
theorem bitsOf_held (h : t.Shows k floor z) : k.bitsOf t.held = z.held := by
  rw [← h.view_eq, ← h.kind_eq]
  rfl

/-- `simplify` on a tree is `simplify` on the zipper that it shows. -/
theorem simplify (h : t.Shows k floor z) :
    ∃ t', ValueTree.simplify.run t = (.ok (z.simplify floor).1, t') ∧
      t'.Shows k floor (z.simplify floor).2 := by
  obtain ⟨hsound, rfl, rfl, rfl⟩ := h
  have hv := hsound.isValue
  obtain ⟨c, m, hc, ht⟩ := hsound.exists_eq
  obtain ⟨k, v, _, undo, _⟩ := t
  cases ht
  change k.IsValue v at hv
  show ∃ t', ValueTree.simplify.run _ = (.ok (Zipper.simplify m.value _).1, t') ∧
    t'.Shows k m.value (Zipper.simplify m.value _).2
  rw [view_mk]
  by_cases hcard : ((k.bitsOf v).card : Int) ≤ m.value
  · rw [Zipper.simplify_of_card_le hcard]
    exact ⟨_, simplify_at_floor hv _ undo hcard, hsound, rfl, rfl, rfl⟩
  · have habove := Int.not_le.mp hcard
    cases hlist : k.bitsFrom v c.value.toNat with
    | nil =>
        obtain ⟨d, hd, hrun⟩ := simplify_at_end hv undo hc habove hlist
        rw [Zipper.simplify_nil habove]
        refine ⟨_, hrun, .fresh hv (by omega), rfl, rfl, ?_⟩
        rw [view_mk, Kind.bitsFrom_of_capacity_le (by omega)]
        rfl
    | cons b rest =>
        obtain ⟨d, hd, hrun⟩ := simplify_at_bit hv undo hc habove hlist
        obtain ⟨-, hset, hrest⟩ := Kind.of_bitsFrom_eq_cons hlist
        have hlt := hv.lt_capacity hset
        have hindex : d.value.toNat = b := by omega
        rw [Zipper.simplify_cons habove]
        refine ⟨_, hrun, .noted (hv.without b) (by omega) ?_ ?_ ?_, rfl, rfl, ?_⟩
        · rw [hv.capacity_without]
          omega
        · rw [Numeral.value_plain, hd]
        · rw [hindex, hv.has_without, bne_self_eq_false, Bool.false_and]
        · show view ⟨k, _, .num (.plain (b + 1)), some (.num d), .num m⟩ = _
          rw [view_mk, hv.bitsOf_without, Numeral.value_plain, Int.toNat_natCast_add_one,
            hv.bitsFrom_without, ← hrest]
          show (⟨_, some d.value.toNat, _⟩ : Zipper) = _
          rw [hindex]

variable [Memory]

/-- `complicate` on a tree is `complicate` on the zipper that it shows. -/
theorem complicate (h : t.Shows k floor z) :
    ∃ t', ValueTree.complicate.run t = (.ok z.complicate.1, t') ∧
      t'.Shows k floor z.complicate.2 := by
  obtain ⟨hsound, rfl, rfl, rfl⟩ := h
  cases hsound with
  | fresh hv hc => exact ⟨_, complicate_of_undo_none rfl, .fresh hv hc, rfl, rfl, rfl⟩
  | @noted k v c d m hv hd hlt hnext _ =>
      have hbit : d.value.toNat < k.capacity v := by omega
      have hrest : k.bitsFrom (k.adding v d.value.toNat) c.value.toNat =
          k.bitsFrom v c.value.toNat := by
        apply Kind.bitsFrom_congr (hv.capacity_adding hbit)
        intro i hi
        rw [hv.has_adding hbit, beq_eq_false_iff_ne.mpr (by omega), Bool.false_or]
      refine ⟨_, complicate_noted hv _ _ hd hlt, .fresh (hv.adding hbit) (by omega), rfl, rfl, ?_⟩
      rw [view_mk, view_mk, hv.bitsOf_adding hbit, hrest]
      rfl

/-- A run of a tree is a run of the zipper that it shows. -/
theorem play (h : t.Shows k floor z) (moves : List Move) :
    ∃ t', (ValueTree.play moves).run t = (.ok (Zipper.play floor moves z).1, t') ∧
      t'.Shows k floor (Zipper.play floor moves z).2 := by
  induction moves generalizing t z with
  | nil => exact ⟨t, rfl, h⟩
  | cons m ms ih =>
      have hstep : ∃ t', (ValueTree.move m).run t = (.ok (z.move floor m).1, t') ∧
          t'.Shows k floor (z.move floor m).2 := by
        cases m with
        | simplify => exact h.simplify
        | complicate => exact h.complicate
      obtain ⟨t₁, hrun₁, h₁⟩ := hstep
      obtain ⟨t₂, hrun₂, h₂⟩ := ih h₁
      refine ⟨t₂, ?_, h₂⟩
      simp only [ValueTree.play, Step.run_bind, hrun₁, hrun₂, Step.run_pure]
      rfl

end Shows

/-- A fresh tree over any value of a kind answers every run of calls as the zipper of its set bits
does, and holds the same set of bits after it. -/
theorem play_ofValue_eq_zipper [Memory] {k : Kind} (hk : k.IsStandard) {v : Datum} {name : String}
    (hv : k.requireValue v name = .ok ()) {start : Numeral} (hstart : 0 ≤ start.value)
    (floor : Numeral) (moves : List Move) :
    let played := Zipper.play floor.value moves
      ⟨k.bitsOf v, none, k.bitsFrom v start.value.toNat⟩
    ∃ t w, (play moves).run (.ofValue k v (.num start) (.num floor)) = (.ok played.1, t) ∧
      t.current = .ok w ∧ k.bitsOf w = played.2.held := by
  have hvalue := (Kind.requireValue_eq_ok_iff hk).mp hv
  obtain ⟨t, hrun, ht⟩ := (Shows.ofValue hvalue hstart floor).play moves
  exact ⟨t, t.held, hrun, ht.sound.isValue.copy_eq, ht.bitsOf_held⟩

attribute [local instance] Memory.small

/-- A negative byte with bits on both sides of the cursor, played past its floor and back. -/
theorem play_negative_byte :
    let moves : List Move :=
      [.simplify, .complicate, .simplify, .simplify, .simplify, .complicate, .complicate]
    (Kind.word .i8).IsStandard ∧ (Kind.word .i8).requireValue (.int (-76)) "mask" = .ok () ∧
      0 ≤ (Numeral.plain 3).value ∧
      ∃ t w, (play moves).run (.ofValue (.word .i8) (.int (-76)) (.int 3) (.int 2)) =
          (.ok [true, true, true, true, false, true, false], t) ∧
        t.current = .ok w ∧ (Kind.word .i8).bitsOf w = {2, 4, 7} := by
  intro moves
  have hvalue : (Kind.word .i8).requireValue (.int (-76)) "mask" = .ok () := rfl
  have hstart : 0 ≤ (Numeral.plain 3).value := by decide
  have hrun := play_ofValue_eq_zipper (k := .word .i8) trivial hvalue hstart (.plain 2) moves
  have hanswers : (Zipper.play 2 moves ⟨(Kind.word .i8).bitsOf (.int (-76)), none,
      (Kind.word .i8).bitsFrom (.int (-76)) 3⟩).1 =
        [true, true, true, true, false, true, false] := by decide
  have hheld : (Zipper.play 2 moves ⟨(Kind.word .i8).bitsOf (.int (-76)), none,
      (Kind.word .i8).bitsFrom (.int (-76)) 3⟩).2.held = {2, 4, 7} := by decide
  exact ⟨trivial, hvalue, hstart, hanswers ▸ hheld ▸ hrun⟩

end ValueTree

end FlagSets
