import FlagSets.Kind.Operations
import FlagSets.Proofs.Representations
import Mathlib.Data.Finset.Card
import Mathlib.Data.Finset.Insert
import Mathlib.Data.List.Sort

/-!
# Values of the kinds as sets of bits

What a value means is what its kind says about it: a capacity, and for each position below it
whether the bit is set. This module takes both from the kind's own operations and shows that every
standard kind treats a value of its own as that set: looking up is membership, counting is the size
of the set, clearing and setting are removal and insertion, and the capacity stays.

All later arguments about trees, strategies and searches go through these laws, and none of them
looks at a representation again.

## Main results

* `requireValue_eq_ok_iff` : the check on masks accepts exactly the values of a standard kind.
* `IsValue.test_eq`, `IsValue.count_eq` : looking at a value succeeds.
* `IsValue.clear_eq`, `IsValue.set_eq` : so does writing.
* `IsValue.bitsOf_without`, `IsValue.bitsOf_adding` : clearing removes a bit, setting inserts it.
* `IsValue.adding_without` : setting a cleared bit again restores the value.
* `IsValue.adding_comm` : bits can be set in any order.
-/

namespace FlagSets

/-- A datum without the spelling of its number. -/
def Datum.plain : Datum → Datum
  | .num n => .int n.value
  | d => d

/-- The position that a datum stands for. -/
def Datum.index (d : Datum) : Nat := (d.integer?.getD 0).toNat

theorem Datum.map_index_nat (bs : List Nat) : (bs.map Datum.nat).map Datum.index = bs := by
  rw [List.map_map]
  exact bs.map_id

/-- The result of an outcome, or a stand-in where there is none. -/
def Outcome.getD {α : Type} (o : Outcome α) (a : α) : α :=
  match o with
  | .ok x => x
  | .error _ => a

@[simp] theorem Outcome.getD_ok {α : Type} (x a : α) : Outcome.getD (.ok x) a = x := rfl

/-- Two outcomes with related results, or with the same fault. -/
inductive Outcome.Agree {α β : Type} (r : α → β → Prop) : Outcome α → Outcome β → Prop
  | ok {a : α} {b : β} (h : r a b) : Agree r (.ok a) (.ok b)
  | error (fault : Fault) : Agree r (.error fault) (.error fault)

namespace Outcome.Agree

variable {α β γ δ : Type} {r : α → β → Prop} {q : γ → δ → Prop}

theorem bind {o₁ : Outcome α} {o₂ : Outcome β} {f : α → Outcome γ} {g : β → Outcome δ}
    (h : Agree r o₁ o₂) (hnext : ∀ a b, r a b → Agree q (f a) (g b)) :
    Agree q (o₁ >>= f) (o₂ >>= g) := by
  cases h with
  | ok hab => exact hnext _ _ hab
  | error fault => exact .error fault

theorem bind_same (o : Outcome α) {f : α → Outcome γ} {g : α → Outcome δ}
    (hnext : ∀ a, Agree q (f a) (g a)) : Agree q (o >>= f) (o >>= g) := by
  cases o with
  | ok a => exact hnext a
  | error fault => exact .error fault

end Outcome.Agree

namespace Kind

/-- The kinds that come with the library, and words of any other width. They look at a value only
through checked positions, and make as much room as they are asked for. -/
def IsStandard : Kind → Prop
  | word _ => True
  | growable b => b = .boolVec ∨ b = .bitArray
  | varsize b => b = .boolVec ∨ b = .bitArray

instance (k : Kind) : Decidable k.IsStandard :=
  match k with
  | word _ => isTrue trivial
  | growable b => inferInstanceAs (Decidable (b = .boolVec ∨ b = .bitArray))
  | varsize b => inferInstanceAs (Decidable (b = .boolVec ∨ b = .bitArray))

/-- The values of a kind. A growable set is a value of every kind of growable sets, whatever backs
it. -/
inductive IsValue : Kind → Datum → Prop
  | word {w : WordKind} {n : Numeral} (h : w.Represents n.value) : IsValue (.word w) (.num n)
  | bools (bs : List Bool) : IsValue (.growable .boolVec) (.bools bs)
  | bitArray (bs : List Bool) : IsValue (.growable .bitArray) (.bitArray bs)
  | varSet (b : Backing) (s : VarSet) : IsValue (.varsize b) (.varSet s)

/-! ## What a kind says about a value -/

/-- The length that a kind reports for a value, none where it fails. -/
def capacity (k : Kind) (v : Datum) : Nat := (k.length v).getD 0

/-- Whether a kind finds a bit of a value set; where it fails, it does not. -/
def has (k : Kind) (v : Datum) (i : Nat) : Bool :=
  Outcome.getD (do (← k.test v (.nat i)).truthy) false

/-- The bits of a value that are set, from a position on and in ascending order. -/
def bitsFrom (k : Kind) (v : Datum) (start : Nat) : List Nat :=
  (List.range' start (k.capacity v - start)).filter (k.has v)

/-- The set of the bits of a value that are set. -/
def bitsOf (k : Kind) (v : Datum) : Finset Nat := (k.bitsFrom v 0).toFinset

/-- The value with a bit cleared by the kind; one it cannot clear is left as it is. -/
def without (k : Kind) (v : Datum) (i : Nat) : Datum := (k.clear v (.nat i)).getD v

/-- The value with a bit set by the kind; one it cannot set is left as it is. -/
def adding [Memory] (k : Kind) (v : Datum) (i : Nat) : Datum := (k.set v (.nat i)).getD v

/-! ## One representation at a time -/

section Representations

variable (w : WordKind) (n : Numeral) (b : Backing) (s : VarSet) (bs : List Bool) (i : Nat)

/-- A word looks at an integer, however it is spelled. -/
private theorem test_word_num (m : Numeral) (hm : 0 ≤ m.value) :
    (word w).test (.num n) (.num m) = .ok (.bool (w.test n.value m.value.toNat)) :=
  test_word w n.value hm

/-- A position is handed over as a numeral that is not negative. -/
private theorem position_nonneg : 0 ≤ (Numeral.plain (i : Int)).value := Int.natCast_nonneg i

/-- A looked-up flag is what the kind finds. -/
private theorem has_of_test {k : Kind} {v : Datum} {flag : Bool}
    (h : k.test v (.nat i) = .ok (.bool flag)) : k.has v i = flag := by
  unfold has
  rw [h]
  rfl

@[simp] theorem capacity_word (v : Datum) : (word w).capacity v = w.width := rfl

@[simp] theorem capacity_bools : (growable .boolVec).capacity (.bools bs) = bs.length := by
  simp [capacity, length]

@[simp] theorem capacity_bitArray :
    (growable .bitArray).capacity (.bitArray bs) = bs.length := rfl

@[simp] theorem capacity_varSet : (varsize b).capacity (.varSet s) = s.length := rfl

@[simp] theorem has_word : (word w).has (.num n) i = w.test n.value i :=
  has_of_test i (test_word_num w n _ (position_nonneg i))

@[simp] theorem has_bools : (growable .boolVec).has (.bools bs) i = Flags.test bs i :=
  has_of_test i (test_bools bs (position_nonneg i))

@[simp] theorem has_bitArray : (growable .bitArray).has (.bitArray bs) i = Flags.test bs i :=
  has_of_test i (test_bitArray bs (position_nonneg i))

@[simp] theorem has_varSet : (varsize b).has (.varSet s) i = s.test i :=
  has_of_test i (test_varSet b s (position_nonneg i))

/-- A value with a bit cleared is what the kind makes of it. -/
private theorem without_of_clear {k : Kind} {v d : Datum}
    (h : k.clear v (.nat i) = .ok d) : k.without v i = d := by
  rw [without, h]
  rfl

/-- Clearing a bit of a word, however the integer is spelled. -/
private theorem clear_word_num {m : Numeral} (hm : 0 ≤ m.value) (hlt : m.value < w.width) :
    (word w).clear (.num n) (.num m) = .ok (.int (w.clear n.value m.value.toNat)) := by
  have hneg : ¬ m.value < 0 := by omega
  simp [clear, hneg, hlt, Datum.integer?, bind, Except.bind, pure, Except.pure]

/-- Clearing past the width gives the integer back as it was spelled. -/
private theorem clear_word_past {m : Numeral} (hm : 0 ≤ m.value) (hle : ¬ m.value < w.width) :
    (word w).clear (.num n) (.num m) = .ok (.num n) := by
  have hneg : ¬ m.value < 0 := by omega
  simp [clear, hneg, hle, bind, Except.bind, pure, Except.pure]

theorem without_word {i : Nat} (h : i < w.width) :
    (word w).without (.num n) i = .int (w.clear n.value i) :=
  without_of_clear i (clear_word_num w n (position_nonneg i) (Int.ofNat_lt.mpr h))

theorem without_word_past {i : Nat} (h : w.width ≤ i) : (word w).without (.num n) i = .num n :=
  without_of_clear i
    (clear_word_past w n (position_nonneg i) (Int.not_lt.mpr (Int.ofNat_le.mpr h)))

@[simp] theorem without_bools :
    (growable .boolVec).without (.bools bs) i = .bools (Flags.clear bs i) :=
  without_of_clear i (clear_bools bs (position_nonneg i))

@[simp] theorem without_bitArray :
    (growable .bitArray).without (.bitArray bs) i = .bitArray (Flags.clear bs i) :=
  without_of_clear i (clear_bitArray bs (position_nonneg i))

@[simp] theorem without_varSet : (varsize b).without (.varSet s) i = .varSet (s.clear i) :=
  without_of_clear i (clear_varSet b s (position_nonneg i))

/-! ### Setting a bit -/

variable [Memory]

/-- A value with a bit set is what the kind makes of it. -/
private theorem adding_of_set {k : Kind} {v d : Datum}
    (h : k.set v (.nat i) = .ok d) : k.adding v i = d := by
  rw [adding, h]
  rfl

/-- Setting a bit of a word, however the integer is spelled. -/
private theorem set_word_num {m : Numeral} (hm : 0 ≤ m.value) (hlt : m.value < w.width) :
    (word w).set (.num n) (.num m) = .ok (.int (w.set n.value m.value.toNat)) :=
  set_word w n.value hm hlt

/-- A position below a length is one that memory has room for. -/
private theorem room_of_lt {m : Int} {size : Nat} (h : m < size) :
    m + 1 - size ≤ Datum.memory := by omega

theorem adding_word {i : Nat} (h : i < w.width) :
    (word w).adding (.num n) i = .int (w.set n.value i) :=
  adding_of_set i (set_word_num w n (position_nonneg i) (Int.ofNat_lt.mpr h))

theorem adding_bools {i : Nat} (h : i < bs.length) :
    (growable .boolVec).adding (.bools bs) i = .bools (Flags.set bs i) :=
  adding_of_set i (set_bools bs (position_nonneg i) (room_of_lt (Int.ofNat_lt.mpr h)))

theorem adding_bitArray {i : Nat} (h : i < bs.length) :
    (growable .bitArray).adding (.bitArray bs) i = .bitArray (Flags.set bs i) :=
  adding_of_set i (set_bitArray bs (position_nonneg i) (room_of_lt (Int.ofNat_lt.mpr h)))

theorem adding_varSet {i : Nat} (h : i < s.length) :
    (varsize b).adding (.varSet s) i = .varSet (s.set i) :=
  adding_of_set i (set_varSet b s (position_nonneg i) (room_of_lt (Int.ofNat_lt.mpr h)))

end Representations

/-! ## Any value of a kind -/

/-- Bits are listed in ascending order. -/
theorem pairwise_bitsFrom (k : Kind) (v : Datum) (start : Nat) :
    (k.bitsFrom v start).Pairwise (· < ·) :=
  (List.pairwise_lt_range' 1).filter _

theorem nodup_bitsFrom (k : Kind) (v : Datum) (start : Nat) : (k.bitsFrom v start).Nodup :=
  (k.pairwise_bitsFrom v start).imp Nat.ne_of_lt

theorem length_bitsFrom (k : Kind) (v : Datum) : (k.bitsFrom v 0).length = (k.bitsOf v).card :=
  (List.toFinset_card_of_nodup (k.nodup_bitsFrom v 0)).symm

namespace IsValue

variable {k : Kind} {v : Datum}

/-- A set bit lies below the capacity. -/
theorem lt_capacity (h : k.IsValue v) {i : Nat} (hi : k.has v i = true) : i < k.capacity v := by
  cases h with
  | @word w n _ =>
      rw [has_word] at hi
      exact w.lt_width_of_test hi
  | bools bs =>
      rw [has_bools] at hi
      simpa using Flags.lt_length_of_test hi
  | bitArray bs =>
      rw [has_bitArray] at hi
      exact Flags.lt_length_of_test hi
  | varSet b s =>
      rw [has_varSet] at hi
      exact Flags.lt_length_of_test hi

/-- The listed bits are the set ones that do not lie before the start. -/
theorem mem_bitsFrom (h : k.IsValue v) {start i : Nat} :
    i ∈ k.bitsFrom v start ↔ start ≤ i ∧ k.has v i = true := by
  rw [bitsFrom, List.mem_filter, List.mem_range'_1]
  constructor
  · rintro ⟨⟨hle, -⟩, hi⟩
    exact ⟨hle, hi⟩
  · rintro ⟨hle, hi⟩
    have hlt := h.lt_capacity hi
    exact ⟨⟨hle, by omega⟩, hi⟩

/-- A bit belongs to a value when the kind finds it set. -/
theorem mem_bitsOf (h : k.IsValue v) {i : Nat} : i ∈ k.bitsOf v ↔ k.has v i = true := by
  rw [bitsOf, List.mem_toFinset, h.mem_bitsFrom]
  exact ⟨fun hi => hi.2, fun hi => ⟨Nat.zero_le i, hi⟩⟩

/-- There is one listing of the set bits in ascending order. -/
theorem eq_bitsFrom (h : k.IsValue v) {listed : List Nat}
    (hmem : ∀ i, i ∈ listed ↔ k.has v i = true) (hasc : listed.Pairwise (· < ·)) :
    listed = k.bitsFrom v 0 := by
  apply hasc.eq_of_mem_iff (k.pairwise_bitsFrom v 0)
  intro i
  rw [hmem, h.mem_bitsFrom]
  exact ⟨fun hi => ⟨Nat.zero_le i, hi⟩, fun hi => hi.2⟩

/-- As many bits are set as that listing has. -/
private theorem card_bitsOf (h : k.IsValue v) {listed : List Nat}
    (hmem : ∀ i, i ∈ listed ↔ k.has v i = true) (hasc : listed.Pairwise (· < ·)) :
    (k.bitsOf v).card = listed.length := by
  rw [← k.length_bitsFrom v, ← h.eq_bitsFrom hmem hasc]

theorem length_eq (h : k.IsValue v) : k.length v = .ok (k.capacity v) := by
  cases h with
  | word _ => rfl
  | bools bs =>
      rw [capacity_bools]
      exact Datum.length_bools bs
  | bitArray bs => rfl
  | varSet b s => rfl

/-- Looking a bit up is asking whether it is set. -/
theorem test_eq (h : k.IsValue v) {n : Numeral} (hn : 0 ≤ n.value) :
    k.test v (.num n) = .ok (.bool (k.has v n.value.toNat)) := by
  cases h with
  | word _ =>
      rw [has_word]
      exact test_word_num _ _ n hn
  | bools bs =>
      rw [has_bools]
      exact test_bools bs hn
  | bitArray bs =>
      rw [has_bitArray]
      exact test_bitArray bs hn
  | varSet b s =>
      rw [has_varSet]
      exact test_varSet b s hn

/-- Counting gives the number of bits that are set. -/
theorem count_eq (h : k.IsValue v) : k.count v = .ok (k.bitsOf v).card := by
  cases h with
  | @word w n hw =>
      rw [card_bitsOf (.word hw) (fun i => by rw [has_word, w.mem_indices])
        (w.pairwise_indices n.value), w.length_indices]
      rfl
  | bools bs =>
      rw [card_bitsOf (.bools bs) (fun i => by rw [has_bools, Flags.mem_indices])
        (Flags.pairwise_indices bs), Flags.length_indices]
      have hone : (fun y : Datum => y.equal (.int 1)) ∘ Datum.bool = id := by
        funext flag
        cases flag <;> rfl
      show Except.ok ((bs.map Datum.bool).countP _) = _
      rw [List.countP_map, hone, Flags.count, List.count_eq_countP]
      congr 2
      funext flag
      cases flag <;> rfl
  | bitArray bs =>
      rw [card_bitsOf (.bitArray bs) (fun i => by rw [has_bitArray, Flags.mem_indices])
        (Flags.pairwise_indices bs), Flags.length_indices]
      rfl
  | varSet b s =>
      rw [card_bitsOf (.varSet b s) (fun i => by rw [has_varSet, VarSet.mem_indices])
        s.pairwise_indices, VarSet.length_indices]
      rfl

/-- Clearing a bit succeeds at every position. -/
theorem clear_eq (h : k.IsValue v) {n : Numeral} (hn : 0 ≤ n.value) :
    k.clear v (.num n) = .ok (k.without v n.value.toNat) := by
  cases h with
  | @word w m _ =>
      by_cases hlt : n.value < w.width
      · rw [without_word w m (by omega)]
        exact clear_word_num w m hn hlt
      · rw [without_word_past w m (by omega)]
        exact clear_word_past w m hn hlt
  | bools bs =>
      rw [without_bools]
      exact clear_bools bs hn
  | bitArray bs =>
      rw [without_bitArray]
      exact clear_bitArray bs hn
  | varSet b s =>
      rw [without_varSet]
      exact clear_varSet b s hn

/-! ### What clearing changes -/

theorem without (h : k.IsValue v) (i : Nat) : k.IsValue (k.without v i) := by
  cases h with
  | @word w n hw =>
      rcases Nat.lt_or_ge i w.width with hi | hi
      · rw [without_word w n hi]
        exact .word (w.represents_clear n.value hi)
      · rw [without_word_past w n hi]
        exact .word hw
  | bools bs =>
      rw [without_bools]
      exact .bools _
  | bitArray bs =>
      rw [without_bitArray]
      exact .bitArray _
  | varSet b s =>
      rw [without_varSet]
      exact .varSet _ _

/-- Clearing a bit keeps the capacity. -/
theorem capacity_without (h : k.IsValue v) (i : Nat) :
    k.capacity (k.without v i) = k.capacity v := by
  cases h with
  | word _ => rfl
  | bools bs => simp
  | bitArray bs => simp
  | varSet b s =>
      rw [without_varSet]
      exact Flags.length_clear s.bits i

/-- Clearing a bit changes that bit and no other. -/
theorem has_without (h : k.IsValue v) (i j : Nat) :
    k.has (k.without v i) j = (j != i && k.has v j) := by
  cases h with
  | @word w n _ =>
      rcases Nat.lt_or_ge i w.width with hi | hi
      · rw [without_word w n hi, Datum.int, has_word, has_word]
        exact w.test_clear j hi
      · rw [without_word_past w n hi, has_word]
        by_cases hj : j = i
        · rw [hj, w.test_of_width_le hi, Bool.and_false]
        · rw [bne_iff_ne.mpr hj, Bool.true_and]
  | bools bs =>
      rw [without_bools, has_bools, has_bools]
      exact Flags.test_clear bs i j
  | bitArray bs =>
      rw [without_bitArray, has_bitArray, has_bitArray]
      exact Flags.test_clear bs i j
  | varSet b s =>
      rw [without_varSet, has_varSet, has_varSet]
      exact s.test_clear i j

/-- Clearing a bit removes it from the set. -/
theorem bitsOf_without (h : k.IsValue v) (i : Nat) :
    k.bitsOf (k.without v i) = (k.bitsOf v).erase i := by
  ext j
  rw [(h.without i).mem_bitsOf, h.has_without, Finset.mem_erase, h.mem_bitsOf, Bool.and_eq_true,
    bne_iff_ne]

/-- A value with a bit cleared is spelled plainly if the value is. -/
theorem plain_without (h : k.IsValue v) (hp : v.plain = v) (i : Nat) :
    (k.without v i).plain = k.without v i := by
  cases h with
  | @word w n _ =>
      rcases Nat.lt_or_ge i w.width with hi | hi
      · rw [without_word w n hi]
        rfl
      · rw [without_word_past w n hi]
        exact hp
  | bools bs =>
      rw [without_bools]
      rfl
  | bitArray bs =>
      rw [without_bitArray]
      rfl
  | varSet b s =>
      rw [without_varSet]
      rfl

/-! ### Copies and set bits -/

variable [Memory]

theorem copy_eq (h : k.IsValue v) : k.copy v = .ok v := by
  cases h with
  | word _ => rfl
  | bools bs => simp [copy, Datum.lengthHint, Datum.bools, Datum.elements, Datum.length, bind,
      Except.bind, pure, Except.pure]
  | bitArray bs => rfl
  | varSet b s => rfl

/-- Setting a bit succeeds below the capacity. -/
theorem set_eq (h : k.IsValue v) {n : Numeral} (hn : 0 ≤ n.value)
    (hlt : n.value < k.capacity v) :
    k.set v (.num n) = .ok (k.adding v n.value.toNat) := by
  cases h with
  | @word w m _ =>
      rw [capacity_word] at hlt
      rw [adding_word w m (by omega)]
      exact set_word_num w m hn hlt
  | bools bs =>
      rw [capacity_bools] at hlt
      rw [adding_bools bs (by omega)]
      exact set_bools bs hn (room_of_lt hlt)
  | bitArray bs =>
      rw [capacity_bitArray] at hlt
      rw [adding_bitArray bs (by omega)]
      exact set_bitArray bs hn (room_of_lt hlt)
  | varSet b s =>
      rw [capacity_varSet] at hlt
      rw [adding_varSet b s (by omega)]
      exact set_varSet b s hn (room_of_lt hlt)

theorem adding (h : k.IsValue v) {i : Nat} (hi : i < k.capacity v) :
    k.IsValue (k.adding v i) := by
  cases h with
  | @word w n _ =>
      rw [adding_word w n hi]
      exact .word (w.represents_set n.value hi)
  | bools bs =>
      rw [adding_bools bs (by simpa using hi)]
      exact .bools _
  | bitArray bs =>
      rw [adding_bitArray bs hi]
      exact .bitArray _
  | varSet b s =>
      rw [adding_varSet b s hi]
      exact .varSet _ _

/-- Setting a bit below the capacity keeps the capacity. -/
theorem capacity_adding (h : k.IsValue v) {i : Nat} (hi : i < k.capacity v) :
    k.capacity (k.adding v i) = k.capacity v := by
  cases h with
  | word _ => rfl
  | bools bs =>
      rw [capacity_bools] at hi
      rw [adding_bools bs hi, capacity_bools, capacity_bools, Flags.length_set]
      omega
  | bitArray bs =>
      rw [capacity_bitArray] at hi
      rw [adding_bitArray bs hi, capacity_bitArray, capacity_bitArray, Flags.length_set]
      omega
  | varSet b s =>
      rw [capacity_varSet] at hi
      rw [adding_varSet b s hi]
      have hlen := Flags.length_set s.bits i
      show (Flags.set s.bits i).length = s.bits.length
      change i < s.bits.length at hi
      omega

/-- Setting a bit changes that bit and no other. -/
theorem has_adding (h : k.IsValue v) {i : Nat} (hi : i < k.capacity v) (j : Nat) :
    k.has (k.adding v i) j = (j == i || k.has v j) := by
  cases h with
  | @word w n _ =>
      rw [adding_word w n hi, Datum.int, has_word, has_word]
      exact w.test_set j hi
  | bools bs =>
      rw [adding_bools bs (by simpa using hi), has_bools, has_bools]
      exact Flags.test_set bs i j
  | bitArray bs =>
      rw [adding_bitArray bs hi, has_bitArray, has_bitArray]
      exact Flags.test_set bs i j
  | varSet b s =>
      rw [adding_varSet b s hi, has_varSet, has_varSet]
      exact s.test_set i j

/-- Setting a bit inserts it into the set. -/
theorem bitsOf_adding (h : k.IsValue v) {i : Nat} (hi : i < k.capacity v) :
    k.bitsOf (k.adding v i) = insert i (k.bitsOf v) := by
  ext j
  rw [(h.adding hi).mem_bitsOf, h.has_adding hi, Finset.mem_insert, h.mem_bitsOf, Bool.or_eq_true,
    beq_iff_eq]

/-- Setting a cleared bit again restores the value. -/
theorem adding_without (h : k.IsValue v) {i : Nat} (hi : k.has v i = true) :
    k.adding (k.without v i) i = v.plain := by
  have hlt := h.lt_capacity hi
  cases h with
  | @word w n hw =>
      rw [has_word] at hi
      rw [without_word w n hlt, Datum.int, adding_word w _ hlt]
      exact congrArg Datum.int (w.set_clear hw hi)
  | bools bs =>
      rw [has_bools] at hi
      rw [without_bools, adding_bools _ (by simpa using hlt), Flags.set_clear hi]
      rfl
  | bitArray bs =>
      rw [has_bitArray] at hi
      rw [without_bitArray, adding_bitArray _ (by simpa using hlt), Flags.set_clear hi]
      rfl
  | varSet b s =>
      rw [has_varSet] at hi
      have hlen : i < (s.clear i).length :=
        Nat.lt_of_lt_of_eq hlt (Flags.length_clear s.bits i).symm
      rw [without_varSet, adding_varSet b _ hlen]
      obtain ⟨backing, bits⟩ := s
      exact congrArg (fun bs => Datum.varSet ⟨backing, bs⟩) (Flags.set_clear hi)

/-- The order in which two bits are set does not matter. -/
theorem adding_comm (h : k.IsValue v) {i j : Nat} (hi : i < k.capacity v)
    (hj : j < k.capacity v) : k.adding (k.adding v i) j = k.adding (k.adding v j) i := by
  cases h with
  | @word w n _ =>
      rw [adding_word w n hi, adding_word w n hj, Datum.int, Datum.int, adding_word w _ hj,
        adding_word w _ hi]
      exact congrArg Datum.int (w.set_comm n.value hi hj)
  | bools bs =>
      rw [capacity_bools] at hi hj
      rw [adding_bools bs hi, adding_bools bs hj, adding_bools _ (Flags.lt_length_set hj i),
        adding_bools _ (Flags.lt_length_set hi j), Flags.set_comm]
  | bitArray bs =>
      rw [capacity_bitArray] at hi hj
      rw [adding_bitArray bs hi, adding_bitArray bs hj,
        adding_bitArray _ (Flags.lt_length_set hj i), adding_bitArray _ (Flags.lt_length_set hi j),
        Flags.set_comm]
  | varSet b s =>
      rw [adding_varSet b s hi, adding_varSet b s hj,
        adding_varSet b (s.set i) (Flags.lt_length_set hj i),
        adding_varSet b (s.set j) (Flags.lt_length_set hi j)]
      obtain ⟨backing, bits⟩ := s
      exact congrArg (fun bs => Datum.varSet ⟨backing, bs⟩) (Flags.set_comm bits i j)

/-- A value with a bit set is spelled plainly. -/
theorem plain_adding (h : k.IsValue v) {i : Nat} (hi : i < k.capacity v) :
    (k.adding v i).plain = k.adding v i := by
  cases h with
  | @word w n _ =>
      rw [adding_word w n hi]
      rfl
  | bools bs =>
      rw [adding_bools bs (by simpa using hi)]
      rfl
  | bitArray bs =>
      rw [adding_bitArray bs hi]
      rfl
  | varSet b s =>
      rw [adding_varSet b s hi]
      rfl

end IsValue

/-! ## The bits from a position on -/

section Listing

variable {k : Kind} {u v : Datum} {start : Nat}

/-- Nothing is listed from the capacity on. -/
theorem bitsFrom_of_capacity_le (h : k.capacity v ≤ start) : k.bitsFrom v start = [] := by
  rw [bitsFrom, Nat.sub_eq_zero_of_le h]
  rfl

/-- A set bit is listed first. -/
theorem bitsFrom_of_has (hlt : start < k.capacity v) (h : k.has v start = true) :
    k.bitsFrom v start = start :: k.bitsFrom v (start + 1) := by
  obtain ⟨n, hn⟩ : ∃ n, k.capacity v - start = n + 1 := ⟨k.capacity v - start - 1, by omega⟩
  have hrest : k.capacity v - (start + 1) = n := by omega
  rw [bitsFrom, hn, List.range'_succ, List.filter_cons_of_pos h, bitsFrom, hrest]

/-- A clear bit is passed over. -/
theorem bitsFrom_of_not_has (h : k.has v start = false) :
    k.bitsFrom v start = k.bitsFrom v (start + 1) := by
  rcases Nat.lt_or_ge start (k.capacity v) with hlt | hle
  · obtain ⟨n, hn⟩ : ∃ n, k.capacity v - start = n + 1 := ⟨k.capacity v - start - 1, by omega⟩
    have hrest : k.capacity v - (start + 1) = n := by omega
    rw [bitsFrom, hn, List.range'_succ, List.filter_cons_of_neg (by simp [h]), bitsFrom, hrest]
  · rw [bitsFrom_of_capacity_le hle, bitsFrom_of_capacity_le (Nat.le_succ_of_le hle)]

/-- The first listed bit is set, and what is listed after it are the bits behind it. -/
theorem of_bitsFrom_eq_cons {b : Nat} {rest : List Nat} (hcons : k.bitsFrom v start = b :: rest) :
    start ≤ b ∧ k.has v b = true ∧ rest = k.bitsFrom v (b + 1) := by
  induction h : k.capacity v - start generalizing start with
  | zero =>
      rw [bitsFrom_of_capacity_le (by omega)] at hcons
      cases hcons
  | succ n ih =>
      cases hset : k.has v start with
      | true =>
          rw [bitsFrom_of_has (by omega) hset] at hcons
          obtain ⟨rfl, rfl⟩ := List.cons.inj hcons
          exact ⟨Nat.le_refl start, hset, rfl⟩
      | false =>
          rw [bitsFrom_of_not_has hset] at hcons
          obtain ⟨hle, hrest⟩ := ih hcons (by omega)
          exact ⟨by omega, hrest⟩

/-- Only the bits from the start on decide what is listed. -/
theorem bitsFrom_congr (hcap : k.capacity u = k.capacity v)
    (h : ∀ i, start ≤ i → k.has u i = k.has v i) : k.bitsFrom u start = k.bitsFrom v start := by
  rw [bitsFrom, bitsFrom, hcap]
  apply List.filter_congr
  intro i hi
  exact h i (List.mem_range'_1.mp hi).1

/-- Clearing a bit leaves the listing behind it as it is. -/
theorem IsValue.bitsFrom_without (h : k.IsValue v) (b : Nat) :
    k.bitsFrom (k.without v b) (b + 1) = k.bitsFrom v (b + 1) := by
  apply bitsFrom_congr (h.capacity_without b)
  intro i hi
  rw [h.has_without, bne_iff_ne.mpr (by omega), Bool.true_and]

/-- Where no bit lies before the start, all are listed. -/
theorem bitsFrom_eq_of_forall_le (h : ∀ i, k.has v i = true → start ≤ i) :
    k.bitsFrom v 0 = k.bitsFrom v start := by
  induction start with
  | zero => rfl
  | succ start ih =>
      rw [ih fun i hi => Nat.le_of_succ_le (h i hi)]
      apply bitsFrom_of_not_has
      rw [Bool.eq_false_iff]
      intro hstart
      exact Nat.not_succ_le_self start (h start hstart)

end Listing

/-! ## The check on values -/

/-- A list that holds nothing but booleans is a list of flags. -/
private theorem exists_bools {items : List Datum}
    (h : ∀ x ∈ items, DatumType.bool.holds x = true) : ∃ bs, Datum.list items = .bools bs := by
  suffices hmap : ∃ bs : List Bool, items = bs.map Datum.bool by
    obtain ⟨bs, rfl⟩ := hmap
    exact ⟨bs, rfl⟩
  induction items with
  | nil => exact ⟨[], rfl⟩
  | cons x items ih =>
      obtain ⟨bs, rfl⟩ := ih fun y hy => h y (List.mem_cons_of_mem x hy)
      have hx := h x List.mem_cons_self
      cases x <;> simp [DatumType.holds] at hx
      exact ⟨_ :: bs, rfl⟩

/-- No entry is refused when all of them are booleans. -/
private theorem find_refused_eq_none {items : List Datum} :
    items.zipIdx.find? (fun e => !DatumType.bool.holds e.1) = none ↔
      ∀ x ∈ items, DatumType.bool.holds x = true := by
  rw [List.find?_eq_none]
  constructor
  · intro h x hx
    obtain ⟨i, hi⟩ := List.mem_iff_getElem?.mp hx
    have hmem : (x, i) ∈ items.zipIdx := List.mem_zipIdx_iff_getElem?.mpr hi
    simpa using h (x, i) hmem
  · intro h e he
    simp [h e.1 (List.fst_mem_of_mem_zipIdx he)]

/-- The check of a list kind passes exactly the lists of flags. -/
private theorem requireValue_boolVec {v : Datum} {name : String} :
    (growable .boolVec).requireValue v name = .ok () ↔ ∃ bs, v = .bools bs := by
  cases v with
  | list items =>
      have hlist : requireType .list (.list items) name = .ok () := rfl
      simp only [requireValue, hlist, bind, Except.bind]
      constructor
      · intro h
        split at h
        · cases h
        · exact exists_bools (find_refused_eq_none.mp ‹_›)
      · rintro ⟨bs, hbs⟩
        obtain rfl : items = bs.map Datum.bool := by injection hbs
        have hnone : ∀ x ∈ bs.map Datum.bool, DatumType.bool.holds x = true := by
          intro x hx
          obtain ⟨flag, -, rfl⟩ := List.mem_map.mp hx
          rfl
        rw [find_refused_eq_none.mpr hnone]
        rfl
  | _ => simp [requireValue, requireType, DatumType.holds, Outcome.refuse, Datum.bools, bind,
      Except.bind]

/-- The check on masks accepts exactly the values of a standard kind. -/
theorem requireValue_eq_ok_iff {k : Kind} (hk : k.IsStandard) {v : Datum} {name : String} :
    k.requireValue v name = .ok () ↔ k.IsValue v := by
  cases k with
  | word w =>
      constructor
      · intro h
        simp only [requireValue, bind, Except.bind] at h
        split at h
        · cases h
        · rename_i n hn
          obtain rfl := requireInteger_eq_ok_iff.mp hn
          split at h
          · exact .word ‹_›
          · cases h
      · rintro ⟨hn⟩
        simp [requireValue, hn, bind, Except.bind, pure, Except.pure]
  | growable b =>
      rcases hk with rfl | rfl
      · rw [requireValue_boolVec]
        constructor
        · rintro ⟨bs, rfl⟩
          exact .bools bs
        · intro h
          cases h with
          | bools bs => exact ⟨bs, rfl⟩
      · constructor
        · intro h
          cases v with
          | bitArray bs => exact .bitArray bs
          | _ => cases h
        · rintro ⟨⟩
          rfl
  | varsize b =>
      constructor
      · intro h
        cases v with
        | varSet s => exact .varSet b s
        | _ => cases h
      · rintro ⟨⟩
        rfl

end Kind

end FlagSets
