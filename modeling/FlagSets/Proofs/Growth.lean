import FlagSets.Proofs.Generation

/-!
# Growable values past their end

Within its capacity a growable value follows the laws of every kind. Past it a bit can still be set:
the value grows up to that bit, as far as memory goes, and fails without it. All growable values are
lists of flags in some wrapping, and what their kinds do to them is said once, for the list.

An index that is none is refused before a value is looked at, by every kind.

## Main results

* `IsValue.exists_wraps` : a value of a growable kind is a list of flags in a wrapping.
* `Wraps.bitsOf_set`, `Wraps.capacity_set` : a bit can be set past the end, and the value grows.
* `IsValue.test_refused`, `IsValue.set_refused`, `IsValue.clear_refused` : only indices are taken.
* `IsValue.indices_eq` : the set bits are listed in ascending order.
-/

namespace FlagSets

namespace Datum

/-- Room for the entries that are missing up to a position, none if it lies within the size. -/
def reach (room : Int → Outcome Nat) (size : Nat) (position : Int) : Outcome Unit := do
  if size ≤ position then
    let _ ← room (position + 1 - size)

/-- What is made of a collection where memory reaches, and fails where it does not. -/
private theorem eq_reach [Memory] {size : Nat} {position : Int} {o : Outcome Datum} {d : Datum}
    (hfault : ∀ fault, (size : Int) ≤ position → sized (position + 1 - size) = .error fault →
      o = .error fault)
    (hok : position + 1 - size ≤ memory → o = .ok d) :
    o = do reach sized size position; return d := by
  unfold reach
  by_cases hpast : (size : Int) ≤ position
  · rw [if_pos hpast]
    cases hmade : sized (position + 1 - size) with
    | error fault => exact hfault fault hpast hmade
    | ok made => exact hok (le_memory_of_sized hmade)
  · rw [if_neg hpast]
    exact hok (by omega)

end Datum

namespace Kind

variable {k : Kind} {v : Datum}

/-! ## Wrapped lists of flags -/

/-- The values of a growable kind as lists of flags, and what its operations do to the list. -/
structure Wraps [Memory] (k : Kind) (wrap : List Bool → Datum) : Prop where
  isValue : ∀ bs, k.IsValue (wrap bs)
  capacity_eq : ∀ bs, k.capacity (wrap bs) = bs.length
  has_eq : ∀ bs i, k.has (wrap bs) i = Flags.test bs i
  set_eq : ∀ bs (n : Numeral), 0 ≤ n.value → k.set (wrap bs) (.num n) =
    do Datum.reach Datum.sized bs.length n.value; return wrap (Flags.set bs n.value.toNat)

theorem wraps_bools [Memory] : (growable .boolVec).Wraps .bools where
  isValue := .bools
  capacity_eq := capacity_bools
  has_eq := has_bools
  set_eq bs n hn := by
    refine Datum.eq_reach (fun fault hpast hmade => ?_) (set_bools bs hn)
    have hneg : ¬ n.value < 0 := by omega
    simp [set, hneg, Datum.write, Datum.bools, Datum.length, hpast, Datum.extend, hmade, bind,
      Except.bind, pure, Except.pure]

theorem wraps_bitArray [Memory] : (growable .bitArray).Wraps .bitArray where
  isValue := .bitArray
  capacity_eq := capacity_bitArray
  has_eq := has_bitArray
  set_eq bs n hn := by
    refine Datum.eq_reach (fun fault hpast hmade => ?_) (set_bitArray bs hn)
    have hneg : ¬ n.value < 0 := by omega
    simp [set, hneg, Datum.write, Datum.length, hpast, Datum.extend, hmade, bind, Except.bind, pure,
      Except.pure]

/-- The kinds of growable sets keep the backing of a set, also where it is not their own. -/
theorem wraps_varSet [Memory] (b backing : Backing) :
    (varsize b).Wraps fun bs => .varSet ⟨backing, bs⟩ where
  isValue bs := .varSet b ⟨backing, bs⟩
  capacity_eq _ := rfl
  has_eq bs := has_varSet b ⟨backing, bs⟩
  set_eq bs n hn := by
    refine Datum.eq_reach (fun fault hpast hmade => ?_) (set_varSet b ⟨backing, bs⟩ hn)
    have hneg : ¬ n.value < 0 := by omega
    simp [set, hneg, VarSet.setAt, VarSet.length, hpast, hmade, bind, Except.bind]

section Grown

variable [Memory] {wrap : List Bool → Datum}

/-- Setting a bit makes a value large enough for it. -/
theorem Wraps.capacity_set (h : k.Wraps wrap) (bs : List Bool) (i : Nat) :
    k.capacity (wrap (Flags.set bs i)) = max (k.capacity (wrap bs)) (i + 1) := by
  rw [h.capacity_eq, h.capacity_eq, Flags.length_set]

/-- Setting a bit inserts it into the set, within the capacity or past it. -/
theorem Wraps.bitsOf_set (h : k.Wraps wrap) (bs : List Bool) (i : Nat) :
    k.bitsOf (wrap (Flags.set bs i)) = insert i (k.bitsOf (wrap bs)) := by
  ext j
  rw [(h.isValue _).mem_bitsOf, h.has_eq, Flags.test_set, Finset.mem_insert,
    (h.isValue bs).mem_bitsOf, h.has_eq, Bool.or_eq_true, beq_iff_eq]

end Grown

/-! ## Scans -/

/-- A scan adds the set ones among its positions to those found before. -/
theorem scanFrom_of_test {flag : Nat → Bool}
    (h : ∀ i : Nat, k.test v (.nat i) = .ok (.bool (flag i))) (found : List Nat) (i n : Nat) :
    k.scanFrom v found i n = .ok (found.reverse ++ (List.range' i n).filter flag) := by
  induction n generalizing found i with
  | zero => exact congrArg Except.ok (List.append_nil _).symm
  | succ n ih =>
      simp only [scanFrom, h, bind, Except.bind, Datum.truthy_bool, List.range'_succ]
      cases hi : flag i with
      | true =>
          rw [if_pos rfl, ih, List.filter_cons_of_pos hi, List.reverse_cons, List.append_assoc,
            List.singleton_append]
      | false => rw [if_neg Bool.false_ne_true, ih, List.filter_cons_of_neg (by simp [hi])]

namespace IsValue

/-- A value of a growable kind is a list of flags in a wrapping. -/
theorem exists_wraps [Memory] (h : k.IsValue v) (hk : k.width? = none) :
    ∃ wrap bs, k.Wraps wrap ∧ v = wrap bs := by
  cases h with
  | word _ => cases hk
  | bools bs => exact ⟨_, bs, wraps_bools, rfl⟩
  | bitArray bs => exact ⟨_, bs, wraps_bitArray, rfl⟩
  | varSet b s => exact ⟨_, s.bits, wraps_varSet b s.backing, rfl⟩

/-! ## Indices that are none -/

section Refused

variable {ix : Datum} {fault : Fault}

theorem test_refused (h : k.IsValue v) (hix : requireIndex ix "ix" = .error fault) :
    k.test v ix = .error fault := by
  cases h <;> simp [test, VarSet.testAt, hix, bind, Except.bind]

theorem set_refused [Memory] (h : k.IsValue v) (hix : requireIndex ix "ix" = .error fault) :
    k.set v ix = .error fault := by
  cases h <;> simp [set, VarSet.setAt, hix, bind, Except.bind]

theorem clear_refused (h : k.IsValue v) (hix : requireIndex ix "ix" = .error fault) :
    k.clear v ix = .error fault := by
  cases h <;> simp [clear, VarSet.clearAt, hix, bind, Except.bind]

end Refused

/-! ## Listing -/

theorem scan_eq (h : k.IsValue v) : k.scan v = .ok (k.bitsFrom v 0) := by
  simp only [scan, h.length_eq, bind, Except.bind]
  exact scanFrom_of_test (fun i => h.test_eq (Int.natCast_nonneg i)) [] 0 (k.capacity v)

/-- The set bits are listed in ascending order. -/
theorem indices_eq [Memory] (h : k.IsValue v) : k.indices v = .ok ((k.bitsFrom v 0).map .nat) := by
  cases h with
  | @word w n hw =>
      rw [← (IsValue.word hw).eq_bitsFrom (fun i => by rw [has_word, w.mem_indices])
        (w.pairwise_indices n.value)]
      rfl
  | bools bs =>
      have hscan := (IsValue.bools bs).scan_eq
      simp only [indices, hscan, bind, Except.bind]
      rfl
  | bitArray bs =>
      rw [← (IsValue.bitArray bs).eq_bitsFrom (fun i => by rw [has_bitArray, Flags.mem_indices])
        (Flags.pairwise_indices bs)]
      rfl
  | varSet b s =>
      rw [← (IsValue.varSet b s).eq_bitsFrom (fun i => by rw [has_varSet, VarSet.mem_indices])
        s.pairwise_indices]
      rfl

end IsValue

end Kind

end FlagSets
