import FlagSets.Proofs.Capacious
import FlagSets.Proofs.Equality
import FlagSets.Proofs.Spellings
import Mathlib.Order.Lattice.Nat

/-!
# Sets gathered from indices

A growable set is made of the indices that a collection yields. It starts from as much space as the
collection says it will yield items, which may be too little or too much, and each index that lies
past the end makes it grow. What comes out has just these indices, whatever their order, how often
each comes and how much space there was to begin with; only the space that is left over tells.

Growing needs memory, and the first index that there is none for ends it, as does the first datum
that is no index. Which of them comes first is said by following the capacity, which is the greatest
of all that were asked for so far.

## Main results

* `Capacious.Outgrows` : memory ends before the indices do.
* `Capacious.gather_outgrown`, `Capacious.exists_gather`, `Capacious.gather_refused` : what becomes
  of a set with a capacity.
* `BitStore.Refines.gather` : what refines it gathers the same.
* `VarSet.gather_settled` : which growable set is made of which items, and when none is.
* `VarSet.exists_fromIndices_varSet`, `VarSet.exists_saturated` : sets made of sets, and full ones.
* `VarSet.fromIndices_settled` : all of this, for whatever collection.
-/

namespace FlagSets

open Outcome

namespace BitStore

variable {σ τ : Type}

/-- The set with all indices among some items, one after another, which starts from the given
space. -/
def gather (S : BitStore σ) (hint : Nat) (items : List Datum) : Outcome σ := do
  items.foldlM S.set (← S.make hint)

/-- Related sets take the same items, and are related again. -/
theorem Refines.foldlM {S : BitStore σ} {T : BitStore τ} {r : σ → τ → Prop} (h : S.Refines T r)
    {x : σ} {y : τ} (hxy : r x y) (items : List Datum) :
    Outcome.Agree r (items.foldlM S.set x) (items.foldlM T.set y) := by
  induction items generalizing x y with
  | nil => exact .ok hxy
  | cons d rest ih => exact (h.set hxy d).bind fun _ _ hnext => ih hnext

theorem Refines.gather {S : BitStore σ} {T : BitStore τ} {r : σ → τ → Prop} (h : S.Refines T r)
    (hint : Nat) (items : List Datum) :
    Outcome.Agree r (S.gather hint items) (T.gather hint items) :=
  (h.make hint).bind fun _ _ hxy => h.foldlM hxy items

end BitStore

/-! ## Indices -/

namespace Datum

/-- The index that a datum is: an integer that is not negative, and no boolean. -/
def index? : Datum → Option Nat
  | num n => if 0 ≤ n.value then some n.value.toNat else none
  | _ => none

/-- The indices among some data. -/
def indexSet (items : List Datum) : Finset Nat := (items.filterMap index?).toFinset

/-- The space that a set of indices takes. -/
def space (held : Finset Nat) : Nat := held.sup (· + 1)

theorem index?_num (n : Numeral) :
    (num n).index? = if 0 ≤ n.value then some n.value.toNat else none := rfl

@[simp] theorem index?_nat (i : Nat) : (nat i).index? = some i := by
  have hpos : 0 ≤ (Numeral.plain i).value := Int.natCast_nonneg i
  rw [nat, int, index?_num, if_pos hpos]
  rfl

theorem indexSet_nats (is : List Nat) : indexSet (is.map nat) = is.toFinset := by
  simp [indexSet, List.filterMap_map]

theorem indexSet_cons {d : Datum} {i : Nat} (hd : d.index? = some i) (rest : List Datum) :
    indexSet (d :: rest) = insert i (indexSet rest) := by
  simp [indexSet, hd]

theorem space_insert (i : Nat) (held : Finset Nat) :
    space (insert i held) = max (i + 1) (space held) :=
  Finset.sup_insert

/-- A range up to a length says how much it will yield. -/
theorem lengthHint_range (n : Int) : (range 0 n 1).lengthHint = reportable n.toNat := by
  have hsize : (range 0 n 1).length = reportable n.toNat := by
    rw [length, rangeLength_one, Int.sub_zero]
  by_cases hlong : maxLength < n.toNat
  · have hreport : reportable n.toNat = .error .overflow := if_pos hlong
    rw [hreport] at hsize ⊢
    simp only [lengthHint, hsize]
    rfl
  · have hreport : reportable n.toNat = .ok n.toNat := if_neg hlong
    rw [hreport] at hsize ⊢
    simp only [lengthHint, hsize]
    rfl

/-- It yields what lies below the length, as far as memory goes. -/
theorem elements_range [Memory] {n : Int} {made : Nat} (h : sized n.toNat = .ok made) :
    (range 0 n 1).elements = .ok ((List.range n.toNat).map nat) := by
  have hterms : rangeTerms 0 n 1 = (List.range n.toNat).map Int.ofNat := by
    rw [rangeTerms_one (Int.le_refl 0), Int.sub_zero, List.range_eq_range']
    rfl
  simp only [elements, rangeLength_one, Int.sub_zero, h, hterms, List.map_map]
  rfl

end Datum

open Datum

/-! ## A set with a capacity -/

namespace Capacious

variable {c : Capacious} {d : Datum} {items : List Datum} {i hint : Nat} {fault : Fault}

/-- Some index comes past the capacity reached before it, and there is no room for the entries in
between; every datum before it is an index that there is room for. -/
inductive Outgrows [Memory] (fault : Fault) : Nat → List Datum → Prop
  | here {capacity : Nat} {d : Datum} {i : Nat} {rest : List Datum} (hd : d.index? = some i)
    (hroom : reach sized capacity i = .error fault) : Outgrows fault capacity (d :: rest)
  | later {capacity : Nat} {d : Datum} {i : Nat} {rest : List Datum} (hd : d.index? = some i)
    (hroom : reach sized capacity i = .ok ()) (h : Outgrows fault (max capacity (i + 1)) rest) :
    Outgrows fault capacity (d :: rest)

/-- There is no room to start from, or not for some index. -/
def Unallocated [Memory] (fault : Fault) (hint : Nat) (items : List Datum) : Prop :=
  sized hint = .error fault ∨ sized hint = .ok hint ∧ Outgrows fault hint items

/-- What there is no room for is more than a length can be, or than memory has room for. -/
theorem Outgrows.fault_eq [Memory] {capacity : Nat} (h : Outgrows fault capacity items) :
    fault = .overflow ∨ fault = .exhausted := by
  induction h with
  | @here capacity d i rest hd hroom =>
      unfold reach at hroom
      split at hroom
      · cases hsized : sized (i + 1 - capacity) with
        | error why =>
            rw [hsized] at hroom
            cases hroom
            exact fault_of_sized hsized
        | ok made =>
            rw [hsized] at hroom
            cases hroom
      · cases hroom
  | later _ _ _ ih => exact ih

theorem Unallocated.fault_eq [Memory] (h : Unallocated fault hint items) :
    fault = .overflow ∨ fault = .exhausted := by
  rcases h with hspace | ⟨-, h⟩
  · exact fault_of_sized hspace
  · exact h.fault_eq

/-- An index is a position. -/
theorem position_of_index (h : d.index? = some i) : position d = .ok i := by
  cases d with
  | num n =>
      by_cases hn : 0 ≤ n.value
      · rw [index?_num, if_pos hn] at h
        exact (if_pos hn).trans (congrArg Except.ok (Option.some.inj h))
      · rw [index?_num, if_neg hn] at h
        cases h
  | _ => cases h

/-- What is no index is refused. -/
theorem position_refused (h : d.index? = none) : (position d).IsRefused d.isLegible := by
  rcases position_cases d with ⟨n, rfl, hn, -⟩ | ⟨fault, hfault, -⟩
  · rw [index?_num, if_pos hn] at h
    cases h
  · exact ⟨fault, hfault, position_failsOnly d fault hfault⟩

variable [Memory]

theorem set_of_index (hd : d.index? = some i) :
    (store sized).set c d = do reach sized c.capacity i; return c.insert i := by
  simp only [store, position_of_index hd]
  rfl

/-- Where memory ends first, nothing is gathered. -/
theorem foldlM_outgrown (h : Outgrows fault c.capacity items) :
    items.foldlM (store sized).set c = .error fault := by
  generalize hcapacity : c.capacity = capacity at h
  induction h generalizing c with
  | here hd hroom =>
      rw [List.foldlM_cons, set_of_index hd, hcapacity, hroom]
      rfl
  | later hd hroom _ ih =>
      rw [List.foldlM_cons, set_of_index hd, hcapacity, hroom]
      exact ih (congrArg (max · _) hcapacity)

/-- Where memory does not end, there is room for the first index, and memory does not end later. -/
theorem room_of_not_outgrows {rest : List Datum} {capacity : Nat}
    (h : ∀ fault, ¬ Outgrows fault capacity (d :: rest)) (hd : d.index? = some i) :
    reach sized capacity i = .ok () ∧ ∀ fault, ¬ Outgrows fault (max capacity (i + 1)) rest := by
  have hroom : reach sized capacity i = .ok () := by
    cases hroom : reach sized capacity i with
    | ok u => rfl
    | error fault => exact absurd (.here hd hroom) (h fault)
  exact ⟨hroom, fun fault hrest => h fault (.later hd hroom hrest)⟩

/-- Where memory does not end, all indices are added. -/
theorem exists_foldlM (hmemory : ∀ fault, ¬ Outgrows fault c.capacity items)
    (h : ∀ d ∈ items, d.index?.isSome) :
    ∃ t, items.foldlM (store sized).set c = .ok t ∧ t.held = c.held ∪ indexSet items ∧
      t.capacity = max c.capacity (space (indexSet items)) := by
  induction items generalizing c with
  | nil => exact ⟨c, rfl, by simp [indexSet], by simp [indexSet, space]⟩
  | cons d rest ih =>
      obtain ⟨i, hd⟩ := Option.isSome_iff_exists.mp (h d List.mem_cons_self)
      obtain ⟨hroom, hlater⟩ := room_of_not_outgrows hmemory hd
      obtain ⟨t, ht, hheld, hcapacity⟩ :=
        ih (c := c.insert i) hlater fun e he => h e (List.mem_cons_of_mem d he)
      refine ⟨t, ?_, ?_, ?_⟩
      · rw [List.foldlM_cons, set_of_index hd, hroom]
        exact ht
      · rw [hheld, indexSet_cons hd]
        exact Finset.insert_union_comm c.held (indexSet rest) i
      · rw [hcapacity, indexSet_cons hd, space_insert, ← max_assoc]
        rfl

/-- Where memory does not end, the first datum that is no index is refused. -/
theorem foldlM_refused (hmemory : ∀ fault, ¬ Outgrows fault c.capacity items)
    (h : ∃ d ∈ items, d.index? = none) :
    ∃ d ∈ items, d.index? = none ∧ (items.foldlM (store sized).set c).IsRefused d.isLegible := by
  induction items generalizing c with
  | nil =>
      obtain ⟨d, hd, -⟩ := h
      cases hd
  | cons d rest ih =>
      rw [List.foldlM_cons]
      cases hd : d.index? with
      | none => exact ⟨d, List.mem_cons_self, hd, ((position_refused hd).bind _).bind _⟩
      | some i =>
          obtain ⟨hroom, hlater⟩ := room_of_not_outgrows hmemory hd
          have hrest : ∃ e ∈ rest, e.index? = none := by
            obtain ⟨e, he, hnone⟩ := h
            rcases List.mem_cons.mp he with rfl | he
            · cases hd.symm.trans hnone
            · exact ⟨e, he, hnone⟩
          obtain ⟨e, he, hnone, hrefused⟩ := ih (c := c.insert i) hlater hrest
          refine ⟨e, List.mem_cons_of_mem d he, hnone, ?_⟩
          rw [set_of_index hd, hroom]
          exact hrefused

/-! ### From the space that is hinted at -/

/-- Where memory ends first, no set is gathered. -/
theorem gather_outgrown (h : Unallocated fault hint items) :
    (store sized).gather hint items = .error fault := by
  rcases h with hspace | ⟨hspace, h⟩
  · simp only [BitStore.gather, store, hspace]
    rfl
  · have hfold : items.foldlM (store sized).set (empty hint) = .error fault := foldlM_outgrown h
    simp only [BitStore.gather, store, hspace] at hfold ⊢
    exact hfold

/-- Where memory does not end, there is the space to start from, and gathering goes on from it. -/
private theorem gather_eq_foldlM (h : ∀ fault, ¬ Unallocated fault hint items) :
    (∀ fault, ¬ Outgrows fault (empty hint).capacity items) ∧
      (store sized).gather hint items = items.foldlM (store sized).set (empty hint) := by
  cases hspace : sized hint with
  | error fault => exact absurd (.inl hspace) (h fault)
  | ok made =>
      obtain rfl : made = hint := eq_of_sized hspace
      refine ⟨fun fault hgrows => h fault (.inr ⟨hspace, hgrows⟩), ?_⟩
      simp only [BitStore.gather, store, hspace]
      rfl

/-- Where memory does not end, a set is gathered of just the given indices, in just the space that
they take or that was hinted at. -/
theorem exists_gather (hmemory : ∀ fault, ¬ Unallocated fault hint items)
    (h : ∀ d ∈ items, d.index?.isSome) :
    ∃ t, (store sized).gather hint items = .ok t ∧ t.held = indexSet items ∧
      t.capacity = max hint (space (indexSet items)) := by
  obtain ⟨hgrows, heq⟩ := gather_eq_foldlM hmemory
  obtain ⟨t, ht, hheld, hcapacity⟩ := exists_foldlM hgrows h
  exact ⟨t, heq.trans ht, hheld.trans (Finset.empty_union _), hcapacity⟩

/-- Where memory does not end, whatever is no index is refused. -/
theorem gather_refused (hmemory : ∀ fault, ¬ Unallocated fault hint items)
    (h : ∃ d ∈ items, d.index? = none) :
    ∃ d ∈ items, d.index? = none ∧
      ((store sized).gather hint items).IsRefused d.isLegible := by
  obtain ⟨hgrows, heq⟩ := gather_eq_foldlM hmemory
  rw [heq]
  exact foldlM_refused hgrows h

/-- Memory does not end where it has room for the hint and for all indices at once. -/
theorem not_unallocated (hhint : hint ≤ memory) (h : ∀ i ∈ indexSet items, i < memory)
    (fault : Fault) : ¬ Unallocated fault hint items := by
  have hspace : sized hint = .ok hint := by
    rw [sized_eq_ok (Int.natCast_nonneg hint) (Int.ofNat_le.mpr hhint), Int.toNat_natCast]
  have hgrows : ∀ capacity, ¬ Outgrows fault capacity items := by
    intro capacity hgrows
    induction hgrows with
    | @here capacity d i rest hd hroom =>
        have hi : i < memory := h i (by rw [indexSet_cons hd]; exact Finset.mem_insert_self _ _)
        unfold reach at hroom
        split at hroom
        · rw [sized_eq_ok (by omega) (by omega)] at hroom
          cases hroom
        · cases hroom
    | later hd hroom _ ih =>
        refine ih fun i hi => h i ?_
        rw [indexSet_cons hd]
        exact Finset.mem_insert_of_mem hi
  rintro (hfault | ⟨-, h⟩)
  · cases hspace.symm.trans hfault
  · exact hgrows hint h

end Capacious

/-! ## Growable sets -/

namespace VarSet

open Capacious

variable {inForce backend d : Datum} {b : Backing} {s : VarSet} {c : Capacious} {hint : Nat}
  {items : List Datum} {fault : Fault}

/-- A set of just the given indices, with just the given space. -/
structure Holds (s : VarSet) (held : Finset Nat) (capacity : Nat) : Prop where
  indices_eq : s.indices = held.sort
  count_eq : s.count = held.card
  length_eq : s.length = capacity

/-- A set that stands for one with a capacity holds what that holds. -/
theorem Holds.of_stands (h : (Kind.varsize b).Stands (.varSet s) c) :
    s.Holds c.held c.capacity := by
  have hindices : s.indices = c.held.sort := by
    rw [← h.bitsFrom_eq]
    exact h.isValue.eq_bitsFrom (fun i => by rw [Kind.has_varSet, s.mem_indices]) s.pairwise_indices
  refine ⟨hindices, ?_, h.capacity_eq⟩
  rw [← s.length_indices, hindices, Finset.length_sort]

/-- Sets that hold the same are equal. -/
theorem Holds.equal {t : VarSet} {held : Finset Nat} {m n : Nat} (hs : s.Holds held m)
    (ht : t.Holds held n) : s.equal t = true :=
  equal_iff_indices.mpr (hs.indices_eq.trans ht.indices_eq.symm)

/-- Every set holds its own indices. -/
theorem holds_indices (s : VarSet) : s.Holds s.indices.toFinset s.length where
  indices_eq := ((List.toFinset_sort _ (s.pairwise_indices.imp Nat.ne_of_lt)).mpr
    (s.pairwise_indices.imp Nat.le_of_lt)).symm
  count_eq := by
    rw [← s.length_indices, List.toFinset_card_of_nodup (s.pairwise_indices.imp Nat.ne_of_lt)]
  length_eq := rfl

/-- Positions are indices. -/
private theorem isSome_index?_of_mem_nats (is : List Nat) :
    ∀ d ∈ is.map nat, d.index?.isSome := by
  intro d hd
  obtain ⟨i, -, rfl⟩ := List.mem_map.mp hd
  rw [index?_nat]
  rfl

section Made

variable [Memory]

/-- Of a collection, the items that it yields are gathered, starting from its hint. -/
theorem fromIndices_eq_gather (hhint : d.lengthHint = .ok hint) (hitems : d.elements = .ok items) :
    fromIndices inForce d backend = (store inForce backend).gather hint items := by
  simp only [fromIndices, hhint, hitems]
  rfl

/-- Of the items that are yielded, a growable set is made if all of them are indices, and none if
one is not. Where memory ends first, that is the fault. -/
theorem gather_settled (hb : Backing.resolve inForce backend = .ok b)
    (hk : b = .boolVec ∨ b = .bitArray) (hint : Nat) (items : List Datum) :
    let made := (store inForce backend).gather hint items
    (∀ fault, Unallocated fault hint items → made = .error fault) ∧
      ((∀ fault, ¬ Unallocated fault hint items) →
        ((∀ d ∈ items, d.index?.isSome) →
          ∃ s, made = .ok s ∧ s.Holds (indexSet items) (max hint (space (indexSet items)))) ∧
        ((∃ d ∈ items, d.index? = none) →
          ∃ d ∈ items, d.index? = none ∧ made.IsRefused d.isLegible)) := by
  intro made
  have hagree := (store_refines hb hk).gather hint items
  change Outcome.Agree _ made _ at hagree
  refine ⟨fun fault h => ?_, fun hmemory => ⟨fun h => ?_, fun h => ?_⟩⟩
  · rw [gather_outgrown h] at hagree
    generalize made = outcome at hagree ⊢
    cases hagree
    rfl
  · obtain ⟨c, hc, hheld, hcapacity⟩ := exists_gather hmemory h
    rw [hc] at hagree
    generalize made = outcome at hagree ⊢
    cases hagree with
    | @ok s _ hs => exact ⟨s, rfl, hcapacity ▸ hheld ▸ Holds.of_stands hs⟩
  · obtain ⟨d, hd, hnone, fault, hfault, hrefusal⟩ := gather_refused hmemory h
    rw [hfault] at hagree
    generalize made = outcome at hagree ⊢
    cases hagree
    exact ⟨d, hd, hnone, fault, rfl, hrefusal⟩

/-- Another set, which hints at nothing, is made into an equal one. -/
theorem exists_fromIndices_varSet (hb : Backing.resolve inForce backend = .ok b)
    (hk : b = .boolVec ∨ b = .bitArray) (s : VarSet)
    (hmemory : ∀ fault, ¬ Unallocated fault 0 (s.indices.map nat)) :
    ∃ t, fromIndices inForce (.varSet s) backend = .ok t ∧ t.equal s = true := by
  have hgather : fromIndices inForce (.varSet s) backend =
      (store inForce backend).gather 0 (s.indices.map nat) := fromIndices_eq_gather rfl rfl
  obtain ⟨t, ht, hholds⟩ :=
    ((gather_settled hb hk 0 (s.indices.map nat)).2 hmemory).1 (isSome_index?_of_mem_nats _)
  rw [indexSet_nats] at hholds
  exact ⟨t, hgather.trans ht, hholds.equal s.holds_indices⟩

/-- A full set is made of every length that memory has room for. -/
theorem exists_saturated (hb : Backing.resolve inForce backend = .ok b)
    (hk : b = .boolVec ∨ b = .bitArray) {n : Int} {made : Nat} (hd : d.integer? = some n)
    (h : sized n.toNat = .ok made) :
    ∃ s, saturated inForce d backend = .ok s ∧ s.Holds (Finset.range n.toNat) n.toNat := by
  have hroom : n.toNat ≤ memory := Int.ofNat_le.mp (le_memory_of_sized h)
  have hhint : (Datum.range 0 n 1).lengthHint = .ok n.toNat := by
    have hless := memory_le_maxLength
    rw [lengthHint_range]
    exact if_neg (by omega)
  have hset : indexSet ((List.range n.toNat).map nat) = Finset.range n.toNat := by
    rw [indexSet_nats]
    ext i
    rw [List.mem_toFinset, List.mem_range, Finset.mem_range]
  have hmemory : ∀ fault, ¬ Unallocated fault n.toNat ((List.range n.toNat).map nat) := by
    apply not_unallocated hroom
    intro i hi
    rw [hset, Finset.mem_range] at hi
    omega
  obtain ⟨s, hs, hholds⟩ :=
    ((gather_settled hb hk n.toNat _).2 hmemory).1 (isSome_index?_of_mem_nats _)
  have hspace : space (Finset.range n.toNat) ≤ n.toNat :=
    Finset.sup_le fun i hi => Finset.mem_range.mp hi
  rw [hset, max_eq_left hspace] at hholds
  refine ⟨s, ?_, hholds⟩
  rw [saturated, hd]
  exact (fromIndices_eq_gather hhint (elements_range h)).trans hs

/-- Without memory for its length there is no full set. -/
theorem saturated_error (hb : Backing.resolve inForce backend = .ok b)
    (hk : b = .boolVec ∨ b = .bitArray) {n : Int} (hd : d.integer? = some n)
    (h : sized n.toNat = .error fault) : saturated inForce d backend = .error fault := by
  rw [saturated, hd]
  dsimp only
  by_cases hlong : maxLength < n.toNat
  · -- the range cannot say how much it will yield
    have hpast : isPastLengths n.toNat = true := decide_eq_true (.inr (by omega))
    rw [sized, if_pos hpast] at h
    have hhint : (Datum.range 0 n 1).lengthHint = .error fault := by
      rw [lengthHint_range, ← h]
      exact if_pos hlong
    simp only [fromIndices, hhint]
    rfl
  · -- it can, and then there is no room to start from
    have hhint : (Datum.range 0 n 1).lengthHint = .ok n.toNat := by
      rw [lengthHint_range]
      exact if_neg hlong
    have hpos : 0 ≤ (Numeral.plain n.toNat).value := Int.natCast_nonneg n.toNat
    have hroom : b.room (nat n.toNat) = .error fault := (Kind.room_num hk hpos).trans h
    simp only [fromIndices, hhint, make, hb, hroom, bind, Except.bind]

/-- Over either backing, and whatever a collection hints at, a growable set is made of just the
indices that it yields, in any order and however often: it lists each once, in ascending order,
counts them, and has the space that they take or that was hinted at. If one of the items is no
index, the collection is refused. A set made of the indices of another is equal to it, and a full
set holds all indices below its length. The one exception is where memory has no room. -/
theorem fromIndices_settled (hb : Backing.resolve inForce backend = .ok b)
    (hk : b = .boolVec ∨ b = .bitArray) :
    (∀ (hint : Nat) (items : List Datum),
      let made := (store inForce backend).gather hint items
      (∀ d : Datum, d.lengthHint = .ok hint → d.elements = .ok items →
        fromIndices inForce d backend = made) ∧
      (∀ fault, Unallocated fault hint items →
        (fault = .overflow ∨ fault = .exhausted) ∧ made = .error fault) ∧
      ((∀ fault, ¬ Unallocated fault hint items) →
        ((∀ d ∈ items, d.index?.isSome) →
          ∃ s, made = .ok s ∧ s.Holds (indexSet items) (max hint (space (indexSet items)))) ∧
        ((∃ d ∈ items, d.index? = none) →
          ∃ d ∈ items, d.index? = none ∧ made.IsRefused d.isLegible))) ∧
    (∀ s : VarSet, (∀ fault, ¬ Unallocated fault 0 (s.indices.map nat)) →
      ∃ t, fromIndices inForce (.varSet s) backend = .ok t ∧ t.equal s = true) ∧
    ∀ (d : Datum) (n : Int), d.integer? = some n →
      (∀ fault, sized n.toNat = .error fault → saturated inForce d backend = .error fault) ∧
      ∀ made, sized n.toNat = .ok made →
        ∃ s, saturated inForce d backend = .ok s ∧ s.Holds (Finset.range n.toNat) n.toNat := by
  refine ⟨fun hint items => ?_, fun s => exists_fromIndices_varSet hb hk s, fun d n hd =>
    ⟨fun fault h => saturated_error hb hk hd h, fun made h => exists_saturated hb hk hd h⟩⟩
  obtain ⟨hfails, hmade⟩ := gather_settled hb hk hint items
  exact ⟨fun d hhint hitems => fromIndices_eq_gather hhint hitems,
    fun fault h => ⟨h.fault_eq, hfails fault h⟩, hmade⟩

end Made

attribute [local instance] Memory.small

/-- Three items, two of which are the same, and a hint that is larger than all of them. -/
theorem fromIndices_settled_repeated :
    let items : List Datum := [.nat 2, .nat 0, .nat 2]
    Backing.resolve .absent (.text "bitarray") = .ok .bitArray ∧
      (∃ s, (store .absent (.text "bitarray")).gather 5 items = .ok s ∧ s.indices = [0, 2] ∧
        s.count = 2 ∧ s.length = 5) ∧
      ∃ t, saturated .absent (.int 3) (.text "bitarray") = .ok t ∧ t.length = 3 := by
  intro items
  have hb : Backing.resolve .absent (.text "bitarray") = .ok .bitArray := rfl
  obtain ⟨hgathered, -, hsaturated⟩ := fromIndices_settled hb (.inr rfl)
  have hset : indexSet items = [0, 2].toFinset := by decide
  have hsorted : [0, 2].toFinset.sort = [0, 2] :=
    (List.toFinset_sort _ (by decide)).mpr (by decide)
  have hmemory : ∀ fault, ¬ Unallocated fault 5 items := by
    apply not_unallocated (by decide)
    rw [hset]
    decide
  have hitems : ∀ d ∈ items, d.index?.isSome := isSome_index?_of_mem_nats [2, 0, 2]
  obtain ⟨s, hs, hindices, hcount, hlength⟩ := ((hgathered 5 items).2.2 hmemory).1 hitems
  rw [hset] at hindices hcount hlength
  obtain ⟨t, ht, hheld⟩ := (hsaturated (.int 3) 3 rfl).2 3 rfl
  exact ⟨hb, ⟨s, hs, hindices.trans hsorted, hcount, hlength⟩, t, ht, hheld.length_eq⟩

/-- An index that no list can reach is an index all the same, and no set is made of it. -/
theorem fromIndices_unallocated :
    let items : List Datum := [.nat (1 <<< 64)]
    Backing.resolve .absent (.text "bool_vec") = .ok .boolVec ∧
      (∀ d ∈ items, d.index?.isSome) ∧
      ¬ ∃ s, fromIndices .absent (.list items) (.text "bool_vec") = .ok s := by
  intro items
  refine ⟨rfl, isSome_index?_of_mem_nats [1 <<< 64], ?_⟩
  rintro ⟨s, hs⟩
  have hoverflow : fromIndices .absent (.list items) (.text "bool_vec") = .error .overflow := rfl
  cases hoverflow.symm.trans hs

end VarSet

end FlagSets
