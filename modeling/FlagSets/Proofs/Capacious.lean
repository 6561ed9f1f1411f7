import FlagSets.Proofs.Growth
import FlagSets.VarSet.Backend
import Mathlib.Data.Finset.Sort
import Mathlib.Logic.Function.Basic

/-!
# Growable sets as sets with a capacity

A growable kind, and a growable set over either backing, is a finite set of positions together with
a capacity above all of them. Several of them are kept side by side and worked on by a script, whose
operations make, copy, change and inspect one of them at a time, with any datum for an index. An
operation that fails says why, and leaves everything as it was.

The set with a capacity follows the same scripts. What it asks of its surroundings is room for the
entries that it lacks, and memory is what the growable kinds ask for theirs.

The simulation is one operation at a time: related values give equal replies and related values, and
an induction on the script does the rest.

## Main results

* `BitStore.Refines.perform`, `BitStore.Refines.play` : from one operation to whole scripts.
* `Kind.store_refines`, `VarSet.store_refines` : growable kinds and sets refine the abstract set.
* `Capacious.play_growable` : every script gets the replies of the abstract set, and ends alike.
-/

namespace FlagSets

/-- What is related to a wrapped result is related to the result through the wrapping. -/
theorem Outcome.Agree.of_wrapped {α γ δ : Type} {q : γ → δ → Prop} {o₁ : Outcome α}
    {o₂ : Outcome δ} {wrap : α → γ} (h : Agree q (do return wrap (← o₁)) o₂) :
    Agree (fun a b => q (wrap a) b) o₁ o₂ := by
  cases o₁ with
  | ok a =>
      cases h with
      | ok hab => exact .ok hab
  | error fault =>
      cases h with
      | error => exact .error fault

/-! ## Scripts -/

/-- What can be done with a set of bits, whatever it is made of. -/
structure BitStore (σ : Type) where
  make : Nat → Outcome σ
  copy : σ → Outcome σ
  set : σ → Datum → Outcome σ
  clear : σ → Datum → Outcome σ
  test : σ → Datum → Outcome Datum
  count : σ → Outcome Nat
  length : σ → Outcome Nat
  list : σ → Outcome (List Datum)

/-- An operation on the sets in some slots. -/
inductive Operation
  | make (slot size : Nat)
  | copy (slot source : Nat)
  | set (slot : Nat) (ix : Datum)
  | clear (slot : Nat) (ix : Datum)
  | test (slot : Nat) (ix : Datum)
  | count (slot : Nat)
  | length (slot : Nat)
  | list (slot : Nat)

/-- Slots for sets, not all of them filled. -/
abbrev Shelf (σ : Type) := Nat → Option σ

namespace Shelf

variable {σ τ : Type} {r : σ → τ → Prop} {s : Shelf σ} {t : Shelf τ}

/-- No slot is filled. -/
def bare : Shelf σ := fun _ => none

/-- The set in a slot, which has to be filled. -/
def take (s : Shelf σ) (slot : Nat) : Outcome σ :=
  match s slot with
  | some x => pure x
  | none => throw .missing

/-- The shelf with a slot filled, about which there is nothing to say. -/
def fill (s : Shelf σ) (slot : Nat) (x : σ) : Datum × Shelf σ :=
  (.absent, Function.update s slot (some x))

/-- The same slots are filled, and with related sets. -/
def Related (r : σ → τ → Prop) (s : Shelf σ) (t : Shelf τ) : Prop :=
  ∀ slot, Option.Rel r (s slot) (t slot)

theorem related_bare : Related r bare bare := fun _ => .none

theorem Related.take (h : Related r s t) (slot : Nat) :
    Outcome.Agree r (s.take slot) (t.take slot) := by
  have hslot := h slot
  unfold Shelf.take
  generalize s slot = mine at hslot ⊢
  generalize t slot = other at hslot ⊢
  cases hslot with
  | some hxy => exact .ok hxy
  | none => exact .error .missing

theorem Related.fill (h : Related r s t) (slot : Nat) {x : σ} {y : τ} (hxy : r x y) :
    Related r (s.fill slot x).2 (t.fill slot y).2 := by
  intro other
  simp only [Shelf.fill, Function.update_apply]
  split
  · exact .some hxy
  · exact h other

end Shelf

namespace BitStore

variable {σ τ : Type}

/-- The reply to an operation and the shelf after it, if the operation succeeds. -/
def attempt (S : BitStore σ) (s : Shelf σ) : Operation → Outcome (Datum × Shelf σ)
  | .make slot size => do return s.fill slot (← S.make size)
  | .copy slot source => do return s.fill slot (← S.copy (← s.take source))
  | .set slot ix => do return s.fill slot (← S.set (← s.take slot) ix)
  | .clear slot ix => do return s.fill slot (← S.clear (← s.take slot) ix)
  | .test slot ix => do return (← S.test (← s.take slot) ix, s)
  | .count slot => do return (.nat (← S.count (← s.take slot)), s)
  | .length slot => do return (.nat (← S.length (← s.take slot)), s)
  | .list slot => do return (.list (← S.list (← s.take slot)), s)

/-- The reply to an operation, and the shelf after it: the same one if the operation fails. -/
def perform (S : BitStore σ) (s : Shelf σ) (op : Operation) : Outcome Datum × Shelf σ :=
  match S.attempt s op with
  | .ok (reply, next) => (.ok reply, next)
  | .error fault => (.error fault, s)

/-- The replies to several operations, and the shelf after them. -/
def play (S : BitStore σ) : List Operation → Shelf σ → List (Outcome Datum) × Shelf σ
  | [], s => ([], s)
  | op :: ops, s =>
    let (reply, next) := S.perform s op
    let (replies, last) := S.play ops next
    (reply :: replies, last)

/-- Each operation on related sets fails alike, or gives equal replies and related sets. -/
structure Refines (S : BitStore σ) (T : BitStore τ) (r : σ → τ → Prop) : Prop where
  make : ∀ size, Outcome.Agree r (S.make size) (T.make size)
  copy : ∀ {x y}, r x y → Outcome.Agree r (S.copy x) (T.copy y)
  set : ∀ {x y}, r x y → ∀ ix, Outcome.Agree r (S.set x ix) (T.set y ix)
  clear : ∀ {x y}, r x y → ∀ ix, Outcome.Agree r (S.clear x ix) (T.clear y ix)
  test : ∀ {x y}, r x y → ∀ ix, S.test x ix = T.test y ix
  count : ∀ {x y}, r x y → S.count x = T.count y
  length : ∀ {x y}, r x y → S.length x = T.length y
  list : ∀ {x y}, r x y → S.list x = T.list y

namespace Refines

variable {S : BitStore σ} {T : BitStore τ} {r : σ → τ → Prop} {s : Shelf σ} {t : Shelf τ}

/-- One operation, as far as it succeeds. -/
theorem attempt (h : S.Refines T r) (hs : Shelf.Related r s t) (op : Operation) :
    Outcome.Agree (fun x y => x.1 = y.1 ∧ Shelf.Related r x.2 y.2) (S.attempt s op)
      (T.attempt t op) := by
  cases op with
  | make slot size =>
      exact (h.make size).bind fun _ _ hxy => .ok ⟨rfl, hs.fill slot hxy⟩
  | copy slot source =>
      exact (hs.take source).bind fun _ _ hxy => (h.copy hxy).bind fun _ _ hnew =>
        .ok ⟨rfl, hs.fill slot hnew⟩
  | set slot ix =>
      exact (hs.take slot).bind fun _ _ hxy => (h.set hxy ix).bind fun _ _ hnew =>
        .ok ⟨rfl, hs.fill slot hnew⟩
  | clear slot ix =>
      exact (hs.take slot).bind fun _ _ hxy => (h.clear hxy ix).bind fun _ _ hnew =>
        .ok ⟨rfl, hs.fill slot hnew⟩
  | test slot ix =>
      refine (hs.take slot).bind fun x y hxy => ?_
      rw [h.test hxy ix]
      exact .bind_same _ fun _ => .ok ⟨rfl, hs⟩
  | count slot =>
      refine (hs.take slot).bind fun x y hxy => ?_
      rw [h.count hxy]
      exact .bind_same _ fun _ => .ok ⟨rfl, hs⟩
  | length slot =>
      refine (hs.take slot).bind fun x y hxy => ?_
      rw [h.length hxy]
      exact .bind_same _ fun _ => .ok ⟨rfl, hs⟩
  | list slot =>
      refine (hs.take slot).bind fun x y hxy => ?_
      rw [h.list hxy]
      exact .bind_same _ fun _ => .ok ⟨rfl, hs⟩

/-- One operation gives equal replies, and leaves related shelves. -/
theorem perform (h : S.Refines T r) (hs : Shelf.Related r s t) (op : Operation) :
    (S.perform s op).1 = (T.perform t op).1 ∧
      Shelf.Related r (S.perform s op).2 (T.perform t op).2 := by
  have hstep := h.attempt hs op
  unfold BitStore.perform
  generalize S.attempt s op = mine at hstep ⊢
  generalize T.attempt t op = other at hstep ⊢
  cases hstep with
  | ok hxy => exact ⟨congrArg Except.ok hxy.1, hxy.2⟩
  | error fault => exact ⟨rfl, hs⟩

/-- So do several operations. -/
theorem play (h : S.Refines T r) (hs : Shelf.Related r s t) (script : List Operation) :
    (S.play script s).1 = (T.play script t).1 ∧
      Shelf.Related r (S.play script s).2 (T.play script t).2 := by
  induction script generalizing s t with
  | nil => exact ⟨rfl, hs⟩
  | cons op ops ih =>
      obtain ⟨hreply, hnext⟩ := h.perform hs op
      obtain ⟨hreplies, hlast⟩ := ih hnext
      exact ⟨congrArg₂ List.cons hreply hreplies, hlast⟩

end Refines

end BitStore

/-! ## A set with a capacity -/

/-- A finite set of positions, and a capacity above all of them. -/
structure Capacious where
  held : Finset Nat
  capacity : Nat
  lt_capacity : ∀ i ∈ held, i < capacity

namespace Capacious

/-- The empty set of a capacity. -/
def empty (size : Nat) : Capacious := ⟨∅, size, by simp⟩

/-- The set with a position added, and the capacity raised above it. -/
def insert (c : Capacious) (i : Nat) : Capacious where
  held := Insert.insert i c.held
  capacity := max c.capacity (i + 1)
  lt_capacity j hj := by
    rcases Finset.mem_insert.mp hj with rfl | hheld
    · omega
    · have hlt := c.lt_capacity j hheld
      omega

/-- The set with a position removed. The capacity stays. -/
def erase (c : Capacious) (i : Nat) : Capacious where
  held := c.held.erase i
  capacity := c.capacity
  lt_capacity j hj := c.lt_capacity j (Finset.mem_of_mem_erase hj)

/-- The position that an index stands for. It has to be an integer that is not negative; booleans
are no integers here. -/
def position : Datum → Outcome Nat
  | .num n =>
    if 0 ≤ n.value then pure n.value.toNat else Outcome.refuse (.negativeIndex "ix" n)
  | .bool b => Outcome.refuse (.boolean "ix" (.bool b))
  | d => Outcome.refuse (.wrongType [.integer] "ix" d)

/-- What can be done with a set with a capacity, given room for the entries that it lacks. -/
def store (room : Int → Outcome Nat) : BitStore Capacious where
  make size := do
    let _ ← room size
    return empty size
  copy c := return c
  set c ix := do
    let i ← position ix
    Datum.reach room c.capacity i
    return c.insert i
  clear c ix := do return c.erase (← position ix)
  test c ix := do return .bool (decide ((← position ix) ∈ c.held))
  count c := return c.held.card
  length c := return c.capacity
  list c := return c.held.sort.map .nat

/-- As much room as is asked for. -/
def unlimited (asked : Int) : Outcome Nat := pure asked.toNat

/-- An index is a position, or the library refuses it for the same reason. -/
theorem position_cases (ix : Datum) :
    (∃ n : Numeral, ix = .num n ∧ 0 ≤ n.value ∧ position ix = .ok n.value.toNat) ∨
      ∃ fault, position ix = .error fault ∧ requireIndex ix "ix" = .error fault := by
  cases ix with
  | num n =>
      by_cases hn : 0 ≤ n.value
      · exact .inl ⟨n, rfl, hn, if_pos hn⟩
      · exact .inr ⟨_, if_neg hn, if_pos (Int.not_le.mp hn)⟩
  | _ => exact .inr ⟨_, rfl, rfl⟩

/-- What is no position is refused. -/
theorem position_failsOnly (ix : Datum) :
    (position ix).FailsOnly (Fault.IsRefusal ix.isLegible) := by
  intro fault h
  rcases position_cases ix with ⟨n, -, -, hix⟩ | ⟨fault', hix, hrefused⟩
  · rw [hix] at h
    cases h
  · rw [hix] at h
    cases h
    exact requireIndex_failsOnly ix "ix" fault hrefused

end Capacious

/-! ## The growable kinds -/

namespace Kind

variable {k : Kind} {v : Datum} {c : Capacious}

/-- What can be done with the values of a kind. -/
def store [Memory] (k : Kind) : BitStore Datum where
  make size := k.allocate (.nat size)
  copy := k.copy
  set := k.set
  clear := k.clear
  test := k.test
  count := k.count
  length := k.length
  list := k.indices

/-- A value of a kind stands for the set of its bits with its length as the capacity. -/
structure Stands (k : Kind) (v : Datum) (c : Capacious) : Prop where
  isValue : k.IsValue v
  bitsOf_eq : k.bitsOf v = c.held
  capacity_eq : k.capacity v = c.capacity

namespace Stands

theorem has_eq (h : k.Stands v c) (i : Nat) : k.has v i = decide (i ∈ c.held) := by
  rw [Bool.eq_iff_iff, decide_eq_true_iff, ← h.bitsOf_eq, h.isValue.mem_bitsOf]

theorem without (h : k.Stands v c) (i : Nat) : k.Stands (k.without v i) (c.erase i) where
  isValue := h.isValue.without i
  bitsOf_eq := by
    rw [h.isValue.bitsOf_without, h.bitsOf_eq]
    rfl
  capacity_eq := (h.isValue.capacity_without i).trans h.capacity_eq

theorem grown [Memory] {wrap : List Bool → Datum} {bs : List Bool} (hwrap : k.Wraps wrap)
    (h : k.Stands (wrap bs) c) (i : Nat) : k.Stands (wrap (Flags.set bs i)) (c.insert i) where
  isValue := hwrap.isValue _
  bitsOf_eq := by
    rw [hwrap.bitsOf_set, h.bitsOf_eq]
    rfl
  capacity_eq := by
    rw [hwrap.capacity_set, h.capacity_eq]
    rfl

/-- Bits are listed as the sorted set. -/
theorem bitsFrom_eq (h : k.Stands v c) : k.bitsFrom v 0 = c.held.sort := by
  have hsorted : (k.bitsFrom v 0).Pairwise (· ≤ ·) := (k.pairwise_bitsFrom v 0).imp Nat.le_of_lt
  rw [← h.bitsOf_eq]
  exact ((List.toFinset_sort _ (k.nodup_bitsFrom v 0)).mpr hsorted).symm

end Stands

/-- A growable kind makes an empty value, or fails for want of memory. -/
theorem allocate_stands [Memory] (hk : k.IsStandard) (hgrows : k.width? = none) (size : Nat) :
    Outcome.Agree k.Stands (k.allocate (.nat size)) ((Capacious.store Datum.sized).make size) := by
  have hsize : 0 ≤ (Numeral.plain (size : Int)).value := Int.natCast_nonneg size
  show Outcome.Agree k.Stands _ (do let _ ← Datum.sized (size : Int); return Capacious.empty size)
  cases hmade : Datum.sized (size : Int) with
  | error fault =>
      have hnone : k.allocate (.nat size) = .error fault := allocate_error hk hgrows hsize hmade
      rw [hnone]
      exact .error fault
  | ok made =>
      obtain ⟨v, hv⟩ : ∃ v, k.allocate (.nat size) = .ok v := exists_allocate hk hsize hmade
      have hblank := blank_of_allocate hk hv
      rw [hv]
      refine .ok ⟨hblank.isValue, hblank.bitsOf_eq, ?_⟩
      rw [hblank.capacity_eq, hgrows]
      rfl

/-- A growable kind sets a bit within the capacity or past it, or fails for want of memory. -/
theorem set_stands [Memory] (hgrows : k.width? = none) (h : k.Stands v c) (ix : Datum) :
    Outcome.Agree k.Stands (k.set v ix) ((Capacious.store Datum.sized).set c ix) := by
  obtain ⟨wrap, bs, hwrap, rfl⟩ := h.isValue.exists_wraps hgrows
  rcases Capacious.position_cases ix with ⟨n, rfl, hn, hix⟩ | ⟨fault, hix, hrefused⟩
  · have hvalue : (n.value.toNat : Int) = n.value := Int.toNat_of_nonneg hn
    simp only [Capacious.store, hix, hwrap.set_eq bs n hn, ← h.capacity_eq, hwrap.capacity_eq]
    -- the list and the set lack the same entries, so that memory has the same answer for both
    show Outcome.Agree k.Stands _
      (do Datum.reach Datum.sized bs.length n.value.toNat; return c.insert n.value.toNat)
    rw [hvalue]
    exact .bind_same _ fun _ => .ok (h.grown hwrap n.value.toNat)
  · simp only [Capacious.store, hix, h.isValue.set_refused hrefused]
    exact .error fault

/-- A growable kind does to a value what is done to the set that it stands for. -/
theorem store_refines [Memory] (hk : k.IsStandard) (hgrows : k.width? = none) :
    k.store.Refines (Capacious.store Datum.sized) k.Stands where
  make := allocate_stands hk hgrows
  copy {v c} h := by
    show Outcome.Agree k.Stands (k.copy v) (.ok c)
    rw [h.isValue.copy_eq]
    exact .ok h
  set := set_stands hgrows
  clear {v c} h ix := by
    rcases Capacious.position_cases ix with ⟨n, rfl, hn, hix⟩ | ⟨fault, hix, hrefused⟩
    · simp only [store, Capacious.store, hix, h.isValue.clear_eq hn]
      exact .ok (h.without n.value.toNat)
    · simp only [store, Capacious.store, hix, h.isValue.clear_refused hrefused]
      exact .error fault
  test {v c} h ix := by
    rcases Capacious.position_cases ix with ⟨n, rfl, hn, hix⟩ | ⟨fault, hix, hrefused⟩
    · simp only [store, Capacious.store, hix, h.isValue.test_eq hn, h.has_eq]
      rfl
    · simp only [store, Capacious.store, hix, h.isValue.test_refused hrefused]
      rfl
  count {v c} h := by
    show k.count v = .ok c.held.card
    rw [h.isValue.count_eq, h.bitsOf_eq]
  length {v c} h := by
    show k.length v = .ok c.capacity
    rw [h.isValue.length_eq, h.capacity_eq]
  list {v c} h := by
    show k.indices v = .ok (c.held.sort.map .nat)
    rw [h.isValue.indices_eq, h.bitsFrom_eq]

end Kind

/-! ## Growable sets -/

/-- What can be done with growable sets, made over the given backend. -/
def VarSet.store [Memory] (inForce backend : Datum) : BitStore VarSet where
  make size := VarSet.make inForce (.nat size) backend
  copy s := return s
  set := setAt
  clear := clearAt
  test s ix := do return .bool (← s.testAt ix)
  count s := return s.count
  length s := return s.length
  list s := return s.indices.map .nat

/-- Growable sets do what the kind of growable sets does with them. -/
theorem VarSet.store_refines [Memory] {inForce backend : Datum} {b : Backing}
    (hb : Backing.resolve inForce backend = .ok b) (hk : (Kind.varsize b).IsStandard) :
    (VarSet.store inForce backend).Refines (Capacious.store Datum.sized)
      fun s c => (Kind.varsize b).Stands (.varSet s) c := by
  have hkind := Kind.store_refines hk rfl
  refine ⟨fun size => ?_, fun h => .ok h, fun h ix => (hkind.set h ix).of_wrapped,
    fun h ix => (hkind.clear h ix).of_wrapped, hkind.test, hkind.count, hkind.length, hkind.list⟩
  have hmake := hkind.make size
  apply Outcome.Agree.of_wrapped
  have hwrapped : (Kind.varsize b).store.make size =
      (do return .varSet (← (VarSet.store inForce backend).make size)) := by
    simp only [Kind.store, Kind.allocate, VarSet.store, make, hb, bind, Except.bind]
    cases b.room (.nat size) <;> rfl
  rwa [hwrapped] at hmake

/-! ## Whole scripts -/

namespace Capacious

/-- Whatever script is played, with whatever data for indices, a growable kind and a growable set
over either backing give the replies of a set with a capacity that gets its room from memory, and
end as it does. All that such a set has to say of an index that is no position is a refusal. -/
theorem play_growable [Memory] (script : List Operation) :
    (∀ k : Kind, k.IsStandard → k.width? = none →
      let mine := k.store.play script Shelf.bare
      let wanted := (store Datum.sized).play script Shelf.bare
      mine.1 = wanted.1 ∧ Shelf.Related k.Stands mine.2 wanted.2) ∧
    (∀ (inForce backend : Datum) (b : Backing), Backing.resolve inForce backend = .ok b →
      (Kind.varsize b).IsStandard →
      let mine := (VarSet.store inForce backend).play script Shelf.bare
      let wanted := (store Datum.sized).play script Shelf.bare
      mine.1 = wanted.1 ∧
        Shelf.Related (fun s c => (Kind.varsize b).Stands (.varSet s) c) mine.2 wanted.2) ∧
    ∀ ix, (position ix).FailsOnly (Fault.IsRefusal ix.isLegible) := by
  refine ⟨?_, ?_, position_failsOnly⟩
  · intro k hk hgrows
    exact (Kind.store_refines hk hgrows).play Shelf.related_bare script
  · intro inForce backend b hb hk
    exact (VarSet.store_refines hb hk).play Shelf.related_bare script

attribute [local instance] Memory.small

/-- A set that grows, its copy that does not, and two indices that are not taken. -/
theorem play_growable_packed :
    let script : List Operation :=
      [.make 0 1, .set 0 (.nat 3), .copy 1 0, .clear 0 (.nat 3), .set 0 (.nat (1 <<< 64)),
        .set 0 (.bool true), .test 0 (.nat 9), .list 1, .length 0]
    let replies : List (Outcome Datum) :=
      [.ok .absent, .ok .absent, .ok .absent, .ok .absent, .error .overflow,
        .error (.refused (.boolean "ix" (.bool true))), .ok (.bool false), .ok (.list [.nat 3]),
        .ok (.nat 4)]
    ((store Datum.sized).play script Shelf.bare).1 = replies ∧
      ((VarSet.store .absent (.text "bitarray")).play script Shelf.bare).1 = replies := by
  intro script replies
  obtain ⟨hkinds, hsets, -⟩ := play_growable script
  have hkind := (hkinds (.growable .bitArray) (.inr rfl) rfl).1
  have hset := (hsets .absent (.text "bitarray") .bitArray rfl (.inr rfl)).1
  have hreplies : ((Kind.growable .bitArray).store.play script Shelf.bare).1 = replies := rfl
  exact ⟨hkind.symm.trans hreplies, hset.trans (hkind.symm.trans hreplies)⟩

/-- A set with as much room as it asks for grows up to every index, and no growable set does. -/
theorem play_unlimited_ne :
    let script : List Operation := [.make 0 0, .set 0 (.nat (1 <<< 64))]
    ((VarSet.store .absent (.text "bool_vec")).play script Shelf.bare).1 ≠
      ((store unlimited).play script Shelf.bare).1 := by
  intro script hsame
  have hmine : ((VarSet.store .absent (.text "bool_vec")).play script Shelf.bare).1 =
      [.ok .absent, .error .overflow] := rfl
  have hwanted : ((store unlimited).play script Shelf.bare).1 = [.ok .absent, .ok .absent] := rfl
  rw [hmine, hwanted] at hsame
  cases hsame

end Capacious

end FlagSets
