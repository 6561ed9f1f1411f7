import FlagSets.Proofs.Strategies
import FlagSets.Strategy.Generate

/-!
# What is allocated

The first thing in generating is to make an empty value, as long as the upper bound of the strategy
says. A word always has its width. A growable value gets just the room that is asked for, if memory
has it. Nothing is drawn before, so that a strategy without room for its values fails on every
source alike, and leaves it as it was.

A sampled strategy makes a list of what it chooses as well, which comes after the first draw. It is
never longer than the value, unless this is a word.

## Main results

* `allocate_fixed`, `allocate_growing` : what a kind allocates is its empty value.
* `exists_allocate`, `blank_of_allocate` : what memory has room for is allocated, and blank.
* `allocate_fault` : when nothing can be allocated.
* `hasRoom_or_unallocated` : a strategy allocates its values, or fails and draws nothing.
-/

namespace FlagSets

namespace Kind

variable {k : Kind} {v : Datum}

/-- A value without bits, with the given space unless it is a word. -/
def empty : Kind → Nat → Datum
  | word _, _ => .int 0
  | growable .bitArray, room => .bitArray (List.replicate room false)
  | growable _, room => .bools (List.replicate room false)
  | varsize b, room => .varSet ⟨b, List.replicate room false⟩

/-- A value without bits that has just the room asked for, or the width of its kind. -/
structure Blank (k : Kind) (room : Nat) (v : Datum) : Prop where
  isValue : k.IsValue v
  plain_eq : v.plain = v
  bitsOf_eq : k.bitsOf v = ∅
  capacity_eq : k.capacity v = k.width?.getD room

/-- There is room for every bit below the bound that was asked for. -/
theorem Blank.lt_capacity {high : Numeral} (h : k.Blank high.value.toNat v)
    (hwidth : ∀ width ∈ k.width?, high.value ≤ width) {b : Nat} (hb : b < high.value) :
    b < k.capacity v := by
  rw [h.capacity_eq]
  cases hw : k.width? with
  | none =>
      rw [Option.getD_none]
      omega
  | some width =>
      have hfits := hwidth width hw
      rw [Option.getD_some]
      omega

private theorem IsValue.bitsOf_eq_empty (h : k.IsValue v) (hclear : ∀ i, k.has v i = false) :
    k.bitsOf v = ∅ := by
  apply Finset.eq_empty_of_forall_notMem
  intro i hi
  rw [h.mem_bitsOf, hclear i] at hi
  cases hi

theorem blank_empty (hk : k.IsStandard) (room : Nat) : k.Blank room (k.empty room) := by
  cases k with
  | word w =>
      have hvalue : (word w).IsValue (.int 0) := .word w.represents_zero
      refine ⟨hvalue, rfl, hvalue.bitsOf_eq_empty fun i => ?_, rfl⟩
      rw [Datum.int, has_word, Numeral.value_plain, w.test_zero]
  | growable b =>
      rcases hk with rfl | rfl
      · refine ⟨.bools _, rfl, (IsValue.bools _).bitsOf_eq_empty fun i => ?_, ?_⟩
        · rw [has_bools, Flags.test_replicate]
        · exact (capacity_bools _).trans List.length_replicate
      · refine ⟨.bitArray _, rfl, (IsValue.bitArray _).bitsOf_eq_empty fun i => ?_, ?_⟩
        · rw [has_bitArray, Flags.test_replicate]
        · exact (capacity_bitArray _).trans List.length_replicate
  | varsize b =>
      refine ⟨.varSet b _, rfl, (IsValue.varSet b _).bitsOf_eq_empty fun i => ?_, ?_⟩
      · rw [has_varSet]
        exact Flags.test_replicate _ i
      · exact (capacity_varSet _ _).trans List.length_replicate

variable [Memory]

/-- The backings of the standard kinds make as much room as they are asked for, as far as memory
goes. -/
theorem room_num {b : Backing} (hb : b = .boolVec ∨ b = .bitArray) {n : Numeral}
    (hn : 0 ≤ n.value) : b.room (.num n) = Datum.sized n.value := by
  rcases hb with rfl | rfl
  · rfl
  · show (do let made ← Datum.sized n.value; if n.value < 0 then throw .domain else return made :
      Outcome Nat) = _
    cases Datum.sized n.value with
    | error fault => rfl
    | ok made => exact if_neg (Int.not_lt.mpr hn)

/-- The backings of the standard kinds make just the room that they are asked for. -/
private theorem eq_of_room {b : Backing} (hb : b = .boolVec ∨ b = .bitArray) {n : Numeral}
    {made : Nat} (h : b.room (.num n) = .ok made) : made = n.value.toNat := by
  rcases hb with rfl | rfl
  · exact Datum.eq_of_sized h
  · obtain ⟨made, hmade, h⟩ := Outcome.bind_eq_ok_iff.mp h
    obtain rfl := Datum.eq_of_sized hmade
    split at h
    · cases h
    · exact (Except.ok.inj h).symm

/-- A kind of fixed width allocates its empty value whatever is asked for. -/
theorem allocate_fixed {width : Nat} (hfixed : k.width? = some width) (asked : Datum)
    (room : Nat) : k.allocate asked = .ok (k.empty room) := by
  cases k with
  | word w => rfl
  | growable b => cases hfixed
  | varsize b => cases hfixed

/-- A standard kind that grows allocates its empty value, with the room that its backing makes. -/
theorem allocate_growing (hk : k.IsStandard) (hgrows : k.width? = none) (asked : Datum) :
    ∃ b, (b = .boolVec ∨ b = .bitArray) ∧
      k.allocate asked = (do return k.empty (← Backing.room b asked)) := by
  cases k with
  | word w => cases hgrows
  | growable b =>
      rcases hk with rfl | rfl
      · exact ⟨.boolVec, .inl rfl, rfl⟩
      · exact ⟨.bitArray, .inr rfl, rfl⟩
  | varsize b => exact ⟨b, hk, rfl⟩

/-- A standard kind allocates whatever memory has room for. -/
theorem exists_allocate (hk : k.IsStandard) {n : Numeral} (hn : 0 ≤ n.value) {made : Nat}
    (h : Datum.sized n.value = .ok made) : ∃ v, k.allocate (.num n) = .ok v := by
  cases hwidth : k.width? with
  | some width => exact ⟨_, allocate_fixed hwidth _ made⟩
  | none =>
      obtain ⟨b, hb, heq⟩ := allocate_growing hk hwidth (.num n)
      exact ⟨_, heq.trans (Outcome.bind_eq_ok_iff.mpr ⟨made, (room_num hb hn).trans h, rfl⟩)⟩

/-- Without memory for it, a standard kind that grows allocates nothing. -/
theorem allocate_error (hk : k.IsStandard) (hgrows : k.width? = none) {n : Numeral}
    (hn : 0 ≤ n.value) {fault : Fault} (h : Datum.sized n.value = .error fault) :
    k.allocate (.num n) = .error fault := by
  obtain ⟨b, hb, heq⟩ := allocate_growing hk hgrows (.num n)
  rw [heq, room_num hb hn, h]
  rfl

/-- What a standard kind allocates is blank. -/
theorem blank_of_allocate (hk : k.IsStandard) {n : Numeral} (h : k.allocate (.num n) = .ok v) :
    k.Blank n.value.toNat v := by
  have hblank := blank_empty hk n.value.toNat
  cases hwidth : k.width? with
  | some width =>
      cases h.symm.trans (allocate_fixed hwidth _ n.value.toNat)
      exact hblank
  | none =>
      obtain ⟨b, hb, heq⟩ := allocate_growing hk hwidth (.num n)
      obtain ⟨made, hmade, h⟩ := Outcome.bind_eq_ok_iff.mp (heq.symm.trans h)
      obtain rfl := eq_of_room hb hmade
      cases h
      exact hblank

/-- Only kinds that grow fail to allocate, and only past what memory has room for. -/
theorem allocate_fault (hk : k.IsStandard) {n : Numeral} (hn : 0 ≤ n.value) {fault : Fault}
    (h : k.allocate (.num n) = .error fault) :
    k.width? = none ∧ Datum.memory < n.value ∧ (fault = .overflow ∨ fault = .exhausted) ∧
      Datum.sized n.value = .error fault := by
  have hgrows : k.width? = none := by
    cases hwidth : k.width? with
    | none => rfl
    | some width => cases h.symm.trans (allocate_fixed hwidth _ 0)
  cases hsized : Datum.sized n.value with
  | ok made =>
      obtain ⟨v, halloc⟩ := exists_allocate hk hn hsized
      rw [halloc] at h
      cases h
  | error refused =>
      rw [allocate_error hk hgrows hn hsized] at h
      cases h
      refine ⟨hgrows, ?_, Datum.fault_of_sized hsized, rfl⟩
      by_contra hroom
      rw [Datum.sized_eq_ok hn (Int.not_lt.mp hroom)] at hsized
      cases hsized

end Kind

namespace Strategy

/-- The number of entries that are made for a value. -/
def extent : Strategy → Int
  | range _ _ high _ => high.value
  | sampled _ _ bits => bits.endExcl.value
  | bare => 0

variable {k : Kind} {s : Strategy}

theorem WellFormed.extent_nonneg (hs : s.WellFormed k) : 0 ≤ s.extent := by
  cases hs with
  | range hlow horder => exact Int.le_trans hlow horder
  | sampled _ hlow horder => exact Int.le_trans hlow horder

variable [Memory]

/-- An empty value of a strategy can be allocated. -/
def HasRoom : Strategy → Prop
  | range k _ high _ => ∃ v, k.allocate (.num high) = .ok v
  | sampled k _ bits => ∃ v, k.allocate (.num bits.endExcl) = .ok v
  | bare => True

/-- As many elements as a strategy may have to choose can be listed. -/
def RoomToChoose : Strategy → Prop
  | sampled _ size _ => ∃ made, Datum.sized size.last = .ok made
  | _ => True

/-- A growable value that can be allocated is no longer than memory has room for. -/
theorem HasRoom.extent_le (hk : k.IsStandard) (hgrows : k.width? = none) (hs : s.WellFormed k)
    (h : s.HasRoom) : s.extent ≤ Datum.memory := by
  have hfits : ∀ n : Numeral, 0 ≤ n.value → (∃ v, k.allocate (.num n) = .ok v) →
      n.value ≤ Datum.memory := by
    rintro n hn ⟨v, hv⟩
    cases hsized : Datum.sized n.value with
    | ok made => exact Datum.le_memory_of_sized hsized
    | error fault =>
        rw [Kind.allocate_error hk hgrows hn hsized] at hv
        cases hv
  have hnonneg := hs.extent_nonneg
  cases hs with
  | range => exact hfits _ hnonneg h
  | sampled => exact hfits _ hnonneg h

/-- Where a growable value can be allocated, what is chosen for it can be listed. -/
theorem HasRoom.roomToChoose (hk : k.IsStandard) (hgrows : k.width? = none)
    (hs : s.WellFormed k) (h : s.HasRoom) : s.RoomToChoose := by
  have hfits := h.extent_le hk hgrows hs
  cases hs with
  | range => trivial
  | sampled hleast hlow _ _ hroom =>
      refine ⟨_, Datum.sized_eq_ok (Int.le_trans hleast hroom.1) (Int.le_trans hroom.2 ?_)⟩
      refine Int.le_trans ?_ hfits
      unfold Span.size extent
      dsimp only
      omega

/-- A value of a growable kind is to be generated that is longer than memory has room for. Nothing
is drawn for it. -/
structure Unallocated (k : Kind) (length : Int) (s : Strategy) (source : Source) (fault : Fault) :
    Prop where
  grows : k.width? = none
  memory_lt : Datum.memory < length
  fault_eq : fault = .overflow ∨ fault = .exhausted
  run_eq : s.newTree.run source = (.error fault, source)

/-- Without room for a value a range strategy fails, and draws nothing. -/
theorem unallocated_range (hk : k.IsStandard) {low high : Numeral} {mask : Option Datum}
    (hhigh : 0 ≤ high.value) {fault : Fault} (h : k.allocate (.num high) = .error fault)
    (source : Source) : Unallocated k high.value (range k low high mask) source fault := by
  obtain ⟨hgrows, hmemory, hfault, -⟩ := Kind.allocate_fault hk hhigh h
  refine ⟨hgrows, hmemory, hfault, ?_⟩
  rw [newTree, Step.run_bind, h]
  rfl

/-- Without room for a value a sampled strategy fails before its first draw. -/
theorem unallocated_sampled (hk : k.IsStandard) {size bits : Span Numeral}
    (hend : 0 ≤ bits.endExcl.value) {fault : Fault}
    (h : k.allocate (.num bits.endExcl) = .error fault) (source : Source) :
    Unallocated k bits.endExcl.value (sampled k size bits) source fault := by
  obtain ⟨hgrows, hmemory, hfault, -⟩ := Kind.allocate_fault hk hend h
  refine ⟨hgrows, hmemory, hfault, ?_⟩
  rw [newTree, Step.run_bind, h]
  rfl

/-- A strategy has room for its values, or they are longer than memory has room for. Then it fails
on every source for the same reason, and draws nothing. -/
theorem hasRoom_or_unallocated (hk : k.IsStandard) (hs : s.WellFormed k) :
    s.HasRoom ∨ ∃ fault, Datum.sized s.extent = .error fault ∧
      ∀ source, Unallocated k s.extent s source fault := by
  have hnonneg := hs.extent_nonneg
  cases hs with
  | @range low high mask =>
      cases halloc : k.allocate (.num high) with
      | ok v => exact .inl ⟨v, halloc⟩
      | error fault =>
          obtain ⟨-, -, -, hsized⟩ := Kind.allocate_fault hk hnonneg halloc
          exact .inr ⟨fault, hsized, unallocated_range hk hnonneg halloc⟩
  | @sampled size bits =>
      cases halloc : k.allocate (.num bits.endExcl) with
      | ok v => exact .inl ⟨v, halloc⟩
      | error fault =>
          obtain ⟨-, -, -, hsized⟩ := Kind.allocate_fault hk hnonneg halloc
          exact .inr ⟨fault, hsized, unallocated_sampled hk hnonneg halloc⟩

end Strategy

end FlagSets
