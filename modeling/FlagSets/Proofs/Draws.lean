import FlagSets.Random.Source
import FlagSets.Span
import Mathlib.Data.List.Perm.Basic
import Mathlib.Data.List.Nodup
import Mathlib.Data.List.GetD

/-!
# What the draws of a source return

No property of a source is assumed here: a tape may hold any entries and a twister any words, and a
draw may fail. What is shown holds of every result that a draw does return. Such a property goes
through a sequence of steps one step at a time, without a look at the states in between.

A choice of several positions is made in two ways, from a shrinking pool and by drawing again. Both
return distinct positions, for different reasons: the pool never holds a chosen position again, and
a draw that was chosen already is not accepted.

## Main results

* `Step.Returns.bind` : a property of results, one step after another.
* `below_returns`, `integerRange_returns` : a drawn integer lies within its bounds.
* `positions_returns` : as many distinct positions are chosen as asked for.
* `chooseMultiple_returns` : a choice from a span is made of distinct elements of it.
* `selection_returns` : so is a choice of a drawn number of elements.
-/

namespace FlagSets

namespace Step

variable {σ α β : Type}

/-- Every result of a step has a property, whatever the state it starts from. -/
structure Returns (d : Step σ α) (p : α → Prop) : Prop where
  of_run : ∀ {s t a}, d.run s = (.ok a, t) → p a

namespace Returns

variable {p q : α → Prop} {r : β → Prop}

theorem any (d : Step σ α) : d.Returns fun _ => True := ⟨fun _ => trivial⟩

theorem of_pure {a : α} (h : p a) : Returns (pure a : Step σ α) p := by
  constructor
  intro s t b hrun
  rw [run_pure] at hrun
  cases hrun
  exact h

theorem of_throw (f : Fault) : Returns (throw f : Step σ α) p := by
  constructor
  intro s t a hrun
  rw [run_throw] at hrun
  cases hrun

/-- The results of an outcome are those of the step that it is taken for. -/
theorem of_liftM {o : Outcome α} (h : ∀ a, o = .ok a → p a) :
    Returns (liftM o : Step σ α) p := by
  constructor
  intro s t a hrun
  rw [run_liftM] at hrun
  cases hrun
  exact h a rfl

/-- A property of results, one step after another. -/
theorem bind {d : Step σ α} {f : α → Step σ β} (hd : d.Returns p)
    (hf : ∀ a, p a → (f a).Returns r) : (d >>= f).Returns r := by
  constructor
  intro s t b hrun
  rw [run_bind] at hrun
  split at hrun
  · rename_i a u hfirst
    exact (hf a (hd.of_run hfirst)).of_run hrun
  · cases hrun

/-- A step that follows a known result. -/
theorem ok_bind {a : α} {f : α → Step σ β} (h : (f a).Returns r) :
    ((liftM (Except.ok a : Outcome α) : Step σ α) >>= f).Returns r := h

/-- Nothing is returned after a fault. -/
theorem throw_bind (fault : Fault) (f : α → Step σ β) :
    ((throw fault : Step σ α) >>= f).Returns r := of_throw fault

theorem of_map {d : Step σ α} (hd : d.Returns p) {f : α → β} (h : ∀ a, p a → r (f a)) :
    Returns (f <$> d) r := by
  constructor
  intro s t b hrun
  rw [run_map] at hrun
  cases hfirst : (run d s).1 with
  | error fault =>
      rw [hfirst] at hrun
      cases hrun
  | ok a =>
      rw [hfirst] at hrun
      cases hrun
      exact h a (hd.of_run (Prod.ext hfirst rfl))

theorem mono {d : Step σ α} (h : d.Returns p) (himp : ∀ a, p a → q a) : d.Returns q :=
  ⟨fun hrun => himp _ (h.of_run hrun)⟩

/-- Steps that each return a known result return the list of them. -/
theorem of_mapM {γ : Type} {f : γ → Step σ α} {g : γ → α} {xs : List γ}
    (h : ∀ x ∈ xs, (f x).Returns (· = g x)) : (xs.mapM f).Returns (· = xs.map g) := by
  induction xs with
  | nil =>
      rw [List.mapM_nil]
      exact of_pure rfl
  | cons x xs ih =>
      rw [List.mapM_cons]
      refine bind (h x List.mem_cons_self) ?_
      rintro y rfl
      refine bind (ih fun z hz => h z (List.mem_cons_of_mem x hz)) ?_
      rintro ys rfl
      exact of_pure rfl

end Returns

end Step

namespace Source

open Step

/-! ## Single draws -/

/-- A draw that is repeated until it is accepted returns one that is. -/
theorem retry_returns {α : Type} {draw : Draw α} {p : α → Prop} (hdraw : draw.Returns p)
    (accept : α → Bool) (attempts : Nat) :
    (retry draw accept attempts).Returns fun x => p x ∧ accept x = true := by
  induction attempts with
  | zero => exact Returns.of_throw .stalled
  | succ attempts ih =>
      unfold retry
      apply Returns.bind hdraw
      intro x hx
      split
      · exact Returns.of_pure ⟨hx, ‹_›⟩
      · exact ih

/-- A number drawn below a bound lies below it. -/
theorem below_returns (n : Nat) : (below n).Returns (· < n) := by
  unfold below
  apply Returns.bind (Returns.any _)
  intro s _
  apply (retry_returns (Returns.any _) _ _).mono
  rintro x ⟨-, hx⟩
  exact of_decide_eq_true hx

/-- An integer drawn between two bounds lies between them. -/
theorem between_returns {lower upper : Int} (h : lower ≤ upper) :
    (between lower upper).Returns fun n => lower ≤ n ∧ n ≤ upper := by
  unfold between
  apply Returns.bind (below_returns _)
  intro x hx
  apply Returns.of_pure
  omega

/-- An integer drawn from a range lies in the range. -/
theorem integerRange_returns (low high : Numeral) :
    (integerRange (.num low) (.num high)).Returns fun n =>
      low.value ≤ n.value ∧ n.value ≤ high.value := by
  unfold integerRange
  simp only [requireInteger_num, requireOrdered_num]
  apply Returns.ok_bind
  apply Returns.ok_bind
  apply Returns.bind (p := fun _ => low.value ≤ high.value)
  · apply Returns.of_liftM
    intro _ hordered
    split at hordered
    · cases hordered
    · exact Int.not_lt.mp ‹_›
  · intro _ hle
    split
    · apply Returns.of_pure
      exact ⟨Int.le_refl _, hle⟩
    · exact Returns.bind (between_returns hle) fun n hn => Returns.of_pure hn

/-! ## Several positions -/

/-- A list with the entry at a position taken out, its place being taken by the last one, is made of
the other entries. -/
theorem cons_set_last_perm {pool : List Nat} {j : Nat} (hj : j < pool.length) :
    (pool.getD j 0 :: (pool.set j (pool.getD (pool.length - 1) 0)).dropLast).Perm pool := by
  rcases pool.eq_nil_or_concat' with rfl | ⟨front, last, rfl⟩
  · exact absurd hj (Nat.not_lt_zero j)
  · have hlen : (front ++ [last]).length - 1 = front.length := by simp
    have hlast : (front ++ [last]).getD front.length 0 = last := by simp
    rw [hlen, hlast]
    rw [List.length_append, List.length_singleton] at hj
    rcases Nat.lt_or_ge j front.length with hlt | hge
    · -- the chosen entry lies in front, and the last one takes its place
      have hget : (front ++ [last]).getD j 0 = front[j] := by
        rw [List.getD_append _ _ _ _ hlt, List.getD_eq_getElem _ _ hlt]
      rw [hget, List.set_append_left j last hlt, List.dropLast_concat]
      have hsplit : front = front.take j ++ front[j] :: front.drop (j + 1) := by
        rw [← List.drop_eq_getElem_cons hlt, List.take_append_drop]
      rw [List.set_eq_take_append_cons_drop, if_pos hlt]
      refine List.perm_middle.symm.trans ?_
      refine (((List.perm_append_singleton last _).symm.cons front[j]).append_left _).trans ?_
      rw [← List.cons_append, ← List.append_assoc, ← hsplit]
    · -- the chosen entry is the last one
      have hat : j = front.length := by omega
      subst hat
      rw [hlast, List.set_append_right _ _ hge, Nat.sub_self]
      show (last :: (front ++ [last]).dropLast).Perm (front ++ [last])
      rw [List.dropLast_concat]
      exact (List.perm_append_singleton last front).symm

/-- Positions chosen from a pool of distinct ones are distinct ones of the pool. -/
theorem fromPool_returns (k : Nat) {pool : List Nat} (hpool : pool.Nodup) :
    (fromPool pool k).Returns fun js => js.length = k ∧ js.Nodup ∧ ∀ j ∈ js, j ∈ pool := by
  induction k generalizing pool with
  | zero => exact Returns.of_pure ⟨rfl, List.nodup_nil, by simp⟩
  | succ k ih =>
      unfold fromPool
      apply Returns.bind (below_returns pool.length)
      intro j hj
      have hperm := cons_set_last_perm hj
      have hnodup := hperm.nodup_iff.mpr hpool
      obtain ⟨hnot, hrest⟩ := List.nodup_cons.mp hnodup
      apply Returns.bind (ih hrest)
      rintro js ⟨hlen, hjs, hmem⟩
      apply Returns.of_pure
      have hnew : pool.getD j 0 ∉ js := fun h => hnot (hmem _ h)
      refine ⟨by rw [List.length_cons, hlen], List.nodup_cons.mpr ⟨hnew, hjs⟩, ?_⟩
      intro i hi
      apply hperm.mem_iff.mp
      rcases List.mem_cons.mp hi with rfl | hi
      · exact List.mem_cons_self
      · exact List.mem_cons_of_mem _ (hmem i hi)

/-- Positions that are drawn again as long as they are chosen already are distinct new ones. -/
theorem fromRedraws_returns (n k : Nat) (chosen : List Nat) :
    (fromRedraws n chosen k).Returns fun js =>
      js.length = k ∧ js.Nodup ∧ ∀ j ∈ js, j < n ∧ j ∉ chosen := by
  induction k generalizing chosen with
  | zero => exact Returns.of_pure ⟨rfl, List.nodup_nil, by simp⟩
  | succ k ih =>
      unfold fromRedraws
      apply Returns.bind (Returns.any _)
      intro s _
      apply Returns.bind (retry_returns (below_returns n) _ _)
      rintro j ⟨hj, haccept⟩
      have hnew : j ∉ chosen := by simpa using haccept
      apply Returns.bind (ih (j :: chosen))
      rintro js ⟨hlen, hjs, hmem⟩
      apply Returns.of_pure
      have hnot : j ∉ js := fun h => (hmem j h).2 List.mem_cons_self
      refine ⟨by rw [List.length_cons, hlen], List.nodup_cons.mpr ⟨hnot, hjs⟩, ?_⟩
      intro i hi
      rcases List.mem_cons.mp hi with rfl | hi
      · exact ⟨hj, hnew⟩
      · exact ⟨(hmem i hi).1, fun h => (hmem i hi).2 (List.mem_cons_of_mem j h)⟩

/-- As many distinct positions are chosen as asked for, in either way. -/
theorem positions_returns (n k : Nat) :
    (positions n k).Returns fun js => js.length = k ∧ js.Nodup ∧ ∀ j ∈ js, j < n := by
  unfold positions
  split
  · apply (fromPool_returns k List.nodup_range).mono
    rintro js ⟨hlen, hjs, hmem⟩
    exact ⟨hlen, hjs, fun j hj => List.mem_range.mp (hmem j hj)⟩
  · apply (fromRedraws_returns n k []).mono
    rintro js ⟨hlen, hjs, hmem⟩
    exact ⟨hlen, hjs, fun j hj => (hmem j hj).1⟩

/-! ## Elements of a span -/

/-- An item of a span, by its position. -/
theorem item_toRange (bits : Span Numeral) (hstart : 0 ≤ bits.start.value) {j : Nat}
    (hj : j < bits.size) :
    bits.toRange.item (.nat j) = .ok (.nat (bits.start.value.toNat + j)) := by
  have hposition : bits.toRange.position (.num (.plain j)) bits.size = .ok j :=
    Datum.position_num (Int.natCast_nonneg j) (Int.ofNat_lt.mpr hj)
  have hterm : bits.start.value + 1 * (j : Int) = (bits.start.value.toNat + j : Nat) := by omega
  unfold Span.toRange at hposition ⊢
  rw [Datum.item, Datum.rangeLength_one, Datum.nat, Datum.int, ← Span.size, hposition]
  show Except.ok (Datum.int (bits.start.value + 1 * (j : Int))) = _
  rw [hterm]
  rfl

variable [Memory]

/-- A choice from a span is made of distinct elements of it, as many as asked for, and no more than
memory has room for. -/
theorem chooseMultiple_returns (bits : Span Numeral) (hstart : 0 ≤ bits.start.value)
    (n : Numeral) :
    (chooseMultiple bits.toRange (.num n)).Returns fun ds =>
      n.value ≤ Datum.memory ∧ ∃ bs : List Nat, ds = bs.map Datum.nat ∧
        (bs.length : Int) = n.value ∧ bs.Nodup ∧
        ∀ b ∈ bs, bits.start.value ≤ b ∧ b < bits.endExcl.value := by
  have hlength : ∀ m, bits.toRange.length = .ok m → m = bits.size := by
    intro m hm
    rw [bits.length_toRange] at hm
    exact Datum.eq_of_reportable hm
  have hitem : ∀ j, j < bits.size → (Step.Returns (σ := Source)
      (liftM (bits.toRange.item (.nat j))) (· = Datum.nat (bits.start.value.toNat + j))) := by
    intro j hj
    rw [item_toRange bits hstart hj]
    exact Returns.of_liftM fun d hd => (Except.ok.inj hd).symm
  unfold chooseMultiple
  rw [requireInteger_num]
  apply Returns.ok_bind
  apply Returns.bind (p := (· = bits.size)) (Returns.of_liftM hlength)
  rintro size rfl
  unfold Span.toRange
  dsimp only
  split
  · exact Returns.throw_bind _ _
  · rename_i hinside
    apply Returns.bind (Returns.of_liftM fun _ hmade => Datum.le_memory_of_sized hmade)
    intro _ hfits
    apply Returns.bind (positions_returns _ _)
    rintro js ⟨hlen, hnodup, hlt⟩
    apply (Returns.of_mapM fun j hj => hitem j (hlt j hj)).mono
    rintro _ rfl
    refine ⟨hfits, js.map (bits.start.value.toNat + ·), by rw [List.map_map]; rfl, ?_,
      hnodup.map fun i j h => Nat.add_left_cancel h, ?_⟩
    · rw [List.length_map, hlen]
      omega
    · intro b hb
      obtain ⟨j, hj, rfl⟩ := List.mem_map.mp hb
      have hin := hlt j hj
      unfold Span.size at hin
      omega

/-! ## A number and a choice -/

/-- A number between the bounds of a size, and then that many elements of a span. -/
def selection (size bits : Span Numeral) : Draw (Numeral × List Datum) := do
  let count ← integerRange (.num size.start) (.int size.last)
  let chosen ← chooseMultiple bits.toRange (.num count)
  return (count, chosen)

/-- A number between the bounds of a size, and as many distinct elements of a span. Memory has room
for them. -/
structure Selected (size bits : Span Numeral) (count : Numeral) (chosen : List Nat) : Prop where
  count_mem : size.start.value ≤ count.value ∧ count.value ≤ size.last
  count_le : count.value ≤ Datum.memory
  length_eq : (chosen.length : Int) = count.value
  nodup : chosen.Nodup
  bounds : ∀ b ∈ chosen, bits.start.value ≤ b ∧ b < bits.endExcl.value

/-- Memory that has room for as many entries as a size can ask for has room for fewer. -/
theorem sized_of_le {n most : Int} {made : Nat} (hmade : Datum.sized most = .ok made)
    (hn : 0 ≤ n) (hle : n ≤ most) : Datum.sized n = .ok n.toNat :=
  Datum.sized_eq_ok hn (Int.le_trans hle (Datum.le_memory_of_sized hmade))

/-- What is selected is a number of the size, and as many distinct elements of the span. -/
theorem selection_returns (size : Span Numeral) {bits : Span Numeral}
    (hstart : 0 ≤ bits.start.value) :
    (selection size bits).Returns fun drawn =>
      ∃ chosen : List Nat, drawn.2 = chosen.map Datum.nat ∧ Selected size bits drawn.1 chosen := by
  unfold selection
  apply Returns.bind (integerRange_returns size.start (.plain size.last))
  intro count hcount
  apply Returns.bind (chooseMultiple_returns bits hstart count)
  rintro _ ⟨hfits, chosen, rfl, hlen, hnodup, hbounds⟩
  exact Returns.of_pure ⟨chosen, rfl, hcount, hfits, hlen, hnodup, hbounds⟩

end Source

end FlagSets
