import FlagSets.Proofs.Draws
import Mathlib.Data.List.Perm.Subperm

/-!
# Tapes that lead to a result

A source can be anything, so a result that a draw can have at all is one that some tape leads to.
This module finds the tape. What makes it compose is that a draw reads its own entries and leaves
the rest of the tape as it is: the tape of two steps is that of the first followed by that of the
second.

No draw along such a tape is ever rejected. An integer is put on the tape by its distance from the
lower bound; the positions of a choice are put on it one by one, as they stand in what is left of
the pool, or as they are when drawn again.

## Main results

* `Reads.bind` : the tape of one step followed by another.
* `below_reads`, `integerRange_reads` : every integer within its bounds can be drawn.
* `positions_reads` : any distinct positions can be chosen, in any order.
* `chooseMultiple_reads`, `selection_reads` : so can any distinct elements of a span.
-/

namespace FlagSets.Source

/-- A draw that reads exactly the given entries off a tape and comes to a result, whatever follows
them. -/
structure Reads {α : Type} (d : Draw α) (entries : List Int) (a : α) : Prop where
  run_eq : ∀ rest, d.run (.tape (entries ++ rest)) = (.ok a, .tape rest)

namespace Reads

variable {α β : Type} {d : Draw α} {entries more : List Int} {a : α}

theorem of_pure (a : α) : Reads (pure a) [] a := ⟨fun _ => rfl⟩

theorem of_liftM {o : Outcome α} (h : o = .ok a) : Reads (liftM o) [] a := by
  constructor
  intro rest
  rw [Step.run_liftM, h]
  rfl

/-- The tape of one step followed by another. -/
theorem bind {f : α → Draw β} {b : β} (hd : Reads d entries a) (hf : Reads (f a) more b) :
    Reads (d >>= f) (entries ++ more) b := by
  constructor
  intro rest
  rw [Step.run_bind, List.append_assoc, hd.run_eq]
  exact hf.run_eq rest

/-- A step that follows a known result. -/
theorem ok_bind {o : Outcome α} {f : α → Draw β} {b : β} (ho : o = .ok a)
    (hf : Reads (f a) more b) : Reads (liftM o >>= f) more b :=
  (of_liftM ho).bind hf

/-- A step that ends with a function of a result. -/
theorem bind_pure {b : β} (hd : Reads d entries a) {f : α → Draw β} (hf : f a = pure b) :
    Reads (d >>= f) entries b := by
  have hread : Reads (d >>= f) (entries ++ []) b := hd.bind (by rw [hf]; exact of_pure b)
  rwa [List.append_nil] at hread

/-- Steps that draw nothing give the list of their results. -/
theorem of_mapM {γ : Type} {f : γ → Draw α} {g : γ → α} {xs : List γ}
    (h : ∀ x ∈ xs, Reads (f x) [] (g x)) : Reads (xs.mapM f) [] (xs.map g) := by
  induction xs with
  | nil =>
      rw [List.mapM_nil]
      exact of_pure []
  | cons x xs ih =>
      rw [List.mapM_cons]
      have hrest := ih fun y hy => h y (List.mem_cons_of_mem x hy)
      exact (h x List.mem_cons_self).bind (hrest.bind_pure rfl)

end Reads

/-! ## Single draws -/

/-- The first draw is accepted. -/
theorem retry_reads {α : Type} {draw : Draw α} {entries : List Int} {x : α}
    (hdraw : Reads draw entries x) {accept : α → Bool} (haccept : accept x = true)
    (attempts : Nat) : Reads (retry draw accept (attempts + 1)) entries x := by
  apply hdraw.bind_pure
  rw [if_pos haccept]

/-- There is patience for one draw at least. -/
theorem patient_reads {α : Type} {draw : Draw α} {entries : List Int} {x : α}
    (hdraw : Reads draw entries x) {accept : α → Bool} (haccept : accept x = true) :
    Reads (do let s ← get; retry draw accept s.patience) entries x := by
  constructor
  intro rest
  rw [Step.run_bind, Step.run_get]
  exact (retry_reads hdraw haccept _).run_eq rest

theorem bits_reads {k n : Nat} (h : n < 1 <<< k) : Reads (bits k) [(n : Int)] n := by
  have hcut : ((n : Int) % ((1 <<< k : Nat) : Int)).toNat = n := by
    rw [← Int.natCast_emod, Nat.mod_eq_of_lt h, Int.toNat_natCast]
  constructor
  intro rest
  show (Except.ok ((n : Int) % ((1 <<< k : Nat) : Int)).toNat, Source.tape rest) = _
  rw [hcut]

/-- A coin comes up for an entry of one, and does not for zero. -/
theorem boolean_reads (coin : Bool) : Reads boolean [(coin.toNat : Int)] coin := by
  cases coin with
  | false => exact ⟨fun _ => rfl⟩
  | true => exact ⟨fun _ => rfl⟩

/-- Every number below a bound can be drawn. -/
theorem below_reads {n j : Nat} (h : j < n) : Reads (below n) [(j : Int)] j := by
  have hbits : j < 1 <<< (n.log2 + 1) := by
    rw [Nat.one_shiftLeft]
    exact Nat.lt_trans h Nat.lt_log2_self
  exact patient_reads (bits_reads hbits) (decide_eq_true h)

/-- Every integer between two bounds can be drawn. -/
theorem integerRange_reads {low high : Numeral} {n : Int} (hlow : low.value ≤ n)
    (hhigh : n ≤ high.value) : ∃ entries, ∃ m : Numeral, m.value = n ∧
      Reads (integerRange (.num low) (.num high)) entries m := by
  have hordered : requireOrdered (.num low) (.num high) "lower" "upper" = .ok () := by
    rw [requireOrdered_num, if_neg (by omega)]
  unfold integerRange
  by_cases hsame : low.value = high.value
  · refine ⟨[], low, by omega, ?_⟩
    apply Reads.ok_bind (requireInteger_num low "lower")
    apply Reads.ok_bind (requireInteger_num high "upper")
    apply Reads.ok_bind hordered
    rw [if_pos hsame]
    exact Reads.of_pure low
  · have hbelow : (n - low.value).toNat < (high.value - low.value + 1).toNat := by omega
    have hsum : low.value + ((n - low.value).toNat : Int) = n := by omega
    refine ⟨[((n - low.value).toNat : Int)], .plain n, rfl, ?_⟩
    apply Reads.ok_bind (requireInteger_num low "lower")
    apply Reads.ok_bind (requireInteger_num high "upper")
    apply Reads.ok_bind hordered
    rw [if_neg hsame]
    refine Reads.bind_pure (a := n) ?_ rfl
    apply (below_reads hbelow).bind_pure
    rw [hsum]

/-! ## Several positions -/

/-- Any distinct entries of a pool can be chosen, in any order. -/
theorem fromPool_reads {pool js : List Nat} (hpool : pool.Nodup) (hjs : js.Nodup)
    (hmem : ∀ j ∈ js, j ∈ pool) : ∃ entries, Reads (fromPool pool js.length) entries js := by
  induction js generalizing pool with
  | nil => exact ⟨[], Reads.of_pure []⟩
  | cons j js ih =>
      have hj := hmem j List.mem_cons_self
      have hplace : pool.idxOf j < pool.length := List.idxOf_lt_length_iff.mpr hj
      have hget : pool.getD (pool.idxOf j) 0 = j := by
        rw [List.getD_eq_getElem _ _ hplace, List.getElem_idxOf]
      obtain ⟨hnew, hjs⟩ := List.nodup_cons.mp hjs
      -- what is left of the pool has all entries but the chosen one
      have hperm := cons_set_last_perm hplace
      rw [hget] at hperm
      have hleft : ∀ i ∈ js, i ∈
          (pool.set (pool.idxOf j) (pool.getD (pool.length - 1) 0)).dropLast := by
        intro i hi
        have hin := hperm.mem_iff.mpr (hmem i (List.mem_cons_of_mem j hi))
        rcases List.mem_cons.mp hin with rfl | h
        · exact absurd hi hnew
        · exact h
      obtain ⟨entries, hrest⟩ := ih (List.nodup_cons.mp (hperm.nodup_iff.mpr hpool)).2 hjs hleft
      refine ⟨[(pool.idxOf j : Int)] ++ entries, ?_⟩
      rw [List.length_cons, fromPool]
      apply (below_reads hplace).bind
      apply hrest.bind_pure
      rw [hget]

/-- Any distinct positions that are not chosen yet can be drawn, in any order. -/
theorem fromRedraws_reads {n : Nat} {js chosen : List Nat} (hjs : js.Nodup)
    (hnew : ∀ j ∈ js, j < n ∧ j ∉ chosen) :
    Reads (fromRedraws n chosen js.length) (js.map Int.ofNat) js := by
  induction js generalizing chosen with
  | nil => exact Reads.of_pure []
  | cons j js ih =>
      obtain ⟨hlt, hnot⟩ := hnew j List.mem_cons_self
      obtain ⟨hother, hjs⟩ := List.nodup_cons.mp hjs
      have hbehind : ∀ i ∈ js, i < n ∧ i ∉ j :: chosen := by
        intro i hi
        obtain ⟨hi', hfree⟩ := hnew i (List.mem_cons_of_mem j hi)
        refine ⟨hi', List.not_mem_cons_of_ne_of_not_mem ?_ hfree⟩
        rintro rfl
        exact hother hi
      have haccept : (!chosen.contains j) = true := by simpa using hnot
      have hfirst : Reads
          (do let s ← get; retry (below n) (fun i => !chosen.contains i) s.patience)
          [(j : Int)] j :=
        patient_reads (below_reads hlt) haccept
      have hboth := hfirst.bind ((ih hjs hbehind).bind_pure rfl)
        (f := fun i => do let rest ← fromRedraws n (i :: chosen) js.length; return i :: rest)
      rw [bind_assoc] at hboth
      exact hboth

/-- Any distinct positions can be chosen, in any order and in either way. -/
theorem positions_reads {n : Nat} {js : List Nat} (hjs : js.Nodup) (hlt : ∀ j ∈ js, j < n) :
    ∃ entries, Reads (positions n js.length) entries js := by
  unfold positions
  split
  · exact fromPool_reads List.nodup_range hjs fun j hj => List.mem_range.mpr (hlt j hj)
  · exact ⟨_, fromRedraws_reads hjs fun j hj => ⟨hlt j hj, List.not_mem_nil⟩⟩

variable [Memory]

/-- Any distinct elements of a span can be chosen, in any order, as far as memory goes. -/
theorem chooseMultiple_reads {bits : Span Numeral} (hstart : 0 ≤ bits.start.value)
    (hlength : bits.toRange.length = .ok bits.size) {bs : List Nat} (hbs : bs.Nodup)
    (hmem : ∀ b ∈ bs, bits.start.value ≤ b ∧ b < bits.endExcl.value) {n : Numeral}
    (hn : n.value = bs.length) {made : Nat} (hmade : Datum.sized n.value = .ok made) :
    ∃ entries, Reads (chooseMultiple bits.toRange (.num n)) entries (bs.map Datum.nat) := by
  obtain ⟨js, hjs, hback⟩ : ∃ js : List Nat, js.Nodup ∧
      js.map (bits.start.value.toNat + ·) = bs := by
    refine ⟨bs.map (· - bits.start.value.toNat), ?_, ?_⟩
    · apply hbs.map_on
      intro b hb c hc hsame
      have hb := hmem b hb
      have hc := hmem c hc
      omega
    · rw [List.map_map]
      refine (List.map_congr_left fun b hb => ?_).trans bs.map_id
      have hb := hmem b hb
      show bits.start.value.toNat + (b - bits.start.value.toNat) = b
      omega
  have hlt : ∀ j ∈ js, j < bits.size := by
    intro j hj
    have hb := hmem (bits.start.value.toNat + j) (hback ▸ List.mem_map_of_mem hj)
    unfold Span.size
    omega
  have hlen : js.length = bs.length := by rw [← hback, List.length_map]
  have hroom : js.length ≤ bits.size := by
    have hsub : js ⊆ List.range bits.size := fun j hj => List.mem_range.mpr (hlt j hj)
    have hle := (List.subperm_of_subset hjs hsub).length_le
    rwa [List.length_range] at hle
  obtain ⟨entries, hpositions⟩ := positions_reads hjs hlt
  refine ⟨entries, ?_⟩
  unfold chooseMultiple
  apply Reads.ok_bind (requireInteger_num n "n")
  apply Reads.ok_bind hlength
  rw [if_neg (by omega)]
  unfold Span.toRange
  dsimp only
  apply Reads.ok_bind hmade
  have hcount : n.value.toNat = js.length := by omega
  rw [hcount, ← List.append_nil entries, ← hback, List.map_map]
  apply hpositions.bind
  apply Reads.of_mapM
  intro j hj
  exact Reads.of_liftM (item_toRange bits hstart (hlt j hj))

/-- Any distinct elements of a span can be selected, in any order, if their number lies between the
bounds of the size and memory has room for them. -/
theorem selection_reads {size bits : Span Numeral} (hstart : 0 ≤ bits.start.value)
    (hlength : bits.toRange.length = .ok bits.size) {bs : List Nat} (hbs : bs.Nodup)
    (hmem : ∀ b ∈ bs, bits.start.value ≤ b ∧ b < bits.endExcl.value)
    (hleast : size.start.value ≤ bs.length) (hmost : (bs.length : Int) ≤ size.last)
    (hfits : bs.length ≤ Datum.memory) :
    ∃ entries, ∃ count : Numeral, count.value = bs.length ∧
      Reads (selection size bits) entries (count, bs.map Datum.nat) := by
  obtain ⟨first, count, hcount, hnumber⟩ : ∃ entries, ∃ n : Numeral, n.value = bs.length ∧
      Reads (integerRange (.num size.start) (.int size.last)) entries n :=
    integerRange_reads hleast hmost
  have hsized := Datum.sized_eq_ok (n := count.value) (by omega) (by omega)
  obtain ⟨second, hchoice⟩ := chooseMultiple_reads hstart hlength hbs hmem hcount hsized
  exact ⟨_, count, hcount, hnumber.bind (hchoice.bind_pure rfl)⟩

end FlagSets.Source
