import FlagSets.Proofs.Draws

/-!
# Draws fail only when their source does

A source fails in one of two ways. A tape has no entries left, or a twister is given up after too
many draws in a row were rejected. A tape is never given up: its patience exceeds the number of its
entries, and every rejected draw takes one of them, so that it ends first.

To show this for a draw that is repeated, a draw keeps count of the entries it takes at least. The
count is kept through every sequence of steps; a draw from the source takes one entry, a step that
draws nothing takes none.

## Main results

* `retry_ends` : patience for all entries of a tape is never exhausted.
* `below_takes` : a drawn number takes an entry, and fails only with its source.
* `integerRange_takes`, `chooseMultiple_takes` : so do an integer and a choice, if there is any.
* `selection_takes` : so does a choice of a drawn number of elements.
-/

namespace FlagSets.Source

/-- How a source fails: a tape without entries, or a twister that was given up. -/
inductive Spent : Fault → Source → Prop
  | dry : Spent .dry (.tape [])
  | stalled (t : Twister) : Spent .stalled (.twister t)

/-- A source from which at least `n` entries were taken, and what is left of it. Only a tape has
entries to count. -/
inductive Leaves (n : Nat) : Source → Source → Prop
  | twister (t u : Twister) : Leaves n (.twister t) (.twister u)
  | tape {entries rest : List Int} (h : rest.length + n ≤ entries.length) :
      Leaves n (.tape entries) (.tape rest)

namespace Leaves

variable {m n : Nat} {s t u : Source}

theorem refl (s : Source) : Leaves 0 s s := by
  cases s with
  | twister t => exact .twister t t
  | tape entries => exact .tape (Nat.le_refl _)

theorem trans (h : Leaves m s t) (h' : Leaves n t u) : Leaves (m + n) s u := by
  cases h with
  | twister t t' =>
      cases h' with
      | twister _ u => exact .twister t u
  | tape hlen =>
      cases h' with
      | tape hlen' => exact .tape (by omega)

theorem mono (h : Leaves n s t) (hmn : m ≤ n) : Leaves m s t := by
  cases h with
  | twister t u => exact .twister t u
  | tape hlen => exact .tape (by omega)

end Leaves

/-- How a draw ends: with a result after at least `n` entries, or with a spent source. -/
inductive Ends {α : Type} (n : Nat) (s : Source) : Outcome α × Source → Prop
  | ok {t : Source} (a : α) (h : Leaves n s t) : Ends n s (.ok a, t)
  | error {fault : Fault} {t : Source} (h : Spent fault t) : Ends n s (.error fault, t)

/-- What follows on some taken entries ends with more of them taken. -/
theorem Ends.after {α : Type} {m n : Nat} {s t : Source} {ending : Outcome α × Source}
    (h : Ends n t ending) (hleaves : Leaves m s t) : Ends (m + n) s ending := by
  cases h with
  | ok a h => exact .ok a (hleaves.trans h)
  | error h => exact .error h

theorem Ends.mono {α : Type} {m n : Nat} {s : Source} {ending : Outcome α × Source}
    (h : Ends n s ending) (hmn : m ≤ n) : Ends m s ending := by
  cases h with
  | ok a h => exact .ok a (h.mono hmn)
  | error h => exact .error h

/-- A draw that takes at least `n` entries of a tape, and fails only when its source does. -/
structure Takes {α : Type} (n : Nat) (d : Draw α) : Prop where
  ends : ∀ s, Ends n s (d.run s)

namespace Takes

variable {α β : Type} {d : Draw α} {m n : Nat}

theorem of_pure (a : α) : Takes 0 (pure a : Draw α) := ⟨fun s => .ok a (.refl s)⟩

theorem of_liftM {o : Outcome α} {a : α} (h : o = .ok a) : Takes 0 (liftM o : Draw α) := by
  constructor
  intro s
  rw [Step.run_liftM, h]
  exact .ok a (.refl s)

/-- One step after another. The second one may rely on what the first one returns. -/
theorem bind {p : α → Prop} {f : α → Draw β} (hp : d.Returns p) (hd : Takes m d)
    (hf : ∀ a, p a → Takes n (f a)) : Takes (m + n) (d >>= f) := by
  constructor
  intro s
  have hfirst := hd.ends s
  rw [Step.run_bind]
  cases hrun : d.run s with
  | mk outcome t =>
      rw [hrun] at hfirst
      cases hfirst with
      | ok a hleaves => exact ((hf a (hp.of_run hrun)).ends t).after hleaves
      | error hspent => exact .error hspent

theorem mono (h : Takes n d) (hmn : m ≤ n) : Takes m d := ⟨fun s => (h.ends s).mono hmn⟩

/-- One step after another, where the entries taken do not matter. -/
theorem bind_zero {p : α → Prop} {f : α → Draw β} (hp : d.Returns p) (hd : Takes m d)
    (hf : ∀ a, p a → Takes 0 (f a)) : Takes 0 (d >>= f) :=
  (bind hp hd hf).mono (Nat.zero_le _)

/-- A function applied to a result takes nothing. -/
theorem map (hd : Takes n d) (f : α → β) : Takes n (f <$> d) := by
  constructor
  intro s
  have hends := hd.ends s
  rw [Step.run_map]
  cases hrun : d.run s with
  | mk outcome t =>
      rw [hrun] at hends
      cases hends with
      | ok a hleaves => exact .ok (f a) hleaves
      | error hspent => exact .error hspent

/-- A step that follows a known result. -/
theorem ok_bind {o : Outcome α} {a : α} (ho : o = .ok a) {f : α → Draw β} (hf : Takes n (f a)) :
    Takes n (liftM o >>= f) := by
  constructor
  intro s
  rw [Step.run_bind, Step.run_liftM, ho]
  exact hf.ends s

theorem of_mapM {γ : Type} {f : γ → Draw α} {xs : List γ} (h : ∀ x ∈ xs, Takes 0 (f x)) :
    Takes 0 (xs.mapM f) := by
  induction xs with
  | nil =>
      rw [List.mapM_nil]
      exact of_pure []
  | cons x xs ih =>
      rw [List.mapM_cons]
      refine bind_zero (.any _) (h x List.mem_cons_self) fun y _ => ?_
      exact bind_zero (.any _) (ih fun z hz => h z (List.mem_cons_of_mem x hz)) fun ys _ =>
        of_pure (y :: ys)

end Takes

/-! ## Single draws -/

/-- The next bits are an entry of a tape, if there is one. -/
theorem bits_takes (k : Nat) : Takes 1 (bits k) := by
  constructor
  intro s
  cases s with
  | twister t => exact .ok _ (.twister t _)
  | tape entries =>
      cases entries with
      | nil => exact .error .dry
      | cons entry rest => exact .ok _ (.tape (Nat.le_refl _))

/-- With more attempts than entries, a tape ends before the attempts do. -/
theorem retry_ends {α : Type} {draw : Draw α} (hdraw : Takes 1 draw) (accept : α → Bool)
    (attempts : Nat) {s : Source} (hs : ∀ entries, s = .tape entries → entries.length < attempts) :
    Ends 1 s ((retry draw accept attempts).run s) := by
  induction attempts generalizing s with
  | zero =>
      cases s with
      | twister t => exact .error (.stalled t)
      | tape entries => exact absurd (hs entries rfl) (Nat.not_lt_zero _)
  | succ attempts ih =>
      have hfirst := hdraw.ends s
      rw [retry, Step.run_bind]
      cases hrun : draw.run s with
      | mk outcome t =>
          rw [hrun] at hfirst
          cases hfirst with
          | error hspent => exact .error hspent
          | ok x hleaves =>
              show Ends 1 s ((if accept x then pure x else retry draw accept attempts :
                Draw α).run t)
              by_cases haccept : accept x = true
              · rw [if_pos haccept, Step.run_pure]
                exact .ok x hleaves
              · rw [if_neg haccept]
                have hrest : ∀ rest, t = .tape rest → rest.length < attempts := by
                  rintro rest rfl
                  cases hleaves with
                  | tape hlen =>
                      have hless := hs _ rfl
                      omega
                exact ((ih hrest).after hleaves).mono (Nat.le_add_left 1 1)

/-- A source is patient enough for its own draws. -/
theorem patient_takes {α : Type} {draw : Draw α} (hdraw : Takes 1 draw) (accept : α → Bool) :
    Takes 1 (do let s ← get; retry draw accept s.patience) := by
  constructor
  intro s
  rw [Step.run_bind, Step.run_get]
  apply retry_ends hdraw accept
  rintro entries rfl
  exact Nat.lt_succ_self _

theorem boolean_takes : Takes 1 boolean :=
  Takes.bind (.any _) (bits_takes 1) fun _ _ => .of_pure _

theorem below_takes (n : Nat) : Takes 1 (below n) := patient_takes (bits_takes _) _

theorem between_takes (lower upper : Int) : Takes 1 (between lower upper) :=
  Takes.bind (.any _) (below_takes _) fun _ _ => .of_pure _

/-- An integer between two bounds in order is drawn, unless the source fails. -/
theorem integerRange_takes {low high : Numeral} (h : low.value ≤ high.value) :
    Takes 0 (integerRange (.num low) (.num high)) := by
  have hordered : requireOrdered (.num low) (.num high) "lower" "upper" = .ok () := by
    rw [requireOrdered_num, if_neg (Int.not_lt.mpr h)]
  unfold integerRange
  apply Takes.ok_bind (requireInteger_num low "lower")
  apply Takes.ok_bind (requireInteger_num high "upper")
  apply Takes.ok_bind hordered
  split
  · exact Takes.of_pure low
  · exact Takes.bind_zero (.any _) (between_takes _ _) fun n _ => .of_pure (Numeral.plain n)

/-! ## Several positions -/

theorem fromPool_takes (pool : List Nat) (k : Nat) : Takes 0 (fromPool pool k) := by
  induction k generalizing pool with
  | zero => exact Takes.of_pure []
  | succ k ih =>
      unfold fromPool
      refine Takes.bind_zero (.any _) (below_takes pool.length) fun j _ => ?_
      exact Takes.bind_zero (.any _) (ih _) fun rest _ => .of_pure _

theorem fromRedraws_takes (n k : Nat) (chosen : List Nat) : Takes 0 (fromRedraws n chosen k) := by
  induction k generalizing chosen with
  | zero => exact Takes.of_pure []
  | succ k ih =>
      have hdrawn := Takes.bind_zero (.any _)
        (patient_takes (below_takes n) fun j => !chosen.contains j)
        fun j _ => Takes.bind_zero (.any _) (ih (j :: chosen)) fun rest _ => .of_pure (j :: rest)
      rw [bind_assoc] at hdrawn
      exact hdrawn

theorem positions_takes (n k : Nat) : Takes 0 (positions n k) := by
  unfold positions
  split
  · exact fromPool_takes _ k
  · exact fromRedraws_takes n k []

variable [Memory]

/-- As many elements of a span as there are can be chosen, unless the source fails. -/
theorem chooseMultiple_takes {bits : Span Numeral} (hstart : 0 ≤ bits.start.value)
    (hlength : bits.toRange.length = .ok bits.size) {n : Numeral} (hn : 0 ≤ n.value)
    (hsize : n.value ≤ bits.size) {made : Nat} (hmade : Datum.sized n.value = .ok made) :
    Takes 0 (chooseMultiple bits.toRange (.num n)) := by
  unfold chooseMultiple
  apply Takes.ok_bind (requireInteger_num n "n")
  apply Takes.ok_bind hlength
  rw [if_neg (by omega)]
  unfold Span.toRange
  dsimp only
  apply Takes.ok_bind hmade
  apply Takes.bind_zero (positions_returns _ _) (positions_takes _ _)
  rintro js ⟨-, -, hlt⟩
  apply Takes.of_mapM
  intro j hj
  exact Takes.of_liftM (item_toRange bits hstart (hlt j hj))

/-- A number of elements of a span can be selected if there are as many, unless the source fails. -/
theorem selection_takes {size bits : Span Numeral} (hstart : 0 ≤ bits.start.value)
    (hlength : bits.toRange.length = .ok bits.size) (hleast : 0 ≤ size.start.value)
    (horder : size.start.value ≤ size.last) (hmost : size.last ≤ bits.size) {made : Nat}
    (hmade : Datum.sized size.last = .ok made) : Takes 0 (selection size bits) := by
  unfold selection
  apply Takes.bind_zero (integerRange_returns size.start (.plain size.last))
    (integerRange_takes horder)
  rintro count ⟨hlow, hhigh⟩
  rw [Numeral.value_plain] at hhigh
  have hcount : 0 ≤ count.value := Int.le_trans hleast hlow
  exact Takes.bind_zero (.any _)
    (chooseMultiple_takes hstart hlength hcount (Int.le_trans hhigh hmost)
      (sized_of_le hmade hcount hhigh))
    fun chosen _ => .of_pure (count, chosen)

end FlagSets.Source
