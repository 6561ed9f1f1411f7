import FlagSets.Proofs.Kept

/-!
# One step back

`complicate` knows nothing of the value as it was before: it sets one bit again. That this gives the
very value back, with its sign and its length, rests on what the tree keeps from call to call. The
noted bit is one of the value that the tree started from, so there is room for it, and setting a
cleared bit again is the identity of every representation.

A value is handed back plainly spelled. This shows only where the tree was made with a level for a
number and nothing has been cleared yet.

## Main results

* `Kept.play_plain` : a tree over a plainly spelled value goes on to hold one.
* `complicate_undoes_simplify` : one step back is exact, and there is only one. The next bit that is
  cleared is a higher one.
-/

namespace FlagSets

/-- A value is what is left of another one when a set bit is cleared: as long as it was, and with
every other bit as it was. -/
structure Kind.Cleared (k : Kind) (b : Nat) (v w : Datum) : Prop where
  clear_eq : k.clear v (.nat b) = .ok w
  mem : b ∈ k.bitsOf v
  bitsOf_eq : k.bitsOf w = (k.bitsOf v).erase b
  length_eq : k.length w = k.length v

theorem Kind.IsValue.cleared {k : Kind} {v : Datum} (h : k.IsValue v) {b : Nat}
    (hb : k.has v b = true) : k.Cleared b v (k.without v b) where
  clear_eq := h.clear_eq (n := .plain b) (Int.natCast_nonneg b)
  mem := h.mem_bitsOf.mpr hb
  bitsOf_eq := h.bitsOf_without b
  length_eq := by rw [(h.without b).length_eq, h.capacity_without, h.length_eq]

namespace ValueTree

namespace Kept

variable {k : Kind} {v : Datum} {start floor : Numeral} {t : ValueTree}

variable [Memory]

/-- Looking at a tree gives the value that it holds. -/
theorem current_eq (hk : k.IsStandard) (h : t.Kept k v start floor) : t.current = .ok t.held := by
  rw [current, h.kind_eq]
  exact (h.isValue hk).copy_eq

/-- A tree that holds a plainly spelled value goes on to hold one. -/
theorem play_plain (hk : k.IsStandard) (hstart : 0 ≤ start.value) (h : t.Kept k v start floor)
    (hplain : t.held.plain = t.held) (moves : List Move) {answers : List Bool} {t' : ValueTree}
    (hrun : (ValueTree.play moves).run t = (.ok answers, t')) : t'.held.plain = t'.held := by
  induction moves generalizing t answers with
  | nil =>
      cases hrun
      exact hplain
  | cons m ms ih =>
      obtain ⟨answer, t₁, hrun₁, h₁, -, -⟩ := h.move hk hstart m
      obtain ⟨answers₂, t₂, hrun₂, -, -, -, -⟩ := h₁.play hk hstart ms
      simp only [ValueTree.play, Step.run_bind, hrun₁, hrun₂, Step.run_pure] at hrun
      cases hrun
      refine ih h₁ ?_ hrun₂
      -- one call keeps the spelling: what is written is written plainly
      cases m with
      | simplify =>
          obtain ⟨_, heq, -, hheld, -⟩ | ⟨b, _, _, -, -, -, rfl, heq, -⟩ :=
            h.simplify_cases hk hstart
          · cases hrun₁.symm.trans heq
            rw [hheld, hplain]
          · cases hrun₁.symm.trans heq
            exact (h.isValue hk).plain_without hplain b
      | complicate =>
          obtain heq | ⟨b, hb, _, heq, hheld, -, -⟩ := h.complicate_cases hk
          · cases hrun₁.symm.trans heq
            exact hplain
          · cases hrun₁.symm.trans heq
            rw [hheld]
            exact (h.isValue hk).plain_adding hb

end Kept

variable {k : Kind} {v : Datum} {start floor : Numeral} {t : ValueTree}

/-- A bit that was just cleared is set again by `complicate`, which brings the value back as it was,
and has nothing to set after that. -/
theorem complicate_of_cleared [Memory] (hk : k.IsStandard) (h : t.Kept k v start floor) {b : Nat}
    (hset : k.has t.held b = true) {d : Numeral} (hd : d.value = b) {cursor : Datum}
    {t' : ValueTree}
    (ht' : t' = ⟨k, k.without t.held b, cursor, some (.num d), .num floor⟩)
    (hkept : t'.Kept k v start floor) :
    ∃ t'', complicate.run t' = (.ok true, t'') ∧ t''.current = .ok t.held.plain ∧
      complicate.run t'' = (.ok false, t'') := by
  have hv := h.isValue hk
  have hroom : d.value < k.capacity (k.without t.held b) := by
    rw [hv.capacity_without, hd]
    exact_mod_cast hv.lt_capacity hset
  -- this sets the bit that was just cleared, which is the identity up to spelling
  have heq := complicate_noted (hv.without b) cursor (.num floor) (by omega) hroom
  rw [hd, Int.toNat_natCast, hv.adding_without hset, ← ht'] at heq
  obtain ⟨_, _, hrun, ht'', -⟩ := hkept.complicate hk
  cases hrun.symm.trans heq
  exact ⟨_, heq, ht''.current_eq hk, complicate_of_undo_none rfl⟩

/-- Whatever is called on a tree, the next bit that `simplify` clears lies at or after the position
where the tree is now. -/
theorem cleared_ahead [Memory] (hk : k.IsStandard) (hstart : 0 ≤ start.value)
    (h : t.Kept k v start floor) {more : List Move} {passed : List Bool} {u u' : ValueTree}
    (hmore : (ValueTree.play more).run t = (.ok passed, u))
    (hclear : ValueTree.simplify.run u = (.ok true, u')) :
    ∃ (c : Nat) (x x' : Datum), t.position ≤ c ∧ u.current = .ok x ∧ u'.current = .ok x' ∧
      k.Cleared c x x' := by
  obtain ⟨_, _, hrun, -, hu, hpos, -⟩ := h.play hk hstart more
  cases hrun.symm.trans hmore
  obtain ⟨_, heq, -⟩ | ⟨c, _, _, hset, hle, -, rfl, heq, hkept⟩ := hu.simplify_cases hk hstart
  · cases hclear.symm.trans heq
  · cases hclear.symm.trans heq
    exact ⟨c, u.held, _, hpos.trans hle, hu.current_eq hk, hkept.current_eq hk,
      (hu.isValue hk).cleared hset⟩

/-- A tree over any value of a kind that has come as far as any run of calls takes it. Either
`simplify` answers with false and leaves the value alone, or it clears one set bit. In the second
case `complicate` gives the value back as it was, and has nothing to give back after that; and
whatever is called in between, the next bit that `simplify` clears is a higher one. -/
theorem complicate_undoes_simplify [Memory] (hk : k.IsStandard) {name : String}
    (hv : k.requireValue v name = .ok ()) (hstart : 0 ≤ start.value) (floor : Numeral)
    (moves : List Move) :
    ∃ answers t w, (play moves).run (.ofValue k v (.num start) (.num floor)) = (.ok answers, t) ∧
      t.current = .ok w ∧ (v.plain = v → w.plain = w) ∧
      ((∃ t', simplify.run t = (.ok false, t') ∧ t'.current = .ok w) ∨
        ∃ b t' w' t'', simplify.run t = (.ok true, t') ∧ t'.current = .ok w' ∧
          k.Cleared b w w' ∧
          complicate.run t' = (.ok true, t'') ∧ t''.current = .ok w.plain ∧
          complicate.run t'' = (.ok false, t'') ∧
          ∀ more passed u u', (play more).run t' = (.ok passed, u) →
            simplify.run u = (.ok true, u') →
              ∃ c x x', b < c ∧ u.current = .ok x ∧ u'.current = .ok x' ∧ k.Cleared c x x') := by
  have hfresh : (ofValue k v (.num start) (.num floor)).Kept k v start floor :=
    .ofValue hk ((Kind.requireValue_eq_ok_iff hk).mp hv)
  obtain ⟨answers, t, hrun, -, ht, -, -⟩ := hfresh.play hk hstart moves
  refine ⟨answers, t, t.held, hrun, ht.current_eq hk,
    fun hplain => hfresh.play_plain hk hstart hplain moves hrun, ?_⟩
  obtain ⟨t', heq, ht', hheld, -⟩ | ⟨b, d, t', hset, -, hd, ht', heq, hkept⟩ :=
    ht.simplify_cases hk hstart
  · exact .inl ⟨t', heq, hheld ▸ ht'.current_eq hk⟩
  · have hposition : t'.position = b + 1 := by
      rw [ht', position_mk, Numeral.value_plain]
    have hheld : t'.current = .ok (k.without t.held b) := by
      rw [hkept.current_eq hk, ht']
    obtain ⟨t'', hback, hcurrent, hagain⟩ := complicate_of_cleared hk ht hset hd ht' hkept
    refine .inr ⟨b, t', _, t'', heq, hheld, (ht.isValue hk).cleared hset, hback, hcurrent, hagain,
      ?_⟩
    intro more passed u u' hmore hclear
    obtain ⟨c, x, x', hle, hx, hx', hcleared⟩ := cleared_ahead hk hstart hkept hmore hclear
    exact ⟨c, x, x', by omega, hx, hx', hcleared⟩

attribute [local instance] Memory.small

/-- A negative byte that loses its lowest two bits, and then a third one that is put back. The sign
bit is what goes next. -/
theorem complicate_undoes_negative_byte :
    let k : Kind := .word .i8
    let before : ValueTree := ⟨k, .int (-96), .int 5, some (.int 4), .int 0⟩
    let cleared : ValueTree := ⟨k, .int (-128), .int 6, some (.int 5), .int 0⟩
    let back : ValueTree := ⟨k, .int (-96), .int 6, none, .int 0⟩
    k.IsStandard ∧ k.requireValue (.int (-76)) "mask" = .ok () ∧ 0 ≤ (Numeral.plain 0).value ∧
      (play [.simplify, .simplify]).run (.ofValue k (.int (-76)) (.int 0) (.int 0)) =
        (.ok [true, true], before) ∧
      simplify.run before = (.ok true, cleared) ∧ complicate.run cleared = (.ok true, back) ∧
      complicate.run back = (.ok false, back) ∧
      ∃ b c, k.Cleared b (.int (-96)) (.int (-128)) ∧ b < c ∧
        k.Cleared c (.int (-96)) (.int 32) := by
  intro k before cleared back
  have hvalue : k.requireValue (.int (-76)) "mask" = .ok () := rfl
  have hstart : 0 ≤ (Numeral.plain 0).value := Int.le_refl 0
  have heval : (play [.simplify, .simplify]).run (.ofValue k (.int (-76)) (.int 0) (.int 0)) =
      (.ok [true, true], before) := rfl
  have hstep : simplify.run before = (.ok true, cleared) := rfl
  have hput : complicate.run cleared = (.ok true, back) := rfl
  have hundo : (play [.complicate]).run cleared = (.ok [true], back) := rfl
  have hnext : simplify.run back =
      (.ok true, ⟨k, .int 32, .int 8, some (.int 7), .int 0⟩) := rfl
  obtain ⟨_, _, w, hrun, hw, -, hcases⟩ :=
    complicate_undoes_simplify (k := k) trivial hvalue hstart (.plain 0) [.simplify, .simplify]
  cases heval.symm.trans hrun
  cases hw
  obtain ⟨_, hfalse, -⟩ | ⟨b, _, _, _, htrue, hw', hcleared, hback, -, hagain, hhigher⟩ := hcases
  · cases hstep.symm.trans hfalse
  · cases hstep.symm.trans htrue
    cases hw'
    cases hput.symm.trans hback
    obtain ⟨c, _, _, hlt, hx, hx', hc⟩ := hhigher _ _ _ _ hundo hnext
    cases hx
    cases hx'
    exact ⟨trivial, hvalue, hstart, heval, hstep, hput, hagain, b, c, hcleared, hlt, hc⟩

end ValueTree

end FlagSets
