import FlagSets.Proofs.Equality
import FlagSets.VarSet.Walk

/-!
# Walks over a set that changes

While a growable set is walked over, bits may be set and cleared in any order, and the set may grow.
The walk sees the set at its own steps only, and what it has seen there decides everything: it goes
upwards through the positions below the length noted at its first step, never yields one that is
clear at the moment, and passes over one only if it finds it clear.

What a walk shows is recorded as a list of glances, one for each of its steps, with the set as it
was. One step takes the first set position from where the walk stands; `Course` says what follows
for a whole record, and the laws are read off it.

## Main results

* `step_cases` : a step yields the first set position, or there is none.
* `course_glances` : the record of a walk is a course, whatever is done to the set in between.
* `Course.mem_yielded` : a position that is set whenever it is looked at is yielded.
* `glances_faithful` : what a walk shows of a set that changes.
-/

namespace FlagSets.VarSet

/-- What can happen while a set is walked over: a step of the walk, or a change of the set, with any
datum for an index. -/
inductive Visit
  | next
  | set (ix : Datum)
  | clear (ix : Datum)

/-- The set after something has happened. A change that fails leaves it as it was. -/
def visited [Memory] (s : VarSet) : Visit → VarSet
  | .next => s
  | .set ix => Outcome.getD (s.setAt ix) s
  | .clear ix => Outcome.getD (s.clearAt ix) s

/-- A step of a walk: the set as it was, and the position that was yielded, none if the walk had
ended. -/
structure Glance where
  seen : VarSet
  reply : Option Nat

/-- Whether a step left a position behind: it yielded a higher one, or the walk had ended. -/
def Glance.passes (g : Glance) (i : Nat) : Bool :=
  match g.reply with
  | some j => i < j
  | none => true

namespace Walk

/-- The steps of a walk while a script is played. -/
def glances [Memory] : List Visit → VarSet → Walk → List Glance
  | [], _, _ => []
  | .next :: script, s, w => ⟨s, (w.next s).1⟩ :: glances script s (w.next s).2
  | change :: script, s, w => glances script (s.visited change) w

/-- The positions that were yielded, in order. -/
def yielded (gs : List Glance) : List Nat := gs.filterMap Glance.reply

/-- The steps up to the first one that leaves a position behind. -/
def upTo (i : Nat) : List Glance → List Glance
  | [] => []
  | g :: gs => if g.passes i then [g] else g :: upTo i gs

/-! ## One step -/

/-- A step yields the first set position from where the walk stands, and goes on behind it; or there
is none below the bound, and the walk has ended. -/
theorem step_cases (s : VarSet) (bound position : Nat) :
    (∃ i, step s bound position = (some i, under bound (i + 1)) ∧ position ≤ i ∧ i < bound ∧
      s.test i = true ∧ ∀ j, position ≤ j → j < i → s.test j = false) ∨
    step s bound position = (none, ended) ∧
      ∀ j, position ≤ j → j < bound → s.test j = false := by
  cases hfirst : firstFrom s position bound with
  | some i =>
      have hstep : step s bound position = (some i, under bound (i + 1)) := by
        rw [step, hfirst]
      obtain ⟨hle, hlt, hset⟩ := lt_of_step hstep
      refine .inl ⟨i, hstep, hle, hlt, hset, fun j hj hji => ?_⟩
      obtain ⟨-, -, hclear⟩ := List.find?_range'_eq_some.mp hfirst
      simpa using hclear j hj hji
  | none =>
      refine .inr ⟨by rw [step, hfirst], fun j hj hjb => ?_⟩
      have hclear := List.find?_range'_eq_none.mp hfirst
      simpa using hclear j hj (by omega)

theorem mem_allFrom {s : VarSet} {bound position i : Nat} :
    i ∈ allFrom s position bound ↔ position ≤ i ∧ i < bound ∧ s.test i = true := by
  rw [allFrom, List.mem_filter, List.mem_range'_1, and_assoc]
  constructor
  · rintro ⟨hle, hlt, hset⟩
    exact ⟨hle, by omega, hset⟩
  · rintro ⟨hle, hlt, hset⟩
    exact ⟨hle, by omega, hset⟩

theorem pairwise_allFrom (s : VarSet) (bound position : Nat) :
    (allFrom s position bound).Pairwise (· < ·) :=
  List.Pairwise.filter s.test (List.pairwise_lt_range' 1)

/-- The set positions from a position on are the first of them and those from behind it on. -/
theorem allFrom_cons {s : VarSet} {bound position i : Nat} (hle : position ≤ i) (hlt : i < bound)
    (hset : s.test i = true) (hclear : ∀ j, position ≤ j → j < i → s.test j = false) :
    allFrom s position bound = i :: allFrom s (i + 1) bound := by
  have hbehind : (i :: allFrom s (i + 1) bound).Pairwise (· < ·) :=
    .cons (fun j hj => (mem_allFrom.mp hj).1) (pairwise_allFrom s bound (i + 1))
  apply (pairwise_allFrom s bound position).eq_of_mem_iff hbehind
  intro j
  rw [List.mem_cons, mem_allFrom, mem_allFrom]
  grind

theorem allFrom_nil {s : VarSet} {bound position : Nat}
    (hclear : ∀ j, position ≤ j → j < bound → s.test j = false) :
    allFrom s position bound = [] := by
  apply List.eq_nil_iff_forall_not_mem.mpr
  intro j hj
  obtain ⟨hle, hlt, hset⟩ := mem_allFrom.mp hj
  rw [hclear j hle hlt] at hset
  cases hset

/-- From the start to the end there are all set positions. -/
theorem allFrom_whole (s : VarSet) : allFrom s 0 s.length = s.indices := by
  apply (pairwise_allFrom s s.length 0).eq_of_mem_iff s.pairwise_indices
  intro i
  rw [mem_allFrom, s.mem_indices]
  exact ⟨fun ⟨_, _, hset⟩ => hset, fun hset => ⟨Nat.zero_le i, Flags.lt_length_of_test hset, hset⟩⟩

/-! ## Whole walks -/

/-- The record of a walk below a bound, from a position on: each step yields the first set position
from where the walk stands, until there is none. -/
inductive Course (bound : Nat) : Nat → List Glance → Prop
  | unbegun {position : Nat} : Course bound position []
  | yields {position i : Nat} {seen : VarSet} {gs : List Glance} (hle : position ≤ i)
      (hlt : i < bound) (hset : seen.test i = true)
      (hclear : ∀ j, position ≤ j → j < i → seen.test j = false) (hrest : Course bound (i + 1) gs) :
      Course bound position (⟨seen, some i⟩ :: gs)
  | ends {position : Nat} {seen : VarSet} {gs : List Glance}
      (hclear : ∀ j, position ≤ j → j < bound → seen.test j = false)
      (hrest : ∀ g ∈ gs, g.reply = none) : Course bound position (⟨seen, none⟩ :: gs)

/-- A walk that has ended yields nothing more, whatever is done to the set. -/
theorem glances_ended [Memory] (script : List Visit) (s : VarSet) :
    ∀ g ∈ glances script s ended, g.reply = none := by
  induction script generalizing s with
  | nil => simp [glances]
  | cons visit script ih =>
      cases visit with
      | next =>
          intro g hg
          rcases List.mem_cons.mp hg with rfl | hg
          · rfl
          · exact ih s g hg
      | set ix => exact ih (s.visited (.set ix))
      | clear ix => exact ih (s.visited (.clear ix))

/-- A walk on its way takes a course, whatever is done to the set. -/
theorem course_glances [Memory] (script : List Visit) (s : VarSet) (bound position : Nat) :
    Course bound position (glances script s (under bound position)) := by
  induction script generalizing s position with
  | nil => exact .unbegun
  | cons visit script ih =>
      cases visit with
      | next =>
          rw [glances, next]
          rcases step_cases s bound position with
            ⟨i, hstep, hle, hlt, hset, hclear⟩ | ⟨hstep, hclear⟩
          · rw [hstep]
            exact .yields hle hlt hset hclear (ih s (i + 1))
          · rw [hstep]
            exact .ends hclear (glances_ended script s)
      | set ix => exact ih (s.visited (.set ix)) position
      | clear ix => exact ih (s.visited (.clear ix)) position

/-- The first step of a walk that has not begun notes the length of the set as it is then. -/
theorem course_of_fresh [Memory] {script : List Visit} {s : VarSet} {first : Glance}
    {rest : List Glance} (h : glances script s fresh = first :: rest) :
    Course first.seen.length 0 (first :: rest) := by
  induction script generalizing s with
  | nil => cases h
  | cons visit script ih =>
      cases visit with
      | next =>
          have hbegun : glances (.next :: script) s fresh =
              glances (.next :: script) s (under s.length 0) := rfl
          have hfirst : first.seen = s := by
            rw [glances, List.cons.injEq] at h
            rw [← h.1]
          rw [← h, hbegun, hfirst]
          exact course_glances (.next :: script) s s.length 0
      | set ix => exact ih h
      | clear ix => exact ih h

/-! ## Along a course -/

@[simp] theorem yielded_cons_some (seen : VarSet) (i : Nat) (gs : List Glance) :
    yielded (⟨seen, some i⟩ :: gs) = i :: yielded gs := rfl

theorem yielded_ended (seen : VarSet) {gs : List Glance} (h : ∀ g ∈ gs, g.reply = none) :
    yielded (⟨seen, none⟩ :: gs) = [] :=
  List.filterMap_eq_nil_iff.mpr (List.forall_mem_cons.mpr ⟨rfl, h⟩)

/-- A step that yields a position leaves no position behind from there on. -/
theorem passes_of_le (seen : VarSet) {i j : Nat} (h : j ≤ i) :
    Glance.passes ⟨seen, some j⟩ i = false :=
  decide_eq_false (Nat.not_lt.mpr h)

theorem mem_upTo_self (i : Nat) (g : Glance) (gs : List Glance) : g ∈ upTo i (g :: gs) := by
  rw [upTo]
  split <;> exact List.mem_cons_self

theorem mem_upTo_of_not_passes {i : Nat} {g h : Glance} {gs : List Glance}
    (hstays : g.passes i = false) (hh : h ∈ upTo i gs) : h ∈ upTo i (g :: gs) := by
  rw [upTo, hstays]
  exact List.mem_cons_of_mem g hh

namespace Course

variable {bound position : Nat} {gs : List Glance}

/-- Every step yields a position below the bound that is set as the set is then. -/
theorem set_of_reply (h : Course bound position gs) :
    ∀ g ∈ gs, ∀ i, g.reply = some i → i < bound ∧ g.seen.test i = true := by
  induction h with
  | unbegun => simp
  | yields hle hlt hset hclear hrest ih =>
      intro g hg i hreply
      rcases List.mem_cons.mp hg with rfl | hg
      · cases hreply
        exact ⟨hlt, hset⟩
      · exact ih g hg i hreply
  | ends hclear hrest =>
      intro g hg i hreply
      rcases List.mem_cons.mp hg with rfl | hg
      · cases hreply
      · rw [hrest g hg] at hreply
        cases hreply

theorem mem_bounds (h : Course bound position gs) {i : Nat} (hi : i ∈ yielded gs) :
    position ≤ i ∧ i < bound := by
  induction h with
  | unbegun => cases hi
  | yields hle hlt hset hclear hrest ih =>
      rcases List.mem_cons.mp hi with rfl | hi
      · exact ⟨hle, hlt⟩
      · obtain ⟨hbehind, hbelow⟩ := ih hi
        exact ⟨by omega, hbelow⟩
  | ends hclear hrest =>
      rw [yielded_ended _ hrest] at hi
      cases hi

theorem pairwise_yielded (h : Course bound position gs) : (yielded gs).Pairwise (· < ·) := by
  induction h with
  | unbegun => exact .nil
  | yields hle hlt hset hclear hrest ih =>
      exact .cons (fun j hj => (hrest.mem_bounds hj).1) ih
  | ends hclear hrest =>
      rw [yielded_ended _ hrest]
      exact .nil

/-- Behind a step that found nothing there is nothing but such steps. -/
theorem pairwise_ended (h : Course bound position gs) :
    gs.Pairwise fun before after => before.reply = none → after.reply = none := by
  induction h with
  | unbegun => exact .nil
  | yields hle hlt hset hclear hrest ih => exact .cons (fun after _ hnone => nomatch hnone) ih
  | ends hclear hrest =>
      refine .cons (fun after hafter _ => hrest after hafter) ?_
      exact List.pairwise_of_forall_mem_list fun _ _ after hafter _ => hrest after hafter

/-- A position that is set whenever it is looked at, until it is left behind, is yielded. -/
theorem mem_yielded (h : Course bound position gs) {i : Nat} (hpos : position ≤ i)
    (hbound : i < bound) (hpassed : ∃ g ∈ gs, g.passes i = true)
    (hset : ∀ g ∈ upTo i gs, g.seen.test i = true) : i ∈ yielded gs := by
  induction h with
  | unbegun => simp at hpassed
  | @yields position j seen gs hle hlt hseen hclear hrest ih =>
      have hnow := hset _ (mem_upTo_self i ⟨seen, some j⟩ gs)
      rcases Nat.lt_trichotomy i j with hij | rfl | hji
      · -- The step would have passed over a position that was set.
        rw [hclear i hpos hij] at hnow
        cases hnow
      · exact List.mem_cons_self
      · have hstays := passes_of_le seen (Nat.le_of_lt hji)
        have hlater : ∃ g ∈ gs, g.passes i = true := by
          simpa [hstays] using hpassed
        exact List.mem_cons_of_mem j (ih hji hlater fun g hg =>
          hset g (mem_upTo_of_not_passes hstays hg))
  | @ends position seen gs hclear hrest =>
      have hnow := hset _ (mem_upTo_self i ⟨seen, none⟩ gs)
      rw [hclear i hpos hbound] at hnow
      cases hnow

/-- A position that is clear whenever it is looked at, until it is left behind, is not yielded. -/
theorem not_mem_yielded (h : Course bound position gs) {i : Nat}
    (hclear : ∀ g ∈ upTo i gs, g.seen.test i = false) : i ∉ yielded gs := by
  induction h with
  | unbegun => exact List.not_mem_nil
  | @yields position j seen gs hle hlt hseen hbetween hrest ih =>
      have hnow := hclear _ (mem_upTo_self i ⟨seen, some j⟩ gs)
      rw [yielded_cons_some, List.mem_cons, not_or]
      rcases Nat.lt_trichotomy i j with hij | rfl | hji
      · -- All that comes later is higher still.
        exact ⟨Nat.ne_of_lt hij, fun hi => absurd (hrest.mem_bounds hi).1 (by omega)⟩
      · rw [hseen] at hnow
        cases hnow
      · have hstays := passes_of_le seen (Nat.le_of_lt hji)
        exact ⟨Nat.ne_of_gt hji, ih fun g hg => hclear g (mem_upTo_of_not_passes hstays hg)⟩
  | ends hbetween hrest =>
      rw [yielded_ended _ hrest]
      exact List.not_mem_nil

/-- Over a set that does not change, the steps take the set positions one after the other. -/
theorem yielded_unchanged (h : Course bound position gs) {t : VarSet}
    (hsame : ∀ g ∈ gs, g.seen = t) :
    yielded gs = (allFrom t position bound).take gs.length := by
  induction h with
  | unbegun => rfl
  | @yields position i seen gs hle hlt hset hclear hrest ih =>
      obtain ⟨rfl, hsame⟩ := List.forall_mem_cons.mp hsame
      rw [allFrom_cons hle hlt hset hclear, yielded_cons_some, ih hsame]
      rfl
  | @ends position seen gs hclear hrest =>
      obtain ⟨rfl, -⟩ := List.forall_mem_cons.mp hsame
      rw [allFrom_nil hclear, yielded_ended _ hrest, List.take_nil]

end Course

/-- What the record of a walk shows, with the length of the set at its first step. -/
structure Faithful (gs : List Glance) (length : Nat) : Prop where
  ascending : (yielded gs).Pairwise (· < ·)
  /-- What is yielded is below the noted length, and set at that moment. -/
  set_then : ∀ g ∈ gs, ∀ i, g.reply = some i → i < length ∧ g.seen.test i = true
  /-- A position that stays set until the walk has left it behind is yielded once. -/
  once : ∀ i < length, (∃ g ∈ gs, g.passes i = true) →
    (∀ g ∈ upTo i gs, g.seen.test i = true) → (yielded gs).count i = 1
  /-- One that is clear all that time is not yielded, -/
  never_clear : ∀ i, (∀ g ∈ upTo i gs, g.seen.test i = false) → i ∉ yielded gs
  /-- nor is one past the noted length, even if the set grows. -/
  never_past : ∀ i, length ≤ i → i ∉ yielded gs
  /-- A walk that has ended stays ended. -/
  ended : gs.Pairwise fun before after => before.reply = none → after.reply = none
  /-- Where nothing changes, the steps take all that is set in order. -/
  unchanged : ∀ t : VarSet, (∀ g ∈ gs, g.seen = t) → yielded gs = t.indices.take gs.length

/-- Whatever is done to a set while it is walked over, and whenever. -/
theorem glances_faithful [Memory] {script : List Visit} {s : VarSet} {first : Glance}
    {rest : List Glance} (h : glances script s fresh = first :: rest) :
    Faithful (first :: rest) first.seen.length where
  ascending := (course_of_fresh h).pairwise_yielded
  set_then := (course_of_fresh h).set_of_reply
  once i hi hpassed hset := by
    have hmem := (course_of_fresh h).mem_yielded (Nat.zero_le i) hi hpassed hset
    have hnodup := (course_of_fresh h).pairwise_yielded.imp Nat.ne_of_lt
    exact List.count_eq_one_of_mem hnodup hmem
  never_clear i hclear := (course_of_fresh h).not_mem_yielded hclear
  never_past i hi hmem := absurd ((course_of_fresh h).mem_bounds hmem).2 (Nat.not_lt.mpr hi)
  ended := (course_of_fresh h).pairwise_ended
  unchanged t hsame := by
    have hwhole := (course_of_fresh h).yielded_unchanged hsame
    rwa [hsame first List.mem_cons_self, allFrom_whole] at hwhole

attribute [local instance] Memory.small

/-- Of four positions the first and the third are set. Ahead of the walk the second is set and the
third is cleared, and the set grows; once the walk has ended, it does not see what is set. -/
theorem glances_faithful_changing :
    let s : VarSet := ⟨.boolVec, [true, false, true, false]⟩
    let script : List Visit := [.next, .set (.nat 1), .clear (.nat 2), .set (.nat 9), .next, .next,
      .set (.nat 3), .next]
    ∃ first rest, glances script s fresh = first :: rest ∧ Faithful (first :: rest) 4 ∧
      (first :: rest).map Glance.reply = [some 0, some 1, none, none] := by
  intro s script
  have hrun : glances script s fresh = ⟨s, some 0⟩ :: (glances script s fresh).tail := rfl
  exact ⟨_, _, hrun, glances_faithful hrun, by decide⟩

end Walk
end FlagSets.VarSet
