import FlagSets.Fault

/-!
# Refusals

An argument that is not accepted is refused, and the refusal quotes it. If it has an integer in it
that is too long to be written out, there may be no way to word the refusal, and then that is the
fault. What is handed over therefore comes with the question whether it is legible.

## Main results

* `Fault.isRefusal_raised` : what is raised to refuse an argument is a refusal.
* `Outcome.FailsOnly.bind` : faults of one sort, through a chain of checks.
-/

namespace FlagSets

/-- A fault that says that an argument is not accepted, provided that what was handed over is
legible: of what is not, it may not be possible to say anything. -/
def Fault.IsRefusal (legible : Prop) (fault : Fault) : Prop :=
  (∃ why, fault = .refused why) ∨ ¬ legible ∧ fault = .tooLong

/-- A refusal is one, if what it quotes is legible whenever what was handed over is. -/
theorem Fault.isRefusal_raised {legible : Prop} {why : Refusal}
    (h : legible → why.quoted.all Datum.isLegible = true) :
    (Fault.refused why).raised.IsRefusal legible := by
  unfold Fault.raised
  split
  · exact .inl ⟨why, rfl⟩
  · rename_i hmute
    refine .inr ⟨fun hlegible => hmute ?_, rfl⟩
    exact why.isSome_message.trans (h hlegible)

/-- The less is known to be legible, the more faults are refusals. -/
theorem Fault.IsRefusal.mono {p q : Prop} {fault : Fault} (h : fault.IsRefusal p) (hpq : q → p) :
    fault.IsRefusal q :=
  h.imp_right (And.imp_left (mt hpq))

namespace Outcome

variable {α β : Type}

/-- An outcome has a result, or a fault of some sort. -/
def FailsOnly (sort : Fault → Prop) (o : Outcome α) : Prop :=
  ∀ fault, o = .error fault → sort fault

namespace FailsOnly

variable {sort : Fault → Prop}

theorem ok (a : α) : FailsOnly sort (.ok a) := nofun

theorem refuse {legible : Prop} (why : Refusal)
    (h : legible → why.quoted.all Datum.isLegible = true) :
    FailsOnly (Fault.IsRefusal legible) (Outcome.refuse why : Outcome α) := by
  rintro fault ⟨⟩
  exact Fault.isRefusal_raised h

theorem mono {sort' : Fault → Prop} {o : Outcome α} (h : FailsOnly sort o)
    (hsort : ∀ fault, sort fault → sort' fault) : FailsOnly sort' o :=
  fun fault hfault => hsort fault (h fault hfault)

theorem bind {o : Outcome α} {f : α → Outcome β} (h : FailsOnly sort o)
    (hnext : ∀ a, o = .ok a → FailsOnly sort (f a)) : FailsOnly sort (o >>= f) := by
  cases o with
  | error fault =>
      rintro _ ⟨⟩
      exact h fault rfl
  | ok a => exact hnext a rfl

end FailsOnly

/-- An outcome is no result, because an argument is not accepted. -/
def IsRefused (legible : Prop) (o : Outcome α) : Prop :=
  ∃ fault, o = .error fault ∧ fault.IsRefusal legible

namespace IsRefused

variable {p q : Prop} {o : Outcome α}

theorem refuse (why : Refusal) (h : p → why.quoted.all Datum.isLegible = true) :
    IsRefused p (Outcome.refuse why : Outcome α) :=
  ⟨_, rfl, Fault.isRefusal_raised h⟩

theorem ne_ok (h : IsRefused p o) (a : α) : o ≠ .ok a := by
  obtain ⟨fault, rfl, -⟩ := h
  exact nofun

theorem mono (h : IsRefused p o) (hpq : q → p) : IsRefused q o := by
  obtain ⟨fault, ho, hfault⟩ := h
  exact ⟨fault, ho, hfault.mono hpq⟩

/-- What follows a refusal does not take place. -/
theorem bind (h : IsRefused p o) (f : α → Outcome β) : IsRefused p (o >>= f) := by
  obtain ⟨fault, rfl, hfault⟩ := h
  exact ⟨fault, rfl, hfault⟩

end IsRefused

/-- Where only refusals are faults, an outcome is a result or refused. -/
theorem FailsOnly.ok_or_refused {p : Prop} {o : Outcome α} (h : o.FailsOnly (Fault.IsRefusal p)) :
    (∃ a, o = .ok a) ∨ o.IsRefused p := by
  cases o with
  | ok a => exact .inl ⟨a, rfl⟩
  | error fault => exact .inr ⟨fault, rfl, h fault rfl⟩

end Outcome

end FlagSets
