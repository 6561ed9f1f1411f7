import FlagSets.Session

/-!
# Blocks of a program

Two variables are scoped: the settings in force and the reporter. A program reads and assigns them,
also by loading a profile, and runs blocks that give one of them another value for their length. It
raises and catches, and what it does next may depend on what it reads.

What a program has done is a history, latest event first, and a history says by itself what value a
variable should have: that of the latest assignment or entry into a block, if those inside of blocks
already left do not count. A block gives back the value by assigning it once more, which is right
only if nothing done inside shows through. This is what has to be carried through the induction: the
events of a program, seen from outside a block, are as good as none.

## Main results

* `Follows.enter`, `Follows.leave` : a variable keeps to the history at both ends of a block.
* `Program.run_follows` : a run of any program keeps to the history.
* `Program.run_scoped` : blocks give back the value, reads see the latest one still in effect, and
  one variable never changes another.
-/

namespace FlagSets

/-! ## Variables -/

/-- The scoped variables. -/
inductive Variable
  | settings
  | reporter
  deriving DecidableEq

/-- What a variable holds. -/
def Variable.Value : Variable → Type
  | .settings => Datum
  | .reporter => Reporter

namespace Session

/-- A variable of a session. -/
def held (s : Session) : (x : Variable) → Scoped x.Value
  | .settings => s.inForce
  | .reporter => s.reporter

/-- The value of a variable. -/
def value (s : Session) (x : Variable) : x.Value := (s.held x).value

/-- The session with another value for a variable. -/
def assign (s : Session) : (x : Variable) → x.Value → Session
  | .settings, d => { s with inForce := s.inForce.assign d }
  | .reporter, r => { s with reporter := s.reporter.assign r }

/-- Runs a block with another value for a variable. -/
def within {α : Type} :
    (x : Variable) → x.Value → (Session → α × Session) → Session → α × Session
  | .settings => withSettings
  | .reporter => withReporter

variable {x y : Variable}

@[simp] theorem value_assign (s : Session) (x : Variable) (a : x.Value) :
    (s.assign x a).value x = a := by
  cases x <;> rfl

theorem value_assign_of_ne (s : Session) (a : x.Value) (h : x ≠ y) :
    (s.assign x a).value y = s.value y := by
  cases x <;> cases y <;> first | rfl | exact absurd rfl h

/-- A block assigns its value first, and the former value last. -/
theorem within_eq {α : Type} (x : Variable) (a : x.Value) (block : Session → α × Session)
    (s : Session) :
    within x a block s =
      ((block (s.assign x a)).1, (block (s.assign x a)).2.assign x (s.value x)) := by
  cases x <;> rfl

/-- A profile is loaded by assigning the settings in force, and only if it is found. -/
theorem loadProfile_eq (s : Session) (name : Datum) :
    s.loadProfile name = (s.getProfile name).map fun c => s.assign .settings (.settings c) := by
  rw [loadProfile]
  cases s.getProfile name <;> rfl

end Session

/-! ## Histories -/

/-- What happens in a program to the variables, or is seen of them. -/
inductive Event
  | assigned (x : Variable) (a : x.Value)
  | entered (x : Variable) (a : x.Value)
  | left (x : Variable)
  | read (x : Variable) (a : x.Value)

/-- What happens to one variable. -/
inductive Mark (α : Type)
  | put (a : α)
  | enter (a : α)
  | leave

/-- The value of the latest assignment or entry that is still in effect, of marks with the latest
first. The number says how many blocks have been left whose entries are still to come. -/
def Mark.latest {α : Type} : Nat → List (Mark α) → Option α
  | _, [] => none
  | depth, .leave :: past => latest (depth + 1) past
  | 0, .put a :: _ => some a
  | 0, .enter a :: _ => some a
  | depth + 1, .put _ :: past => latest (depth + 1) past
  | depth + 1, .enter _ :: past => latest depth past

/-- What an event does to a variable, if anything. -/
def Event.on (x : Variable) : Event → Option (Mark x.Value)
  | .assigned y a => if h : y = x then some (.put (h ▸ a)) else none
  | .entered y a => if h : y = x then some (.enter (h ▸ a)) else none
  | .left y => if y = x then some .leave else none
  | .read _ _ => none

/-- What a history does to a variable. -/
def marks (x : Variable) (history : List Event) : List (Mark x.Value) :=
  history.filterMap (Event.on x)

/-- The value that a variable should have after a history: the latest one still in effect, or the
one from before, or the initial one. -/
def Session.valueAfter (s : Session) (x : Variable) (history : List Event) : x.Value :=
  ((Mark.latest 0 (marks x history)).or (s.held x).here).getD (s.held x).initial

section History

variable {x y : Variable} (past : List Event)

@[simp] theorem marks_append (later : List Event) :
    marks x (later ++ past) = marks x later ++ marks x past :=
  List.filterMap_append

theorem marks_cons_of_none {e : Event} (h : e.on x = none) :
    marks x (e :: past) = marks x past :=
  List.filterMap_cons_none h

@[simp] theorem marks_assigned (a : x.Value) :
    marks x (.assigned x a :: past) = .put a :: marks x past :=
  List.filterMap_cons_some (dif_pos rfl)

@[simp] theorem marks_entered (a : x.Value) :
    marks x (.entered x a :: past) = .enter a :: marks x past :=
  List.filterMap_cons_some (dif_pos rfl)

@[simp] theorem marks_left : marks x (.left x :: past) = .leave :: marks x past :=
  List.filterMap_cons_some (if_pos rfl)

theorem Event.on_assigned_of_ne (a : y.Value) (h : y ≠ x) : (assigned y a).on x = none := dif_neg h

theorem Event.on_entered_of_ne (a : y.Value) (h : y ≠ x) : (entered y a).on x = none := dif_neg h

theorem Event.on_left_of_ne (h : y ≠ x) : (left y).on x = none := if_neg h

end History

/-- The events of a program as they are seen from outside a block: they are as good as none. -/
def Balanced (own : List Event) : Prop :=
  ∀ (x : Variable) (depth : Nat) (rest : List (Mark x.Value)),
    Mark.latest (depth + 1) (marks x own ++ rest) = Mark.latest (depth + 1) rest

namespace Balanced

variable {first second own : List Event}

theorem nil : Balanced [] := fun _ _ _ => rfl

theorem append (h₂ : Balanced second) (h₁ : Balanced first) : Balanced (second ++ first) := by
  intro x depth rest
  rw [marks_append, List.append_assoc, h₂ x depth, h₁ x depth]

theorem read (x : Variable) (a : x.Value) : Balanced [.read x a] := fun _ _ _ => rfl

theorem assigned (x : Variable) (a : x.Value) : Balanced [.assigned x a] := by
  intro y depth rest
  by_cases h : x = y
  · subst h
    rw [marks_assigned]
    rfl
  · rw [marks_cons_of_none _ (Event.on_assigned_of_ne a h)]
    rfl

/-- A block that is left takes back its entry, and all that was done in it. -/
theorem block (h : Balanced own) (x : Variable) (a : x.Value) :
    Balanced (.left x :: own ++ [.entered x a]) := by
  intro y depth rest
  by_cases hxy : x = y
  · subst hxy
    rw [List.cons_append, marks_left, marks_append, marks_entered, List.cons_append,
      List.append_assoc, Mark.latest, h x (depth + 1)]
    rfl
  · rw [List.cons_append, marks_cons_of_none _ (Event.on_left_of_ne hxy), marks_append,
      marks_cons_of_none _ (Event.on_entered_of_ne a hxy), List.append_assoc, h y depth]
    rfl

end Balanced

/-- A session that has come from another one by the events of a history: its variables have the
values that the history says, and so they had whenever they were read. -/
structure Follows (start : Session) (history : List Event) (s : Session) : Prop where
  value_eq : ∀ x, s.value x = start.valueAfter x history
  reads : ∀ later x a earlier, history = later ++ .read x a :: earlier →
    a = start.valueAfter x earlier

namespace Follows

variable {start s : Session} {past own : List Event} {x : Variable}

theorem nil (s : Session) : Follows s [] s where
  value_eq x := by cases x <;> rfl
  reads later _ _ _ h := by cases later <;> cases h

/-- Reads are right in a longer history if the new event is no read, or a right one. -/
private theorem reads_cons (h : Follows start past s) {e : Event}
    (he : ∀ y b, e = .read y b → b = start.valueAfter y past) :
    ∀ later x a earlier, e :: past = later ++ .read x a :: earlier →
      a = start.valueAfter x earlier := by
  intro later y b earlier heq
  cases later with
  | nil =>
      obtain ⟨rfl, rfl⟩ := List.cons.inj heq
      exact he y b rfl
  | cons e' later => exact h.reads later y b earlier (List.cons.inj heq).2

/-- A variable that an event leaves alone has the value it had. -/
private theorem value_cons (h : Follows start past s) {e : Event} {y : Variable}
    (he : e.on y = none) : s.value y = start.valueAfter y (e :: past) := by
  rw [h.value_eq y, Session.valueAfter, Session.valueAfter, marks_cons_of_none past he]

/-- A read sees the value that the history says. -/
theorem read (h : Follows start past s) (x : Variable) :
    Follows start (.read x (s.value x) :: past) s where
  value_eq _ := h.value_cons rfl
  reads := by
    apply h.reads_cons
    rintro y b ⟨⟩
    exact h.value_eq x

/-- A variable is given the value that its latest event calls for. -/
private theorem give (h : Follows start past s) {e : Event} {a : x.Value}
    (hlatest : start.valueAfter x (e :: past) = a) (hothers : ∀ y, x ≠ y → e.on y = none)
    (hread : ∀ y b, e ≠ .read y b) : Follows start (e :: past) (s.assign x a) where
  value_eq y := by
    by_cases hxy : x = y
    · subst hxy
      rw [Session.value_assign, hlatest]
    · rw [s.value_assign_of_ne a hxy]
      exact h.value_cons (hothers y hxy)
  reads := h.reads_cons fun y b he => absurd he (hread y b)

theorem assign (h : Follows start past s) (x : Variable) (a : x.Value) :
    Follows start (.assigned x a :: past) (s.assign x a) := by
  refine h.give ?_ (fun _ => Event.on_assigned_of_ne a) nofun
  rw [Session.valueAfter, marks_assigned]
  rfl

theorem enter (h : Follows start past s) (x : Variable) (a : x.Value) :
    Follows start (.entered x a :: past) (s.assign x a) := by
  refine h.give ?_ (fun _ => Event.on_entered_of_ne a) nofun
  rw [Session.valueAfter, marks_entered]
  rfl

/-- At the end of a block the variable is given the value it had before, and that is the latest one
still in effect: what was done inside is as good as nothing. -/
theorem leave (h : Follows start past s) {a : x.Value} (hown : Balanced own) {inside : Session}
    (hinside : Follows start (own ++ .entered x a :: past) inside) :
    Follows start (.left x :: own ++ .entered x a :: past) (inside.assign x (s.value x)) := by
  refine hinside.give ?_ (fun _ => Event.on_left_of_ne) nofun
  rw [h.value_eq x, Session.valueAfter, Session.valueAfter, marks_left, marks_append,
    marks_entered, Mark.latest, hown x 0]
  rfl

end Follows

/-! ## Programs -/

/-- What a program does with the variables, and in which order. -/
inductive Program
  | done
  | read (x : Variable) (next : x.Value → Program)
  | assign (x : Variable) (a : x.Value)
  | load (name : Datum)
  | raise (fault : Fault)
  | seq (first second : Program)
  | attempt (body : Program) (handler : Fault → Program)
  | block (x : Variable) (a : x.Value) (body : Program)

namespace Program

/-- Runs a program in a session, and goes on with the history. A profile that is loaded is noted as
the settings that are registered under its name. -/
def run : Program → List Event → Session → (Outcome Unit × List Event) × Session
  | done, past, s => ((.ok (), past), s)
  | read x next, past, s => (next (s.value x)).run (.read x (s.value x) :: past) s
  | assign x a, past, s => ((.ok (), .assigned x a :: past), s.assign x a)
  | load name, past, s =>
    match s.getProfile name, s.loadProfile name with
    | .ok c, .ok after => ((.ok (), .assigned .settings (.settings c) :: past), after)
    | .error fault, _ | _, .error fault => ((.error fault, past), s)
  | raise fault, past, s => ((.error fault, past), s)
  | seq first second, past, s =>
    match first.run past s with
    | ((.ok _, past), s) => second.run past s
    | ((.error fault, past), s) => ((.error fault, past), s)
  | attempt body handler, past, s =>
    match body.run past s with
    | ((.ok _, past), s) => ((.ok (), past), s)
    | ((.error fault, past), s) => (handler fault).run past s
  | block x a body, past, s =>
    let ((outcome, past), after) := Session.within x a (body.run (.entered x a :: past)) s
    ((outcome, .left x :: past), after)

variable {start s : Session} {past : List Event}

/-- Loading a profile is assigning its settings, and without the profile nothing happens. -/
theorem run_load (name : Datum) (past : List Event) (s : Session) :
    (load name).run past s =
      match s.getProfile name with
      | .ok c => (assign .settings (.settings c)).run past s
      | .error fault => (raise fault).run past s := by
  rw [run, s.loadProfile_eq]
  cases s.getProfile name <;> rfl

/-- A block is entered, and it is left however its body ends. -/
theorem run_block (x : Variable) (a : x.Value) (body : Program) (past : List Event) (s : Session) :
    (block x a body).run past s =
      let inside := body.run (.entered x a :: past) (s.assign x a)
      ((inside.1.1, .left x :: inside.1.2), inside.2.assign x (s.value x)) := by
  rw [run, Session.within_eq]

/-- What a run comes to keeps to the history. To what had happened it adds events of its own, which
from outside a block are as good as none. -/
def Continues (start : Session) (past : List Event)
    (result : (Outcome Unit × List Event) × Session) : Prop :=
  ∃ own, result.1.2 = own ++ past ∧ Balanced own ∧ Follows start result.1.2 result.2

/-- Events that happen first are added to those of the run. -/
private theorem Continues.after {own : List Event} {result : (Outcome Unit × List Event) × Session}
    (hown : Balanced own) (h : Continues start (own ++ past) result) :
    Continues start past result := by
  obtain ⟨more, heq, hmore, hfollows⟩ := h
  exact ⟨more ++ own, by rw [heq, List.append_assoc], hmore.append hown, hfollows⟩

/-- Any program keeps to the history, however it ends. -/
theorem run_follows (p : Program) (h : Follows start past s) :
    Continues start past (p.run past s) := by
  induction p generalizing past s with
  | done => exact ⟨[], rfl, .nil, h⟩
  | read x next ih => exact (ih (s.value x) (h.read x)).after (.read x (s.value x))
  | assign x a => exact ⟨[.assigned x a], rfl, .assigned x a, h.assign x a⟩
  | load name =>
      rw [run_load]
      cases s.getProfile name with
      | ok c => exact ⟨[.assigned .settings (.settings c)], rfl, .assigned _ _, h.assign _ _⟩
      | error fault => exact ⟨[], rfl, .nil, h⟩
  | raise fault => exact ⟨[], rfl, .nil, h⟩
  | seq first second ih₁ ih₂ =>
      have hfirst := ih₁ h
      rw [run]
      generalize first.run past s = result at hfirst ⊢
      obtain ⟨⟨outcome, between⟩, middle⟩ := result
      obtain ⟨own, rfl, hown, hfollows⟩ := hfirst
      cases outcome with
      | error fault => exact ⟨own, rfl, hown, hfollows⟩
      | ok _ => exact (ih₂ hfollows).after hown
  | attempt body handler ih₁ ih₂ =>
      have hbody := ih₁ h
      rw [run]
      generalize body.run past s = result at hbody ⊢
      obtain ⟨⟨outcome, between⟩, middle⟩ := result
      obtain ⟨own, rfl, hown, hfollows⟩ := hbody
      cases outcome with
      | ok _ => exact ⟨own, rfl, hown, hfollows⟩
      | error fault => exact (ih₂ fault hfollows).after hown
  | block x a body ih =>
      have hbody := ih (h.enter x a)
      rw [run_block]
      generalize body.run _ _ = result at hbody ⊢
      obtain ⟨⟨outcome, between⟩, inside⟩ := result
      obtain ⟨own, rfl, hown, hfollows⟩ := hbody
      -- the block ends the same way for every outcome of its body
      exact ⟨.left x :: own ++ [.entered x a], by simp, hown.block x a, h.leave hown hfollows⟩

/-- What holds of any program in any session. Whenever it reads a variable it sees the value of the
latest assignment or entry into a block that is still in effect, and so does what comes after it; a
variable that nothing happens to keeps its value. A block ends as its body ends. Then its variable
has the value from just before, and any other variable is what the body made of it. -/
theorem run_scoped (p : Program) (s : Session) :
    let history := (p.run [] s).1.2
    let after := (p.run [] s).2
    (∀ later x a earlier, history = later ++ .read x a :: earlier → a = s.valueAfter x earlier) ∧
      (∀ x, after.value x = s.valueAfter x history) ∧
      (∀ x, (∀ e ∈ history, e.on x = none) → after.value x = s.value x) ∧
      ∀ x a past,
        let inside := p.run (.entered x a :: past) (s.assign x a)
        let whole := (block x a p).run past s
        whole.1 = (inside.1.1, .left x :: inside.1.2) ∧ whole.2.value x = s.value x ∧
          (∀ y, x ≠ y → (s.assign x a).value y = s.value y ∧
            whole.2.value y = inside.2.value y) := by
  intro history after
  obtain ⟨_, -, -, hfollows⟩ := p.run_follows (.nil s)
  refine ⟨hfollows.reads, hfollows.value_eq, ?_, ?_⟩
  · intro x hnone
    have hmarks : marks x history = [] := List.filterMap_eq_nil_iff.mpr hnone
    rw [hfollows.value_eq x, Session.valueAfter, hmarks]
    rfl
  · intro x a past inside whole
    have hwhole : whole = ((inside.1.1, .left x :: inside.1.2), inside.2.assign x (s.value x)) :=
      run_block x a p past s
    rw [hwhole]
    refine ⟨rfl, Session.value_assign _ _ _, fun y hxy => ⟨s.value_assign_of_ne a hxy, ?_⟩⟩
    exact inside.2.value_assign_of_ne _ hxy

/-- A failure leaves two blocks at once, in one of which a profile was loaded. What is read after it
are the values from before. -/
example :
    let failing : Program :=
      .block .settings .absent (.seq (.load (.text "default"))
        (.block .reporter Reporter.silent (.seq (.assign .reporter (Reporter.listener "log"))
          (.raise .missing))))
    let program : Program :=
      .seq (.attempt failing fun _ => .done)
        (.read .settings fun _ => .read .reporter fun _ => .done)
    (program.run [] .initial).1.2.take 4 =
      [.read .reporter Reporter.console, .read .settings (Datum.settings Settings.plain),
        .left .settings, .left .reporter] := rfl

end Program

end FlagSets
