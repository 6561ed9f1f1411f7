import FlagSets.Report
import FlagSets.Scoped
import FlagSets.Settings

/-!
# Sessions

What a running program shares: the profiles registered so far, the settings in force, the reporter,
and the journal of what was reported. Profiles reach every thread; the settings in force and the
reporter belong to one thread, and blocks may replace them.

## Main results

* `getProfile_register` : a registered profile is found again under its name.
* `inForce_withSettings`, `reporter_withReporter` : after a block the variable it replaced is what
  it was before.
-/

namespace FlagSets

open Outcome

/-- The state of a running program, as one thread sees it. -/
structure Session where
  profiles : List (String × Settings)
  inForce : Scoped Datum
  reporter : Scoped Reporter
  journal : Journal

namespace Session

/-- The state at the start: one profile, whose settings are in force, and reports are printed. -/
def initial : Session :=
  { profiles := [("default", Settings.plain)]
    inForce := (Scoped.ofInitial .absent).assign (.settings Settings.plain)
    reporter := .ofInitial .console
    journal := {} }

/-! ## Settings and profiles -/

/-- The settings given by name, the others being inherited from a parent or from the settings in
force. -/
def settings (s : Session) (given : List (String × Datum)) (parent : Datum) : Outcome Settings :=
  Settings.build given parent s.inForce.value

/-- A list of pairs with the entry of a name replaced, or added at the end. -/
def put (entries : List (String × Settings)) (name : String) (value : Settings) :
    List (String × Settings) :=
  match entries with
  | [] => [(name, value)]
  | (n, v) :: rest => if n = name then (name, value) :: rest else (n, v) :: put rest name value

/-- Requires a profile's name to be a text. -/
def requireName (name : Datum) : Outcome String :=
  match name with
  | .text s => pure s
  | d => refuse (.wrongType [.string] "name" d)

/-- Registers settings under a name. -/
def registerProfile (s : Session) (name : Datum) (given : List (String × Datum))
    (parent : Datum) : Outcome Session := do
  let name ← requireName name
  return { s with profiles := put s.profiles name (← s.settings given parent) }

/-- The settings registered under a name. -/
def getProfile (s : Session) (name : Datum) : Outcome Settings := do
  let name ← requireName name
  match s.profiles.lookup name with
  | some found => return found
  | none => refuse (.unknownProfile name)

/-- Puts the settings registered under a name in force. -/
def loadProfile (s : Session) (name : Datum) : Outcome Session := do
  return { s with inForce := s.inForce.assign (.settings (← s.getProfile name)) }

/-- Runs a block under other settings. -/
def withSettings {α : Type} (d : Datum) (block : Session → α × Session) (s : Session) :
    α × Session :=
  let (result, after) := block { s with inForce := s.inForce.assign d }
  (result, { after with inForce := after.inForce.assign s.inForce.value })

/-- Runs a block with another reporter. -/
def withReporter {α : Type} (r : Reporter) (block : Session → α × Session) (s : Session) :
    α × Session :=
  let (result, after) := block { s with reporter := s.reporter.assign r }
  (result, { after with reporter := after.reporter.assign s.reporter.value })

/-- Runs a block in a fresh thread, where nothing has replaced the settings or the reporter. -/
def inThread {α : Type} (block : Session → α × Session) (s : Session) : α × Session :=
  let (result, after) := block { s with inForce := s.inForce.fresh, reporter := s.reporter.fresh }
  (result, { after with inForce := s.inForce, reporter := s.reporter })

/-- Refuses any further definition of a setting: those there are, are all there will be. -/
def defineSetting : Outcome Unit := throw .locked

/-! ## Attributes -/

/-- Refuses to assign a field of settings that exist. -/
def assignField : Outcome Unit := throw (.fixed .field)

/-- Refuses to assign what all settings share. Names that begin with an underscore are private, and
not looked after. -/
def assignShared (name : String) (value : Datum) : Outcome Unit :=
  if name = "default" then throw (.fixed .inForce)
  else if name.startsWith "_" then pure ()
  else throw (Fault.fixed (.shared name value)).raised

/-- Refuses to remove a setting, or anything else. -/
def deleteField (name : String) : Outcome Unit :=
  match Setting.ofName? name with
  | some s => throw (.fixed (.removal s.name))
  | none => throw .missing

/-- Replaces a setting without any check. -/
def overwrite (c : Settings) (name : String) (value : Datum) : Outcome Settings :=
  match Setting.ofName? name with
  | some s => pure (c.set s value)
  | none => throw .missing

/-! ## Reports -/

/-- The verbosity in force. -/
def verbosity (s : Session) : Outcome Datum :=
  match s.inForce.value with
  | .settings c => pure c.verbosity
  | _ => throw .missing

/-- Sends a message to the reporter. -/
def tell (s : Session) (m : Message) : Outcome Session := do
  return { s with journal := ← s.journal.deliver s.reporter.value m }

/-- Sends a message to the reporter if the verbosity in force is at least the given one. -/
def tellAt (level : Verbosity) (s : Session) (m : Message) : Outcome Session := do
  match (Datum.num (.level level)).atMost? (← s.verbosity) with
  | none => throw .mismatch
  | some loud => if loud then s.tell m else return s

/-! ## Laws -/

theorem lookup_put (entries : List (String × Settings)) (name other : String) (v : Settings) :
    (put entries name v).lookup other = if other = name then some v else entries.lookup other := by
  induction entries with
  | nil =>
    by_cases h : other = name
    · simp [put, h]
    · have hb : (other == name) = false := by simpa using h
      simp [put, List.lookup_cons, h, hb]
  | cons e rest ih =>
    obtain ⟨n, w⟩ := e
    by_cases hn : n = name
    · subst hn
      by_cases h : other = n
      · simp [put, h]
      · have hb : (other == n) = false := by simpa using h
        simp [put, List.lookup_cons, h, hb]
    · by_cases h : other = n
      · subst h
        simp [put, hn]
      · have hb : (other == n) = false := by simpa using h
        simp [put, hn, List.lookup_cons, hb, ih]

/-- A registered profile is found again under its name. -/
theorem getProfile_register {s t : Session} {name : String} {given : List (String × Datum)}
    {parent : Datum} (h : s.registerProfile (.text name) given parent = .ok t) :
    t.getProfile (.text name) = s.settings given parent := by
  simp only [registerProfile, requireName, bind, Except.bind, pure, Except.pure] at h
  split at h
  · simp at h
  · rename_i v hv
    simp only [Except.ok.injEq] at h
    subst h
    simp [getProfile, requireName, lookup_put, hv, bind, Except.bind, pure, Except.pure]

/-- After a block the settings in force are what they were before it. -/
@[simp] theorem inForce_withSettings {α : Type} (d : Datum) (block : Session → α × Session)
    (s : Session) : (withSettings d block s).2.inForce.value = s.inForce.value := rfl

/-- After a block the reporter is what it was before it. -/
@[simp] theorem reporter_withReporter {α : Type} (r : Reporter) (block : Session → α × Session)
    (s : Session) : (withReporter r block s).2.reporter.value = s.reporter.value := rfl

end Session

end FlagSets
