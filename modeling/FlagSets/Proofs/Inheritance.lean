import FlagSets.Proofs.Moments

/-!
# Inheritance of settings

Settings that are given are checked and taken as they are, and all others are those of the parent.
Making settings is therefore the same as laying the given ones over the parent's, and to lay some
over the parent's and then others over the result is to lay over the parent's the first overridden
by the second. What is in force matters only where there is no parent, and then it is the parent.

Nothing that happens later changes settings that were made. A profile is looked up by its name, so
it stays what it was registered as until that name is registered again, here or in another thread.

## Main results

* `Settings.build_parent` : settings with a parent are the given ones laid over the parent's.
* `Settings.build_chain` : a chain of parents of any length is one step with all that was given.
* `Moment.made_run`, `Moment.getProfile_run` : what was made, and what is registered, stays.
* `Moment.inheritance_composes` : both, for settings made at any moments of a program.
-/

namespace FlagSets

open Outcome

namespace Config

variable {α : Type}

/-- Settings are determined by the value of each. -/
theorem eq_of_get {c d : Config α} (h : ∀ s, c.get s = d.get s) : c = d := by
  obtain ⟨examples, shrinks, derandomize, verbosity, backend⟩ := c
  obtain ⟨examples', shrinks', derandomize', verbosity', backend'⟩ := d
  obtain rfl : examples = examples' := h .maxExamples
  obtain rfl : shrinks = shrinks' := h .maxShrinks
  obtain rfl : derandomize = derandomize' := h .derandomize
  obtain rfl : verbosity = verbosity' := h .verbosity
  obtain rfl : backend = backend' := h .bitsetBackend
  rfl

end Config

namespace Setting

theorem name_injective {s t : Setting} (h : s.name = t.name) : s = t := by
  cases s <;> cases t <;> first | rfl | exact absurd h (by decide)

/-- The mark for a setting that is left unset is no value of it. -/
theorem not_accepts_unset (s : Setting) : ¬ s.Accepts .unset := by
  cases s <;> simp [Accepts, Datum.integer?, Datum.equal]

end Setting

/-! ## Settings laid over others -/

namespace Settings

variable {given a b : List (String × Datum)} {p d : Settings}

/-- What can be given: each name is that of a setting, with a value of it. The mark for settings
that are left unset is a value of none. -/
def Givable (given : List (String × Datum)) : Prop :=
  ∀ e ∈ given, ∃ s : Setting, s.name = e.1 ∧ s.Accepts e.2

/-- What is given by `a`, overridden by what is given by `b`. -/
def override (a b : List (String × Datum)) : List (String × Datum) :=
  a.filter (fun e => (b.lookup e.1).isNone) ++ b

/-- The settings with the given ones laid over them. -/
def overlay (p : Settings) (given : List (String × Datum)) : Settings where
  maxExamples := (given.lookup Setting.maxExamples.name).getD p.maxExamples
  maxShrinks := (given.lookup Setting.maxShrinks.name).getD p.maxShrinks
  derandomize := (given.lookup Setting.derandomize.name).getD p.derandomize
  verbosity := (given.lookup Setting.verbosity.name).getD p.verbosity
  bitsetBackend := (given.lookup Setting.bitsetBackend.name).getD p.bitsetBackend

@[simp] theorem get_overlay (p : Settings) (given : List (String × Datum)) (s : Setting) :
    (p.overlay given).get s = (given.lookup s.name).getD (p.get s) := by
  cases s <;> rfl

@[simp] theorem overlay_nil (p : Settings) : p.overlay [] = p :=
  Config.eq_of_get fun s => by simp

/-- Names that are overridden are looked up in what overrides them, and all others where they were
given before. -/
theorem lookup_override (a b : List (String × Datum)) (name : String) :
    (override a b).lookup name = (b.lookup name).or (a.lookup name) := by
  rw [override, List.lookup_append]
  cases hb : b.lookup name with
  | none =>
      have hkept : (a.filter fun e => (b.lookup e.1).isNone).lookup name = a.lookup name := by
        induction a with
        | nil => rfl
        | cons e rest ih =>
            obtain ⟨other, d⟩ := e
            by_cases hname : name = other
            · subst hname
              simp [hb]
            · have hne : (name == other) = false := beq_eq_false_iff_ne.mpr hname
              by_cases hother : (b.lookup other).isNone
              · simp [hother, hne, List.lookup_cons, ih]
              · simp [hother, hne, List.lookup_cons, ih]
      simp [hkept]
  | some d =>
      have hdropped : (a.filter fun e => (b.lookup e.1).isNone).lookup name = none := by
        refine List.lookup_eq_none_iff.mpr fun e he => bne_iff_ne.mpr fun hname => ?_
        have hkept := (List.mem_filter.mp he).2
        rw [← hname, hb] at hkept
        cases hkept
      simp [hdropped]

/-- Two layers are one. -/
theorem overlay_overlay (p : Settings) (a b : List (String × Datum)) :
    (p.overlay a).overlay b = p.overlay (override a b) := by
  refine Config.eq_of_get fun s => ?_
  simp only [get_overlay, lookup_override]
  cases b.lookup s.name <;> rfl

namespace Givable

theorem override (ha : Givable a) (hb : Givable b) : Givable (override a b) := by
  intro e he
  rcases List.mem_append.mp he with hkept | hnew
  · exact ha e (List.mem_of_mem_filter hkept)
  · exact hb e hnew

/-- A value that is found under the name of a setting is one of it. -/
theorem accepts (h : Givable given) {s : Setting} {d : Datum}
    (hd : given.lookup s.name = some d) : s.Accepts d := by
  obtain ⟨before, after, hsplit, -⟩ := List.lookup_eq_some_iff.mp hd
  have hmem : (s.name, d) ∈ given := by
    rw [hsplit]
    exact List.mem_append_right _ List.mem_cons_self
  obtain ⟨t, ht, haccepts⟩ := h _ hmem
  exact Setting.name_injective ht ▸ haccepts

/-- A setting is the given one, or else the inherited one. -/
theorem resolve_eq (h : Givable given) {parent inForce : Datum} {s : Setting} {d : Datum}
    (hinherited : inherited parent inForce s = .ok d) :
    resolve given parent inForce s = .ok ((given.lookup s.name).getD d) := by
  cases hgiven : given.lookup s.name with
  | none =>
      rw [resolve, hgiven]
      exact hinherited
  | some e =>
      have haccepts := h.accepts hgiven
      cases e with
      | unset => exact absurd haccepts s.not_accepts_unset
      | _ =>
          simp only [resolve, hgiven]
          exact Setting.validate_of_accepts haccepts

/-- Where every setting is inherited from the same ones, the given ones are laid over them. -/
theorem build_eq (h : Givable given) {parent inForce : Datum}
    (hparent : parent = .absent ∨ ∃ p, parent = .settings p)
    (hinherited : ∀ s, inherited parent inForce s = .ok (p.get s)) :
    build given parent inForce = .ok (p.overlay given) := by
  have hnames : ∀ e ∈ given, ∃ s : Setting, s.name = e.1 := by
    intro e he
    obtain ⟨s, hs, -⟩ := h e he
    exact ⟨s, hs⟩
  rw [build_of_parent hparent, find_unknown_eq_none_iff.mpr hnames]
  refine Config.ofEach_eq_ok_iff.mpr fun s => ?_
  rw [h.resolve_eq (hinherited s), get_overlay]

end Givable

/-- Settings with a parent are the given ones laid over the parent's, whatever is in force. -/
theorem build_parent (h : Givable given) (p : Settings) (inForce : Datum) :
    build given (.settings p) inForce = .ok (p.overlay given) :=
  h.build_eq (.inr ⟨p, rfl⟩) fun s => by cases inForce <;> rfl

/-- Settings without a parent are the given ones laid over those in force. -/
theorem build_inForce (h : Givable given) (d : Settings) :
    build given .absent (.settings d) = .ok (d.overlay given) :=
  h.build_eq (.inl rfl) fun _ => rfl

/-- A chain of parents of any length, with anything in force at each link, is one step with all that
was given, the later over the earlier. -/
theorem build_chain (links : List (List (String × Datum) × Datum))
    (hlinks : ∀ link ∈ links, Givable link.1) (p : Settings) (inForce : Datum) :
    links.foldlM (fun q link => build link.1 (.settings q) link.2) p =
      build (links.foldl (fun given link => override given link.1) []) (.settings p) inForce := by
  -- the settings reached so far are those of one step with all that was given so far
  have hrun : ∀ given, Givable given →
      links.foldlM (fun q link => build link.1 (.settings q) link.2) (p.overlay given) =
        build (links.foldl (fun given link => override given link.1) given) (.settings p)
          inForce := by
    induction links with
    | nil => exact fun given h => (build_parent h p inForce).symm
    | cons link rest ih =>
        intro given h
        have hlink : Givable link.1 := hlinks link List.mem_cons_self
        rw [List.foldlM_cons, build_parent hlink, overlay_overlay]
        exact ih (fun l hl => hlinks l (List.mem_cons_of_mem _ hl)) _ (h.override hlink)
  simpa using hrun [] nofun

end Settings

/-! ## What happens later -/

namespace Moment

/-- What can happen in a program after some settings were made. Other threads have settings of
their own in force, and share the profiles. -/
inductive Act
  | request (r : Request)
  | enter (d : Datum)
  | leave
  | elsewhere (inForce : Scoped Datum) (r : Request)

namespace Act

/-- The moment after an act. A request that fails, and leaving where no block is open, change
nothing. -/
def perform (m : Moment) : Act → Moment
  | request r => (r.perform m).2
  | enter d =>
    { m with
      session := { m.session with inForce := m.session.inForce.assign d }
      outside := m.session.inForce.value :: m.outside }
  | leave => m.leave?.getD m
  | elsewhere inForce r =>
    let after := (r.perform { m with session := { m.session with inForce } }).2
    { after with session := { after.session with inForce := m.session.inForce } }

/-- The request that is made in an act, here or in another thread. -/
def request? : Act → Option Request
  | request r => some r
  | elsewhere _ r => some r
  | _ => none

/-- An act that asks for a profile to be registered under a name. -/
def Registers (name : String) (a : Act) : Prop :=
  ∃ given parent, a.request? = some (.register (.text name) given parent)

end Act

/-- The moment after some acts. -/
def run (m : Moment) (acts : List Act) : Moment := acts.foldl Act.perform m

variable {m : Moment}

/-- What a request does to what was there: settings are only added, and a profile is only replaced
where one is registered under its name. -/
theorem perform_request (m : Moment) (r : Request) :
    m.made <:+ (r.perform m).2.made ∧
      ∀ name : String, (∀ given parent, r ≠ .register (.text name) given parent) →
        (r.perform m).2.session.profiles.lookup name = m.session.profiles.lookup name := by
  cases hrun : r.attempt m with
  | error fault => simp [Request.perform, hrun]
  | ok result =>
      obtain ⟨reply, after⟩ := result
      have hafter : (r.perform m).2 = after := by rw [Request.perform, hrun]
      rw [hafter]
      cases r with
      | construct given parent =>
          obtain ⟨c, -, hc⟩ := Outcome.bind_eq_ok_iff.mp hrun
          cases hc
          exact ⟨List.suffix_cons c m.made, fun _ _ => rfl⟩
      | register name given parent =>
          obtain ⟨next, hregister, hnext⟩ := Outcome.bind_eq_ok_iff.mp hrun
          cases hnext
          obtain ⟨t, hname, hput⟩ := Outcome.bind_eq_ok_iff.mp hregister
          obtain ⟨c, -, hc⟩ := Outcome.bind_eq_ok_iff.mp hput
          cases hc
          refine ⟨List.suffix_append _ m.made, fun other hother => ?_⟩
          have hne : other ≠ t := by
            rintro rfl
            cases name with
            | text n =>
                cases hname
                exact hother given parent rfl
            | _ => cases hname
          rw [Session.lookup_put, if_neg hne]
      | get name =>
          obtain ⟨c, -, hc⟩ := Outcome.bind_eq_ok_iff.mp hrun
          cases hc
          exact ⟨List.suffix_rfl, fun _ _ => rfl⟩
      | load name =>
          obtain ⟨next, hload, hnext⟩ := Outcome.bind_eq_ok_iff.mp hrun
          cases hnext
          obtain ⟨c, -, hc⟩ := Outcome.bind_eq_ok_iff.mp hload
          cases hc
          exact ⟨List.suffix_rfl, fun _ _ => rfl⟩

/-- The same for everything that can happen. -/
theorem perform_act (m : Moment) (a : Act) :
    m.made <:+ (a.perform m).made ∧
      ∀ name : String, ¬ a.Registers name →
        (a.perform m).session.profiles.lookup name = m.session.profiles.lookup name := by
  cases a with
  | request r =>
      obtain ⟨hmade, hprofiles⟩ := perform_request m r
      exact ⟨hmade, fun name h => hprofiles name fun given parent hr => h ⟨given, parent, hr ▸ rfl⟩⟩
  | enter d => exact ⟨List.suffix_rfl, fun _ _ => rfl⟩
  | leave =>
      obtain ⟨session, made, outside⟩ := m
      cases outside with
      | nil => exact ⟨List.suffix_rfl, fun _ _ => rfl⟩
      | cons d rest => exact ⟨List.suffix_rfl, fun _ _ => rfl⟩
  | elsewhere inForce r =>
      obtain ⟨hmade, hprofiles⟩ :=
        perform_request { m with session := { m.session with inForce } } r
      exact ⟨hmade, fun name h => hprofiles name fun given parent hr => h ⟨given, parent, hr ▸ rfl⟩⟩

/-- Settings that were made stay as they are. Later ones come before them. -/
theorem made_run (m : Moment) (acts : List Act) : m.made <:+ (m.run acts).made := by
  induction acts generalizing m with
  | nil => exact List.suffix_rfl
  | cons a rest ih => exact (perform_act m a).1.trans (ih (a.perform m))

/-- A profile is what it was, as long as its name is not registered again. -/
theorem getProfile_run (m : Moment) {name : String} {acts : List Act}
    (h : ∀ a ∈ acts, ¬ a.Registers name) :
    (m.run acts).session.getProfile (.text name) = m.session.getProfile (.text name) := by
  induction acts generalizing m with
  | nil => rfl
  | cons a rest ih =>
      have hstep : (a.perform m).session.getProfile (.text name) =
          m.session.getProfile (.text name) := by
        simp only [Session.getProfile, Session.requireName, bind, Except.bind, pure, Except.pure,
          (perform_act m a).2 name (h a List.mem_cons_self)]
      calc (m.run (a :: rest)).session.getProfile (.text name)
          = ((a.perform m).run rest).session.getProfile (.text name) := rfl
        _ = (a.perform m).session.getProfile (.text name) :=
            ih _ fun b hb => h b (List.mem_cons_of_mem _ hb)
        _ = m.session.getProfile (.text name) := hstep

/-- Where a profile is registered, it is what its settings were resolved to. -/
theorem getProfile_attempt_register {name : String} {given : List (String × Datum)}
    {parent reply : Datum} {after : Moment}
    (h : (Request.register (.text name) given parent).attempt m = .ok (reply, after)) :
    ∃ c ∈ after.made, m.session.settings given parent = .ok c ∧
      after.session.getProfile (.text name) = .ok c := by
  obtain ⟨next, hregister, hnext⟩ := Outcome.bind_eq_ok_iff.mp h
  cases hnext
  have hfound := Session.getProfile_register hregister
  obtain ⟨t, hname, hput⟩ := Outcome.bind_eq_ok_iff.mp hregister
  cases hname
  obtain ⟨c, hc, -⟩ := Outcome.bind_eq_ok_iff.mp hput
  have hget := hfound.trans hc
  obtain ⟨t, ht, hmem⟩ := Session.mem_of_getProfile hget
  exact ⟨c, List.mem_append_left _ (List.mem_map_of_mem (f := Prod.snd) hmem), hc, hget⟩

open Settings

variable {a b : List (String × Datum)}

/-- Inheritance composes, whatever is in force where settings are made: settings over settings over
`p` are those over `p` with everything that was given. Without a parent, the ones in force are the
parent. What was made stays as it is, and a profile stays what it was resolved to when it was
registered. -/
theorem inheritance_composes (ha : Givable a) (hb : Givable b) :
    (∀ (p : Settings) (first second once : Session), ∃ q r : Settings,
        first.settings a (.settings p) = .ok q ∧ second.settings b (.settings q) = .ok r ∧
          once.settings (override a b) (.settings p) = .ok r) ∧
      (∀ (s : Session) (d : Settings), s.inForce.value = .settings d →
        ∃ c, s.settings a .absent = .ok c ∧ s.settings a (.settings d) = .ok c) ∧
      ∀ (m : Moment) (acts : List Act), m.made <:+ (m.run acts).made ∧
        ∀ (name : String) (given : List (String × Datum)) (parent reply : Datum) (after : Moment),
          (Request.register (.text name) given parent).attempt m = .ok (reply, after) →
          (∀ act ∈ acts, ¬ act.Registers name) →
          ∃ c ∈ (after.run acts).made, m.session.settings given parent = .ok c ∧
            (after.run acts).session.getProfile (.text name) = .ok c := by
  refine ⟨fun p first second once => ?_, fun s d hd => ?_, fun m acts => ⟨made_run m acts, ?_⟩⟩
  · refine ⟨p.overlay a, (p.overlay a).overlay b, build_parent ha p _,
      build_parent hb (p.overlay a) _, ?_⟩
    rw [overlay_overlay]
    exact build_parent (ha.override hb) p _
  · refine ⟨d.overlay a, ?_, build_parent ha d _⟩
    rw [Session.settings, hd]
    exact build_inForce ha d
  · intro name given parent reply after hregister hacts
    obtain ⟨c, hmade, hc, hget⟩ := getProfile_attempt_register hregister
    refine ⟨c, (made_run after acts).subset hmade, hc, ?_⟩
    rw [getProfile_run after hacts, hget]

/-- A parent with few examples and no shrinks, and settings over it with the examples overridden. A
profile that is made of the parent stays while other profiles are loaded and registered, here and
elsewhere, and other settings are in force. -/
theorem inheritance_composes_overridden :
    let few : List (String × Datum) := [("max_examples", .int 7), ("max_shrinks", .int 0)]
    let more : List (String × Datum) := [("max_examples", .int 9)]
    let later : List Act := [.request (.load (.text "few")), .enter .absent,
      .elsewhere (.ofInitial .absent) (.register (.text "more") more .absent), .leave]
    Givable few ∧ Givable more ∧
      (∃ q r : Settings,
        Session.initial.settings few (.settings Settings.plain) = .ok q ∧
          Session.initial.settings more (.settings q) = .ok r ∧
          Session.initial.settings (override few more) (.settings Settings.plain) = .ok r) ∧
      ∃ after : Moment,
        (Request.register (.text "few") few .absent).attempt initial = .ok (.absent, after) ∧
          ∃ c, initial.session.settings few .absent = .ok c ∧
            (after.run later).session.getProfile (.text "few") = .ok c := by
  intro few more later
  have hfew : Givable few := by
    intro e he
    rcases List.mem_cons.mp he with rfl | he
    · exact ⟨.maxExamples, rfl, 7, rfl, by decide⟩
    · rw [List.mem_singleton.mp he]
      exact ⟨.maxShrinks, rfl, 0, rfl, by decide⟩
  have hmore : Givable more := by
    intro e he
    rw [List.mem_singleton.mp he]
    exact ⟨.maxExamples, rfl, 9, rfl, by decide⟩
  obtain ⟨hchain, -, hlater⟩ := inheritance_composes hfew hmore
  refine ⟨hfew, hmore, hchain Settings.plain .initial .initial .initial, _, rfl, ?_⟩
  have hquiet : ∀ act ∈ later, ¬ act.Registers "few" := by
    simp [later, Act.Registers, Act.request?]
  obtain ⟨c, -, hmade, hget⟩ :=
    (hlater initial later).2 "few" few .absent .absent _ rfl hquiet
  exact ⟨c, hmade, hget⟩

end Moment

end FlagSets
