import FlagSets.Proofs.Validity
import FlagSets.Session

/-!
# A program from moment to moment

A program makes settings, registers, looks up and loads profiles, with any arguments, and enters and
leaves blocks with other settings in force. Nothing looks at settings again once they are made. That
all of them are valid at every moment is a property of the whole history, and holds because there is
no way for settings to be registered or put in force that were not made before.

A request is refused exactly if there is something wrong with it, and then changes nothing. One
that cannot be quoted fails too, and changes nothing either.

## Main results

* `Moment.Reachable.sound` : what is registered, in force, or to be in force again was made validly.
* `Moment.Sound.attempt_refused`, `Moment.Sound.exists_attempt` : which requests are refused.
* `Moment.reachable_valid` : what holds at every moment that a program comes to.
-/

namespace FlagSets

open Outcome

/-! ## Profiles -/

namespace Session

variable {s : Session} {name : Datum}

theorem mem_put {entries : List (String × Settings)} {name : String} {c : Settings}
    {e : String × Settings} (h : e ∈ put entries name c) : e = (name, c) ∨ e ∈ entries := by
  induction entries with
  | nil => exact .inl (List.mem_singleton.mp h)
  | cons first rest ih =>
      obtain ⟨other, d⟩ := first
      rw [put] at h
      split at h
      · rcases List.mem_cons.mp h with rfl | hrest
        · exact .inl rfl
        · exact .inr (List.mem_cons_of_mem _ hrest)
      · rcases List.mem_cons.mp h with rfl | hrest
        · exact .inr List.mem_cons_self
        · exact (ih hrest).imp_right (List.mem_cons_of_mem _)

/-- A name that no profile has: it is no text, or a text under which nothing is registered. -/
def Unregistered (s : Session) (name : Datum) : Prop :=
  ∀ t, name = .text t → ∀ e ∈ s.profiles, e.1 ≠ t

/-- A profile that is found under a name is registered. -/
theorem mem_of_getProfile {c : Settings} (h : s.getProfile name = .ok c) :
    ∃ t, name = .text t ∧ (t, c) ∈ s.profiles := by
  cases name with
  | text t =>
      refine ⟨t, rfl, ?_⟩
      simp only [getProfile, requireName, bind, Except.bind, pure, Except.pure] at h
      split at h
      · rename_i found hfound
        obtain rfl := Except.ok.inj h
        obtain ⟨before, after, hsplit, -⟩ := List.lookup_eq_some_iff.mp hfound
        rw [hsplit]
        exact List.mem_append_right _ List.mem_cons_self
      · cases h
  | _ => cases h

/-- What is no text is no name of a profile. -/
theorem requireName_refused (h : ∀ t, name ≠ .text t) :
    (requireName name).IsRefused name.isLegible := by
  cases name with
  | text t => exact absurd rfl (h t)
  | _ => exact .refuse _ (by simp [Refusal.quoted])

theorem getProfile_refused (h : s.Unregistered name) :
    (s.getProfile name).IsRefused name.isLegible := by
  by_cases hname : ∃ t, name = .text t
  · obtain ⟨t, rfl⟩ := hname
    have hnone : s.profiles.lookup t = none :=
      List.lookup_eq_none_iff.mpr fun e he => bne_iff_ne.mpr (h t rfl e he).symm
    simp only [getProfile, requireName, hnone, bind, Except.bind, pure, Except.pure]
    exact .refuse _ fun _ => rfl
  · exact (requireName_refused fun t ht => hname ⟨t, ht⟩).bind _

theorem exists_getProfile (h : ¬ s.Unregistered name) : ∃ c, s.getProfile name = .ok c := by
  cases hfound : s.getProfile name with
  | ok c => exact ⟨c, rfl⟩
  | error fault =>
      refine absurd (fun t ht e he hname => ?_) h
      subst ht
      simp only [getProfile, requireName, bind, Except.bind, pure, Except.pure] at hfound
      split at hfound
      · cases hfound
      · rename_i hnone
        exact bne_iff_ne.mp (List.lookup_eq_none_iff.mp hnone e he) hname.symm

end Session

/-! ## A program from moment to moment -/

/-- A program at a moment: its session, the settings made so far, and what was in force outside each
open block, the innermost block first. -/
structure Moment where
  session : Session
  made : List Settings
  outside : List Datum

/-- What a program asks for. -/
inductive Request
  | construct (given : List (String × Datum)) (parent : Datum)
  | register (name : Datum) (given : List (String × Datum)) (parent : Datum)
  | get (name : Datum)
  | load (name : Datum)

namespace Moment

/-- The start: one profile, and its settings are in force. -/
def initial : Moment := ⟨.initial, [.plain], []⟩

/-- A block with other settings in force begins. -/
def enter (m : Moment) (c : Settings) : Moment where
  session := { m.session with inForce := m.session.inForce.assign (.settings c) }
  made := m.made
  outside := m.session.inForce.value :: m.outside

/-- The innermost block ends, and what was in force before it is in force again. -/
def leave? (m : Moment) : Option Moment :=
  match m.outside with
  | [] => none
  | d :: rest =>
    some { m with
      session := { m.session with inForce := m.session.inForce.assign d }, outside := rest }

/-- A block that is entered and left around some steps of a session is a block under other
settings. -/
theorem leave_enter {α : Type} (m : Moment) (c : Settings) (block : Session → α × Session) :
    (leave? { m.enter c with session := (block (m.enter c).session).2 }).map session =
      some (Session.withSettings (.settings c) block m.session).2 := rfl

end Moment

namespace Request

/-- The parent that a request names. -/
def parent : Request → Datum
  | construct _ parent => parent
  | register _ _ parent => parent
  | _ => .absent

/-- The reply to a request and the moment after it, if the request succeeds. The settings that a
profile is made of are among those of all profiles then. -/
def attempt (m : Moment) : Request → Outcome (Datum × Moment)
  | construct given parent => do
    let c ← m.session.settings given parent
    return (.settings c, { m with made := c :: m.made })
  | register name given parent => do
    let after ← m.session.registerProfile name given parent
    let made := after.profiles.map Prod.snd ++ m.made
    return (.absent, { m with session := after, made })
  | get name => do return (.settings (← m.session.getProfile name), m)
  | load name => do return (.absent, { m with session := ← m.session.loadProfile name })

/-- The reply to a request, and the moment after it: the same one if the request fails. -/
def perform (m : Moment) (r : Request) : Outcome Datum × Moment :=
  match r.attempt m with
  | .ok (reply, next) => (.ok reply, next)
  | .error fault => (.error fault, m)

/-- The data of a request that may be quoted where it is refused. -/
def data : Request → List Datum
  | construct given parent => Settings.questioned given parent
  | register name given parent => name :: Settings.questioned given parent
  | get name => [name]
  | load name => [name]

/-- What can be wrong with a request. -/
def Flawed (s : Session) : Request → Prop
  | construct given parent => Settings.Flawed given parent
  | register name given parent => (∀ t, name ≠ .text t) ∨ Settings.Flawed given parent
  | get name => s.Unregistered name
  | load name => s.Unregistered name

end Request

namespace Moment

/-- The moments that a program can come to. Its parents and blocks are over settings that were made
before. -/
inductive Reachable : Moment → Prop
  | initial : Reachable initial
  | request {m : Moment} (h : Reachable m) (r : Request)
    (hparent : ∀ p, r.parent = .settings p → p ∈ m.made) : Reachable (r.perform m).2
  | enter {m : Moment} (h : Reachable m) {c : Settings} (hc : c ∈ m.made) : Reachable (m.enter c)
  | leave {m after : Moment} (h : Reachable m) (hleave : m.leave? = some after) : Reachable after

/-- The settings of a moment: all of them are valid, and nothing but them is registered, in force,
or to be in force again. -/
structure Sound (m : Moment) : Prop where
  valid : ∀ c ∈ m.made, c.Valid
  registered : ∀ e ∈ m.session.profiles, e.2 ∈ m.made
  inForce : ∃ c ∈ m.made, m.session.inForce.value = .settings c
  outside : ∀ d ∈ m.outside, ∃ c ∈ m.made, d = .settings c

namespace Sound

variable {m : Moment}

theorem initial : Sound initial where
  valid c hc := by
    rw [List.mem_singleton.mp hc]
    exact Settings.valid_plain
  registered e he := by
    rw [List.mem_singleton.mp he]
    exact List.mem_singleton_self _
  inForce := ⟨.plain, List.mem_singleton_self _, rfl⟩
  outside := nofun

theorem enter (h : m.Sound) {c : Settings} (hc : c ∈ m.made) : (m.enter c).Sound where
  valid := h.valid
  registered := h.registered
  inForce := ⟨c, hc, rfl⟩
  outside d hd := by
    rcases List.mem_cons.mp hd with rfl | hrest
    · exact h.inForce
    · exact h.outside d hrest

theorem leave (h : m.Sound) {after : Moment} (hleave : m.leave? = some after) : after.Sound := by
  obtain ⟨session, made, outside⟩ := m
  cases outside with
  | nil => cases hleave
  | cons d rest =>
      cases hleave
      exact ⟨h.valid, h.registered, h.outside d List.mem_cons_self,
        fun e he => h.outside e (List.mem_cons_of_mem d he)⟩

/-- Settings that are made at a sound moment are valid. -/
theorem valid_settings (h : m.Sound) {given : List (String × Datum)} {parent : Datum} {c : Settings}
    (hmade : m.session.settings given parent = .ok c)
    (hparent : ∀ p, parent = .settings p → p ∈ m.made) : c.Valid := by
  obtain ⟨d, hd, hinForce⟩ := h.inForce
  rw [Session.settings, hinForce] at hmade
  exact Settings.build_valid hmade (fun p hp => h.valid p (hparent p hp)) (h.valid d hd)

/-- Valid settings can be added to those that were made. -/
theorem add (h : m.Sound) {more : List Settings} (hmore : ∀ c ∈ more, c.Valid) :
    Sound { m with made := more ++ m.made } where
  valid c hc := (List.mem_append.mp hc).elim (hmore c) (h.valid c)
  registered e he := List.mem_append_right more (h.registered e he)
  inForce := by
    obtain ⟨c, hc, hinForce⟩ := h.inForce
    exact ⟨c, List.mem_append_right more hc, hinForce⟩
  outside d hd := by
    obtain ⟨c, hc, houtside⟩ := h.outside d hd
    exact ⟨c, List.mem_append_right more hc, houtside⟩

/-- What a request that succeeds leaves behind is sound again. -/
theorem attempt (h : m.Sound) {r : Request} (hparent : ∀ p, r.parent = .settings p → p ∈ m.made)
    {reply : Datum} {after : Moment} (hrun : r.attempt m = .ok (reply, after)) : after.Sound := by
  cases r with
  | construct given parent =>
      obtain ⟨c, hmade, hafter⟩ := Outcome.bind_eq_ok_iff.mp hrun
      cases hafter
      have hvalid := h.valid_settings hmade hparent
      have hmore : ∀ d ∈ [c], d.Valid := fun d hd => List.mem_singleton.mp hd ▸ hvalid
      exact h.add hmore
  | register name given parent =>
      obtain ⟨after, hregister, hafter⟩ := Outcome.bind_eq_ok_iff.mp hrun
      cases hafter
      obtain ⟨t, -, hput⟩ := Outcome.bind_eq_ok_iff.mp hregister
      obtain ⟨c, hmade, hafter⟩ := Outcome.bind_eq_ok_iff.mp hput
      cases hafter
      have hvalid := h.valid_settings hmade hparent
      -- a profile is the new one, whether or not it replaced another, or was there before
      have hprofiles : ∀ d ∈ (Session.put m.session.profiles t c).map Prod.snd, d.Valid := by
        intro d hd
        obtain ⟨e, he, rfl⟩ := List.mem_map.mp hd
        rcases Session.mem_put he with rfl | hold
        · exact hvalid
        · exact h.valid e.2 (h.registered e hold)
      have hadded := h.add hprofiles
      refine ⟨hadded.valid, fun e he => ?_, hadded.inForce, hadded.outside⟩
      exact List.mem_append_left _ (List.mem_map_of_mem he)
  | get name =>
      obtain ⟨c, -, hafter⟩ := Outcome.bind_eq_ok_iff.mp hrun
      cases hafter
      exact h
  | load name =>
      obtain ⟨after, hload, hafter⟩ := Outcome.bind_eq_ok_iff.mp hrun
      cases hafter
      obtain ⟨c, hfound, hafter⟩ := Outcome.bind_eq_ok_iff.mp hload
      cases hafter
      obtain ⟨t, -, hmem⟩ := Session.mem_of_getProfile hfound
      exact ⟨h.valid, h.registered, ⟨c, h.registered _ hmem, rfl⟩, h.outside⟩

theorem perform (h : m.Sound) {r : Request} (hparent : ∀ p, r.parent = .settings p → p ∈ m.made) :
    (r.perform m).2.Sound := by
  unfold Request.perform
  split
  · exact h.attempt hparent ‹_›
  · exact h

end Sound

theorem Reachable.sound {m : Moment} (h : m.Reachable) : m.Sound := by
  induction h with
  | initial => exact .initial
  | request _ r hparent ih => exact ih.perform hparent
  | enter _ hc ih => exact ih.enter hc
  | leave _ hleave ih => exact ih.leave hleave

/-! ### Requests that fail -/

variable {m : Moment} {r : Request}

/-- A request with something wrong about it is refused. -/
theorem Sound.attempt_refused (h : m.Sound) (hr : r.Flawed m.session) :
    (r.attempt m).IsRefused (∀ d ∈ r.data, d.isLegible) := by
  obtain ⟨d, -, hinForce⟩ := h.inForce
  have hsettings {given : List (String × Datum)} {parent : Datum}
      (hflawed : Settings.Flawed given parent) :
      (m.session.settings given parent).IsRefused
        (∀ d ∈ Settings.questioned given parent, d.isLegible) := by
    rw [Session.settings, hinForce]
    exact Settings.build_refused hflawed
  cases r with
  | construct given parent => exact (hsettings hr).bind _
  | register name given parent =>
      have hdata (h : ∀ d ∈ name :: Settings.questioned given parent, d.isLegible) :=
        List.forall_mem_cons.mp h
      by_cases hname : ∃ t, name = .text t
      · obtain ⟨t, rfl⟩ := hname
        have hflawed := hr.resolve_left fun hnot => hnot t rfl
        exact (((hsettings hflawed).mono fun h => (hdata h).2).bind _).bind _
      · have hrefused := Session.requireName_refused fun t ht => hname ⟨t, ht⟩
        exact ((hrefused.mono fun h => (hdata h).1).bind _).bind _
  | get name =>
      exact ((Session.getProfile_refused hr).mono fun h => h name List.mem_cons_self).bind _
  | load name =>
      have hrefused := Session.getProfile_refused hr
      exact ((hrefused.mono fun h => h name List.mem_cons_self).bind _).bind _

/-- A request with nothing wrong about it succeeds. -/
theorem Sound.exists_attempt (h : m.Sound) (hr : ¬ r.Flawed m.session) :
    ∃ reply after, r.attempt m = .ok (reply, after) := by
  obtain ⟨d, -, hinForce⟩ := h.inForce
  have hsettings {given : List (String × Datum)} {parent : Datum}
      (hflawed : ¬ Settings.Flawed given parent) :
      ∃ c, m.session.settings given parent = .ok c := by
    rw [Session.settings, hinForce]
    exact Settings.exists_build hflawed
  cases r with
  | construct given parent =>
      obtain ⟨c, hc⟩ := hsettings hr
      simp only [Request.attempt, hc]
      exact ⟨_, _, rfl⟩
  | register name given parent =>
      cases name with
      | text t =>
          obtain ⟨c, hc⟩ := hsettings fun hflawed => hr (.inr hflawed)
          simp only [Request.attempt, Session.registerProfile, hc]
          exact ⟨_, _, rfl⟩
      | _ => exact absurd (.inl fun t ht => by cases ht) hr
  | get name =>
      obtain ⟨c, hc⟩ := Session.exists_getProfile hr
      simp only [Request.attempt, hc]
      exact ⟨_, _, rfl⟩
  | load name =>
      obtain ⟨c, hc⟩ := Session.exists_getProfile hr
      simp only [Request.attempt, Session.loadProfile, hc]
      exact ⟨_, _, rfl⟩

/-- At every moment that a program comes to, all settings that were made, those of all profiles and
those in force are valid, and the ones in force name a backing. A request is refused, or cannot be
quoted, and changes nothing where something is wrong with it, and otherwise succeeds. -/
theorem reachable_valid (h : m.Reachable) :
    (∀ c ∈ m.made, c.Valid) ∧ (∀ e ∈ m.session.profiles, e.2.Valid) ∧
      (∃ c : Settings, m.session.inForce.value = .settings c ∧ c.Valid) ∧
      (∃ b, Backing.resolve m.session.inForce.value .absent = .ok b ∧
        (b = .boolVec ∨ b = .bitArray)) ∧
      ∀ r : Request,
        (r.Flawed m.session → ∃ fault, r.perform m = (.error fault, m) ∧
          fault.IsRefusal (∀ d ∈ r.data, d.isLegible)) ∧
          (¬ r.Flawed m.session → ∃ reply after, r.perform m = (.ok reply, after)) := by
  have hsound := h.sound
  obtain ⟨c, hc, hinForce⟩ := hsound.inForce
  refine ⟨hsound.valid, fun e he => hsound.valid e.2 (hsound.registered e he),
    ⟨c, hinForce, hsound.valid c hc⟩, ?_, fun r => ⟨fun hr => ?_, fun hr => ?_⟩⟩
  · rw [hinForce]
    exact (hsound.valid c hc).exists_backing
  · obtain ⟨fault, hfault, hrefusal⟩ := hsound.attempt_refused hr
    refine ⟨fault, ?_, hrefusal⟩
    rw [Request.perform, hfault]
  · obtain ⟨reply, after, hrun⟩ := hsound.exists_attempt hr
    refine ⟨reply, after, ?_⟩
    rw [Request.perform, hrun]

/-- A profile is registered and put in force for a block. In there it cannot be registered anew with
a negative number of shrinks. -/
theorem reachable_valid_in_block :
    let eager : Settings := { Settings.plain with maxExamples := .int 7 }
    let registered := Request.register (.text "eager") [("max_examples", .int 7)] .absent
    let spoiled := Request.register (.text "eager") [("max_shrinks", .int (-1))] .absent
    let inside := (registered.perform initial).2.enter eager
    inside.Reachable ∧ inside.session.getProfile (.text "eager") = .ok eager ∧ eager.Valid ∧
      ∃ why, spoiled.perform inside = (.error (.refused why), inside) := by
  intro eager registered spoiled inside
  have hlegible : ∀ d ∈ spoiled.data, d.isLegible := by
    intro d hd
    simp only [spoiled, Request.data, Settings.questioned, List.map_cons, List.map_nil,
      List.mem_cons, List.not_mem_nil, or_false] at hd
    rcases hd with rfl | rfl | rfl
    · rfl
    · rfl
    · exact (Datum.isLegible_int (-1)).trans (Text.isShort_of_lt_word (by decide))
  have hmade : eager ∈ (registered.perform initial).2.made :=
    List.mem_cons_of_mem _ List.mem_cons_self
  have hinside : inside.Reachable := .enter (.request .initial registered nofun) hmade
  obtain ⟨hvalid, -, -, -, hrequests⟩ := reachable_valid hinside
  have hspoiled : spoiled.Flawed inside.session :=
    .inr (.invalid .maxShrinks (.int (-1)) rfl nofun (by
      rintro ⟨n, hn, hpos⟩
      cases hn
      exact absurd hpos (by decide)))
  obtain ⟨fault, hperform, hrefusal⟩ := (hrequests spoiled).1 hspoiled
  obtain ⟨why, rfl⟩ := hrefusal.resolve_right fun h => h.1 hlegible
  exact ⟨hinside, rfl, hvalid eager hmade, why, hperform⟩

/-- Settings with too small a number of examples cannot be made. Where that number is too long to be
written out they are not refused either, as it cannot be quoted. -/
theorem perform_construct_of_long (m : Moment) {n : Int} (hn : n < 1)
    (hlong : Text.isShort n = false) :
    let request := Request.construct [("max_examples", .int n)] .absent
    request.Flawed m.session ∧ request.perform m = (.error .tooLong, m) := by
  intro request
  constructor
  · refine .invalid .maxExamples (.int n) rfl nofun ?_
    rintro ⟨k, hk, hpos⟩
    cases hk
    exact absurd hn (Int.not_lt.mpr hpos)
  · have hbuild : m.session.settings [("max_examples", .int n)] .absent = .error .tooLong := by
      rw [Session.settings, Settings.build_of_parent (.inl rfl)]
      show Setting.maxExamples.validate (.int n) >>= _ = _
      rw [Setting.validate_maxExamples_of_long hn hlong]
      rfl
    rw [Request.perform]
    simp only [request, Request.attempt, hbuild]
    rfl

/-- At the start of a program, and with the opposite of the least number that is too long. -/
theorem construct_tooLong :
    let request := Request.construct [("max_examples", .int (-Text.leastLong))] .absent
    initial.Reachable ∧ request.Flawed initial.session ∧
      request.perform initial = (.error .tooLong, initial) := by
  have hneg : -(Text.leastLong : Int) < 1 := by omega
  exact ⟨.initial, perform_construct_of_long initial hneg Text.isShort_neg_leastLong⟩

end Moment

end FlagSets
