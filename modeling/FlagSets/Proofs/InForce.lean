import FlagSets.Proofs.Hosts
import Mathlib.Data.List.Basic

/-!
# Settings given and settings in force

A search may be given settings, or go by those in force. It makes no difference to what it finds,
asks and draws, whoever listens and whatever the condition remembers. It does make one to what is
heard: the messages are those of the settings that the search goes by, but the verbosity is always
the one in force. A search that is given settings with a high verbosity is silent all the same.

## Main results

* `Host.find_given` : the two searches, and what is heard of each.
* `find_given_unheard` : they are not heard alike.
-/

namespace FlagSets

/-- Of two filters one of which lets through what the other one does, the same comes only if they
agree. -/
private theorem map_filter_eq_iff {α β : Type} {p q : α → Bool} (f : α → β) {l : List α}
    (h : (∀ a, p a = true → q a = true) ∨ ∀ a, q a = true → p a = true) :
    (l.filter p).map f = (l.filter q).map f ↔ ∀ a ∈ l, p a = q a := by
  constructor
  · intro heq
    have hlen : (l.filter p).length = (l.filter q).length := by
      simpa using congrArg List.length heq
    have hfilter : l.filter p = l.filter q := by
      rcases h with hpq | hqp
      · exact (List.monotone_filter_right l hpq).eq_of_length hlen
      · exact ((List.monotone_filter_right l hqp).eq_of_length hlen.symm).symm
    intro a ha
    have hmem : a ∈ l.filter p ↔ a ∈ l.filter q := by rw [hfilter]
    rw [List.mem_filter, List.mem_filter] at hmem
    rw [Bool.eq_iff_iff]
    exact ⟨fun hp => (hmem.mp ⟨ha, hp⟩).2, fun hq => (hmem.mpr ⟨ha, hq⟩).2⟩
  · intro hagree
    rw [List.filter_congr hagree]

/-- Of two verbosities one lets through what the other one does. -/
private theorem isLoud_total {c d : Settings} (hc : c.Valid) (hd : d.Valid) :
    (∀ level, isLoud c.verbosity level = true → isLoud d.verbosity level = true) ∨
      ∀ level, isLoud d.verbosity level = true → isLoud c.verbosity level = true := by
  obtain ⟨u, hu⟩ : ∃ u : Verbosity, c.verbosity.equal (.num (.level u)) = true := hc .verbosity
  obtain ⟨v, hv⟩ : ∃ v : Verbosity, d.verbosity.equal (.num (.level v)) = true := hd .verbosity
  simp only [isLoud_of_equal hu, isLoud_of_equal hv, decide_eq_true_eq]
  rcases Nat.le_total u.rank v.rank with hle | hle
  · exact .inl fun level h => h.trans hle
  · exact .inr fun level h => h.trans hle

namespace Host

variable {ω μ : Type} {h : Host ω} {memory : ω → μ} {condition : Datum → Step μ Bool}

/-- A search that is given settings comes to what it comes to without them where these are in force:
to the same result by the same questions, with the same left of the source, and with the same left
in the memory of the condition. Each of the two is heard at the verbosity in force where it takes
place. They are heard alike exactly if no message of the search is loud enough for only one of the
two. -/
theorem find_given [Memory] (hminds : h.Minds memory condition) (hord : h.Orderly) {w u : ω}
    {d s : Settings} (hd : (h.session w).inForce.value = .settings d)
    (hs : (h.session u).inForce.value = .settings s) (hmemory : memory w = memory u)
    (strategy : Strategy) (name : String) (source : Source) :
    let given := (h.find strategy name (some s)).run { world := w, source }
    let default := (h.find strategy name none).run { world := u, source }
    let messages := (((recorder condition).search strategy name s).run
      { memory := memory w, source }).2.messages
    given.1 = default.1 ∧ given.2.asked = default.2.asked ∧
      given.2.source = default.2.source ∧ memory given.2.world = memory default.2.world ∧
      (h.Steady →
        given.2.heard = (messages.filter fun m => isLoud d.verbosity m.1).map Prod.snd ∧
          default.2.heard = (messages.filter fun m => isLoud s.verbosity m.1).map Prod.snd ∧
          (given.2.heard = default.2.heard ↔
            ∀ m ∈ messages, isLoud d.verbosity m.1 = isLoud s.verbosity m.1)) := by
  intro given default messages
  have hgiven : h.settingsFor (some s) w = .ok s := settingsFor_eq hd (some s)
  have hdefault : h.settingsFor none u = .ok s := settingsFor_eq hs none
  obtain ⟨hresult, hfollows⟩ := find_follows hminds hord hgiven strategy name source
  obtain ⟨hresult', hfollows'⟩ := find_follows hminds hord hdefault strategy name source
  rw [← hmemory] at hresult' hfollows'
  refine ⟨hresult.trans hresult'.symm, hfollows.asked_eq.trans hfollows'.asked_eq.symm,
    hfollows.source_eq.trans hfollows'.source_eq.symm,
    hfollows.memory_eq.trans hfollows'.memory_eq.symm, fun hsteady => ?_⟩
  obtain ⟨d', hd', hdvalid⟩ := hord w
  obtain ⟨s', hs', hsvalid⟩ := hord u
  cases hd.symm.trans hd'
  cases hs.symm.trans hs'
  have haloud := find_follows_aloud hminds hord hsteady hd hdvalid hgiven strategy name source
  have haloud' := find_follows_aloud hminds hord hsteady hs hsvalid hdefault strategy name source
  rw [← hmemory] at haloud'
  have hheard : given.2.heard = (messages.filter fun m => isLoud d.verbosity m.1).map Prod.snd :=
    haloud.heard_eq
  have hheard' : default.2.heard = (messages.filter fun m => isLoud s.verbosity m.1).map Prod.snd :=
    haloud'.heard_eq
  refine ⟨hheard, hheard', ?_⟩
  rw [hheard, hheard']
  exact map_filter_eq_iff Prod.snd
    ((isLoud_total hdvalid hsvalid).imp (fun h m => h m.1) fun h m => h m.1)

attribute [local instance] Memory.small

/-- A search for any byte, given settings with a high verbosity where the usual ones are in force,
and without any where those are. -/
theorem find_given_byte :
    let s : Strategy := .range (.word .u8) (.plain 0) (.plain 2) none
    let query : Query := ⟨"any", fun _ => .ok true⟩
    let source := Source.tape [1, 0]
    let given := ((counting query).find s query.name (some (Settings.atLevel .verbose))).run
      { world := (.normal, 0), source }
    let default := ((counting query).find s query.name none).run { world := (.verbose, 0), source }
    given.1 = default.1 ∧ given.2.asked = default.2.asked ∧ given.2.source = default.2.source ∧
      given.2.heard = [] ∧
      default.2.heard = ["Found example 1, shrinking", "Shrunk example to 0 after 1 shrinks"] := by
  intro s query source given default
  have hminds : (counting query).Minds (fun _ => ()) query.step := (pure_counting query).minds
  obtain ⟨hresult, hasked, hsource, -, hheard⟩ := find_given hminds (orderly_counting query)
    (w := (.normal, 0)) (u := (.verbose, 0)) (d := Settings.atLevel .normal)
    (s := Settings.atLevel .verbose) rfl rfl rfl s query.name source
  obtain ⟨hgiven, hdefault, -⟩ := hheard (steady_counting query)
  rw [recorder_search] at hgiven hdefault
  exact ⟨hresult, hasked, hsource, hgiven.trans rfl, hdefault.trans rfl⟩

end Host

attribute [local instance] Memory.small

/-- Settings with a high verbosity that are given to a search are not heeded, and nothing is heard
of it. Where they are in force, both messages are heard. -/
theorem find_given_unheard :
    let s : Strategy := .range (.word .u8) (.plain 0) (.plain 2) none
    let query : Query := ⟨"any", fun _ => .ok true⟩
    let usual := Settings.atLevel .normal
    let chatty := Settings.atLevel .verbose
    let supply := Source.Supply.source (.tape [1, 0])
    usual.Valid ∧ chatty.Valid ∧
      Strategy.ofBounds (.kind (.word .u8)) (.int 0) (.int 2) .absent = .ok s ∧
      (find (.strategy s) query usual (some chatty) supply).reports = [] ∧
      (find (.strategy s) query chatty none supply).reports =
        ["Found example 1, shrinking", "Shrunk example to 0 after 1 shrinks"] :=
  ⟨Settings.valid_atLevel _, Settings.valid_atLevel _, rfl, rfl, rfl⟩

end FlagSets
