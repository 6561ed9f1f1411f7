import FlagSets.Proofs.Stages
import FlagSets.Proofs.Validity

/-!
# Searches in a running program

A search is handed the settings in force once, and what it reports is told in the end. In a running
program things are looked up when they are needed: the settings that a search goes by at its start,
and the verbosity anew for each message. In between, the condition and the reporter may do anything
to the state of the program, also put other settings in force.

The search on such a stage does alike as on the one that writes everything down, as far as the
condition can tell. If nobody changes what is in force, then what is heard is the part of the
messages that the verbosity lets through.

## Main results

* `atMost?_of_equal` : what equals a level lets through the levels up to it.
* `Host.find_follows` : a search in a program does what it does where everything is written down.
* `Host.find_follows_aloud` : if nobody changes what is in force, the loud messages are heard.
* `Host.finding_eq_find` : for a condition that remembers nothing this is `find`.
-/

namespace FlagSets

/-! ## The verbosity in force -/

/-- A finite number has a denominator. -/
private theorem Datum.Number.den_pos {x : Number} {num : Int} {den : Nat}
    (h : x.extended = .ratio num den) : 0 < den := by
  cases x with
  | integer n =>
      cases h
      exact Nat.one_pos
  | real x =>
      -- the denominator of a double is one, or a power of two
      cases x with
      | nan => cases h
      | infinite negative => cases negative <;> cases h
      | finite negative m e =>
          by_cases he : 0 ≤ e
          · simp only [extended, Binary64.extended, Binary64.magnitude, if_pos he] at h
            cases h
            exact Nat.one_pos
          · simp only [extended, Binary64.extended, Binary64.magnitude, if_neg he] at h
            cases h
            rw [Nat.one_shiftLeft]
            exact Nat.two_pow_pos _

/-- A positive factor does not change how two integers compare. -/
private theorem compare_mul_right (n m : Int) {den : Int} (h : 0 < den) :
    Ord.compare (n * den) (m * den) = Ord.compare n m := by
  rcases Int.lt_trichotomy n m with hlt | rfl | hgt
  · rw [Int.compare_eq_lt.mpr hlt, Int.compare_eq_lt.mpr (Int.mul_lt_mul_of_pos_right hlt h)]
  · rw [Int.compare_eq_eq.mpr rfl, Int.compare_eq_eq.mpr rfl]
  · rw [Int.compare_eq_gt.mpr hgt, Int.compare_eq_gt.mpr (Int.mul_lt_mul_of_pos_right hgt h)]

/-- What equals an integer is compared with others as that integer is. -/
private theorem Datum.Number.compare_of_equal {x : Number} {m : Int}
    (h : x.compare (.integer m) = some .eq) (n : Int) :
    (integer n).compare x = some (Ord.compare n m) := by
  unfold compare at h ⊢
  cases hx : x.extended with
  | ratio num den =>
      have hden : (0 : Int) < den := Int.natCast_pos.mpr (den_pos hx)
      rw [hx] at h
      simp only [extended, Binary64.Extended.ofInt, Binary64.Extended.compare] at h ⊢
      have hnum : num = m * den := by
        rw [← Int.mul_one num]
        exact Int.compare_eq_eq.mp (Option.some.inj h)
      rw [hnum, Int.natCast_one, Int.mul_one]
      exact congrArg some (compare_mul_right n m hden)
  | _ =>
      rw [hx] at h
      cases h

/-- What equals a level lets through the levels up to it, however it is spelled. -/
theorem atMost?_of_equal {d : Datum} {v : Verbosity} (h : d.equal (.num (.level v)) = true)
    (level : Verbosity) :
    (Datum.num (.level level)).atMost? d = some (decide (level.rank ≤ v.rank)) := by
  have hnumber : ∃ x : Datum.Number, d.number? = some x ∧
      x.compare (.integer v.rank) = some .eq := by
    cases d with
    | bool b => exact ⟨_, rfl, by simpa [Datum.equal, Datum.equal.equalNumber] using h⟩
    | num n => exact ⟨_, rfl, by simpa [Datum.equal, Datum.equal.equalNumber] using h⟩
    | float x => exact ⟨_, rfl, by simpa [Datum.equal, Datum.equal.equalNumber] using h⟩
    | _ => simp [Datum.equal] at h
  obtain ⟨x, hx, heq⟩ := hnumber
  have hcompare := Datum.Number.compare_of_equal heq level.rank
  simp only [Datum.atMost?, Datum.compare?, hx, Option.map_some, Numeral.value_level, hcompare]
  by_cases hle : level.rank ≤ v.rank
  · rcases Nat.lt_or_eq_of_le hle with hlt | heq
    · rw [Int.compare_eq_lt.mpr (by omega), decide_eq_true hle]
      rfl
    · rw [Int.compare_eq_eq.mpr (by omega), decide_eq_true hle]
      rfl
  · rw [Int.compare_eq_gt.mpr (by omega), decide_eq_false hle]
    rfl

/-- At a level, the messages of all levels up to it are loud. -/
theorem isLoud_of_equal {d : Datum} {v : Verbosity} (h : d.equal (.num (.level v)) = true)
    (level : Verbosity) : isLoud d level = decide (level.rank ≤ v.rank) := by
  rw [isLoud, atMost?_of_equal h]
  cases decide (level.rank ≤ v.rank) <;> rfl

/-- Settings with nothing special about them but the verbosity. -/
def Settings.atLevel (v : Verbosity) : Settings :=
  { Settings.plain with verbosity := .num (.level v) }

theorem Settings.valid_atLevel (v : Verbosity) : (atLevel v).Valid := by
  intro s
  cases s with
  | verbosity => exact ⟨v, by simp [Config.get, atLevel]⟩
  | _ => exact valid_plain _

/-! ## Running programs -/

/-- A program in which a search takes place: the session in each of its states, and what its
condition and its reporter do. The reporter always returns. -/
structure Host (ω : Type) where
  session : ω → Session
  holds : Datum → Step ω Bool
  hear : String → ω → ω

/-- A search on its way in a program: the state of the program, the source, the values that the
condition was asked about, and the texts that went to the reporter. -/
structure Scene (ω : Type) where
  world : ω
  source : Source
  asked : List Datum := []
  heard : List String := []

namespace Host

variable {ω : Type}

/-- Sends a message to the reporter if the verbosity in force lets it through. -/
def report (h : Host ω) (level : Verbosity) (text : String) : Step (Scene ω) Unit := do
  let s ← get
  match (Datum.num (.level level)).atMost? (← (h.session s.world).verbosity) with
  | none => throw .mismatch
  | some loud =>
    if loud then set { s with world := h.hear text s.world, heard := s.heard ++ [text] }

/-- The stage that a program is for a search. -/
def stage [Memory] (h : Host ω) : Stage (Scene ω) where
  draw strategy := .of fun s =>
    ((strategy.newTree.run s.source).1, { s with source := (strategy.newTree.run s.source).2 })
  ask value := .of fun s =>
    (((h.holds value).run s.world).1,
      { s with
        world := ((h.holds value).run s.world).2
        asked := s.asked ++ [value] })
  tell := h.report

/-- The settings that a search goes by: those that it is given, or else those in force. -/
def settingsFor (h : Host ω) (given : Option Settings) (w : ω) : Outcome Settings :=
  match given, (h.session w).inForce.value with
  | some c, _ => pure c
  | none, .settings c => pure c
  | none, _ => throw .missing

/-- Searches a strategy for a minimal example of the condition. -/
def find [Memory] (h : Host ω) (strategy : Strategy) (name : String) (given : Option Settings) :
    Step (Scene ω) Datum := do
  let s ← get
  h.stage.search strategy name (← h.settingsFor given s.world)

/-- What a search comes to in a state of the program. -/
def finding [Memory] (h : Host ω) (strategy : Strategy) (name : String) (given : Option Settings)
    (source : Source) (w : ω) : Finding :=
  let (result, s) := (h.find strategy name given).run { world := w, source }
  ⟨result, s.asked, s.heard, some s.source⟩

/-- In every state of the program there are valid settings in force. -/
def Orderly (h : Host ω) : Prop :=
  ∀ w, ∃ c : Settings, (h.session w).inForce.value = .settings c ∧ c.Valid

/-- Neither the condition nor the reporter changes what is in force. -/
structure Steady (h : Host ω) : Prop where
  holds : ∀ value w,
    (h.session ((h.holds value).run w).2).inForce.value = (h.session w).inForce.value
  hear : ∀ text w, (h.session (h.hear text w)).inForce.value = (h.session w).inForce.value

/-- The condition of a program works on a part of its state that the reporter leaves alone, and goes
by nothing else. -/
structure Minds {μ : Type} (h : Host ω) (memory : ω → μ) (condition : Datum → Step μ Bool) :
    Prop where
  answer : ∀ value w, ((h.holds value).run w).1 = ((condition value).run (memory w)).1
  after : ∀ value w,
    memory ((h.holds value).run w).2 = ((condition value).run (memory w)).2
  hear : ∀ text w, memory (h.hear text w) = memory w

/-- The condition of a program gives the answers of a query, and does nothing else. -/
def Pure (h : Host ω) (query : Query) : Prop := ∀ value, h.holds value = query.step value

/-- A query needs no memory. -/
theorem Pure.minds {h : Host ω} {query : Query} (hpure : h.Pure query) :
    h.Minds (fun _ => ()) query.step where
  answer value w := by rw [hpure value, Query.step, Query.step, Step.run_liftM, Step.run_liftM]
  after _ _ := rfl
  hear _ _ := rfl

section Find

variable {μ : Type} {h : Host ω} {memory : ω → μ} {condition : Datum → Step μ Bool}

/-- A search on its way in a program is as far as the log says. -/
structure Follows (memory : ω → μ) (s : Scene ω) (log : Log μ) : Prop where
  memory_eq : memory s.world = log.memory
  source_eq : s.source = log.source
  asked_eq : s.asked = log.asked

/-- A search on its way in a program where the same settings have been in force all along: besides,
the texts that were heard are those that the verbosity in force lets through. -/
structure FollowsAloud (h : Host ω) (memory : ω → μ) (c : Settings) (s : Scene ω) (log : Log μ) :
    Prop extends Follows memory s log where
  inForce_eq : (h.session s.world).inForce.value = .settings c
  heard_eq : s.heard = (log.messages.filter fun m => isLoud c.verbosity m.1).map Prod.snd

/-- A message is told without failing, whoever hears it. -/
theorem run_report {s : Scene ω} {c : Settings}
    (hforce : (h.session s.world).inForce.value = .settings c) (hc : c.Valid) (level : Verbosity)
    (text : String) :
    (h.report level text).run s =
      (.ok (), if isLoud c.verbosity level then
        { s with world := h.hear text s.world, heard := s.heard ++ [text] } else s) := by
  -- a valid verbosity equals a level, and so the comparison with it has an answer
  obtain ⟨v, hv⟩ : ∃ v : Verbosity, c.verbosity.equal (.num (.level v)) = true := hc .verbosity
  have hverbosity : (h.session s.world).verbosity = .ok c.verbosity := by
    rw [Session.verbosity, hforce]
    rfl
  simp only [report, Step.run_bind, Step.run_get, Step.run_liftM, hverbosity, atMost?_of_equal hv,
    isLoud_of_equal hv]
  split <;> rfl

/-- A program is a stage like the one where everything is written down. -/
theorem stage_tracks [Memory] (hminds : h.Minds memory condition) (hord : h.Orderly) :
    Stage.Tracks (Follows memory) h.stage (recorder condition) where
  draw strategy s log hs := by
    have hsource := hs.source_eq
    refine ⟨congrArg (fun source => (strategy.newTree.run source).1) hsource, hs.memory_eq, ?_,
      hs.asked_eq⟩
    exact congrArg (fun source => (strategy.newTree.run source).2) hsource
  ask value s log hs := by
    have hmemory := hs.memory_eq
    refine ⟨?_, ?_, hs.source_eq, congrArg (· ++ [value]) hs.asked_eq⟩
    · exact (hminds.answer value s.world).trans (by rw [hmemory]; rfl)
    · exact (hminds.after value s.world).trans (by rw [hmemory]; rfl)
  tell level text s log hs := by
    obtain ⟨c, hforce, hc⟩ := hord s.world
    have hrun : (h.stage.tell level text).run s = _ := run_report hforce hc level text
    rw [hrun]
    refine ⟨rfl, ?_⟩
    -- whether it is heard or not, the condition cannot tell
    cases isLoud c.verbosity level with
    | true => exact ⟨(hminds.hear text s.world).trans hs.memory_eq, hs.source_eq, hs.asked_eq⟩
    | false => exact ⟨hs.memory_eq, hs.source_eq, hs.asked_eq⟩

/-- If nobody changes what is in force, the messages that are loud are heard on it. -/
theorem stage_tracks_aloud [Memory] (hminds : h.Minds memory condition) (hord : h.Orderly)
    (hsteady : h.Steady) {c : Settings} (hc : c.Valid) :
    Stage.Tracks (FollowsAloud h memory c) h.stage (recorder condition) where
  draw strategy s log hs := by
    obtain ⟨hresult, hfollows⟩ := (stage_tracks hminds hord).draw strategy s log hs.toFollows
    exact ⟨hresult, hfollows, hs.inForce_eq, hs.heard_eq⟩
  ask value s log hs := by
    obtain ⟨hresult, hfollows⟩ := (stage_tracks hminds hord).ask value s log hs.toFollows
    exact ⟨hresult, hfollows, (hsteady.holds value s.world).trans hs.inForce_eq, hs.heard_eq⟩
  tell level text s log hs := by
    obtain ⟨hresult, hfollows⟩ := (stage_tracks hminds hord).tell level text s log hs.toFollows
    refine ⟨hresult, hfollows, ?_, ?_⟩
    all_goals
      have hrun : (h.stage.tell level text).run s = _ := run_report hs.inForce_eq hc level text
      rw [hrun]
    · cases isLoud c.verbosity level with
      | true => exact (hsteady.hear text s.world).trans hs.inForce_eq
      | false => exact hs.inForce_eq
    · rw [run_recorder_tell]
      cases hloud : isLoud c.verbosity level with
      | true => simp [hs.heard_eq, hloud]
      | false => simp [hs.heard_eq, hloud]

variable {given : Option Settings} {settings : Settings} {w : ω}

theorem settingsFor_eq {c : Settings} (hforce : (h.session w).inForce.value = .settings c)
    (given : Option Settings) : h.settingsFor given w = .ok (given.getD c) := by
  unfold settingsFor
  rw [hforce]
  cases given <;> rfl

/-- A search looks up the settings it goes by, and then takes place. -/
private theorem run_find [Memory] (hgoes : h.settingsFor given w = .ok settings)
    (strategy : Strategy) (name : String) (source : Source) :
    (h.find strategy name given).run { world := w, source } =
      (h.stage.search strategy name settings).run { world := w, source } := by
  simp only [find, Step.run_bind, Step.run_get, Step.run_liftM, hgoes]

/-- A search in a program has the result that is written down of it, asks about the same values, and
leaves the same source. -/
theorem find_follows [Memory] (hminds : h.Minds memory condition) (hord : h.Orderly)
    (hgoes : h.settingsFor given w = .ok settings) (strategy : Strategy) (name : String)
    (source : Source) :
    let found := (h.find strategy name given).run { world := w, source }
    let noted := ((recorder condition).search strategy name settings).run
      { memory := memory w, source }
    found.1 = noted.1 ∧ Follows memory found.2 noted.2 := by
  rw [run_find hgoes]
  exact (stage_tracks hminds hord).search strategy name settings _ _ ⟨rfl, rfl, rfl⟩

/-- If nobody changes what is in force, those messages are heard that are written down as loud
enough. -/
theorem find_follows_aloud [Memory] (hminds : h.Minds memory condition) (hord : h.Orderly)
    (hsteady : h.Steady) {c : Settings} (hforce : (h.session w).inForce.value = .settings c)
    (hc : c.Valid) (hgoes : h.settingsFor given w = .ok settings) (strategy : Strategy)
    (name : String) (source : Source) :
    let found := (h.find strategy name given).run { world := w, source }
    let noted := ((recorder condition).search strategy name settings).run
      { memory := memory w, source }
    FollowsAloud h memory c found.2 noted.2 := by
  rw [run_find hgoes]
  exact ((stage_tracks_aloud hminds hord hsteady hc).search strategy name settings _ _
    ⟨⟨rfl, rfl, rfl⟩, hforce, rfl⟩).2

end Find

section Finding

variable [Memory] {h : Host ω} {query : Query} {given : Option Settings} {settings : Settings}
  {w : ω}

/-- What a search comes to in a program whose condition is a query, but for what is heard of it. -/
theorem finding_eq_run (hpure : h.Pure query) (hord : h.Orderly)
    (hgoes : h.settingsFor given w = .ok settings) (strategy : Strategy) (source : Source) :
    let found := h.finding strategy query.name given source w
    let account := Search.run strategy query settings source
    found.result = account.1.result ∧ found.asked = account.1.asked ∧
      found.source = some account.2 := by
  obtain ⟨hresult, hfollows⟩ := find_follows hpure.minds hord hgoes strategy query.name source
  rw [recorder_search] at hresult hfollows
  exact ⟨hresult, hfollows.asked_eq, congrArg some hfollows.source_eq⟩

/-- What is heard of it, if nobody changes what is in force. -/
theorem reports_finding (hpure : h.Pure query) (hord : h.Orderly) (hsteady : h.Steady)
    {c : Settings} (hforce : (h.session w).inForce.value = .settings c) (hc : c.Valid)
    (given : Option Settings) (strategy : Strategy) (source : Source) :
    (h.finding strategy query.name given source w).reports =
      (Search.run strategy query (given.getD c) source).1.reports (isLoud c.verbosity) := by
  have hheard := (find_follows_aloud hpure.minds hord hsteady hforce hc
    (settingsFor_eq hforce given) strategy query.name source).heard_eq
  rw [recorder_search] at hheard
  exact hheard

/-- Where nobody changes what is in force, a search in a program comes to what the search comes to
that is handed the settings in force. -/
theorem finding_eq_find (hpure : h.Pure query) (hord : h.Orderly) (hsteady : h.Steady)
    {c : Settings} (hforce : (h.session w).inForce.value = .settings c) (hc : c.Valid)
    (given : Option Settings) (strategy : Strategy) (source : Source) :
    h.finding strategy query.name given source w =
      FlagSets.find (.strategy strategy) query c given (.source source) := by
  obtain ⟨hresult, hasked, hsource⟩ :=
    finding_eq_run hpure hord (settingsFor_eq hforce given) strategy source
  have hreports := reports_finding hpure hord hsteady hforce hc given strategy source
  generalize h.finding strategy query.name given source w = found at *
  obtain ⟨result, asked, reports, left⟩ := found
  obtain rfl := hresult
  obtain rfl := hasked
  obtain rfl := hreports
  obtain rfl := hsource
  rfl

end Finding

/-! ## A program that searches at any level -/

/-- A program with nothing special about its settings but the verbosity, and a reporter that counts
what it hears. -/
def counting (query : Query) : Host (Verbosity × Nat) where
  session w := { Session.initial with inForce := .ofInitial (.settings (Settings.atLevel w.1)) }
  holds := query.step
  hear _ w := (w.1, w.2 + 1)

theorem pure_counting (query : Query) : (counting query).Pure query := fun _ => rfl

theorem orderly_counting (query : Query) : (counting query).Orderly :=
  fun w => ⟨Settings.atLevel w.1, rfl, Settings.valid_atLevel w.1⟩

theorem steady_counting (query : Query) : (counting query).Steady where
  holds _ _ := rfl
  hear _ _ := rfl

end Host

end FlagSets
