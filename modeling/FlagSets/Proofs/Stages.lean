import FlagSets.Search

/-!
# Searches on a stage

`Search.run` accounts for a search in the end: what was asked, and what would be said at which
level. Here the same search is a program that does these things one after another on a stage, and
the stage decides what asking and telling do to its state. On a stage that only writes everything
down, the search comes to its account.

A search is a program in a few effects, so that two stages are compared effect by effect. If each
effect of one stage does what the same effect of the other one does, as far as some relation between
their states tells, then so does the whole search.

## Main results

* `Step.Tracks.bind` : steps that do alike can be put one after another.
* `Stage.Tracks.search` : on stages that do alike, searches do alike.
* `recorder_search` : on a stage that writes everything down, a search comes to its account.
-/

namespace FlagSets

/-! ## Steps that do alike -/

namespace Step

variable {σ τ α β : Type}

/-- A step from the function that it is. -/
def of (f : σ → Outcome α × σ) : Step σ α := f

/-- Steps on different states that do alike, as far as a relation between states tells: they have
the same outcome, and related states after related ones. -/
def Tracks (R : σ → τ → Prop) (d : Step σ α) (e : Step τ α) : Prop :=
  ∀ s t, R s t → (d.run s).1 = (e.run t).1 ∧ R (d.run s).2 (e.run t).2

namespace Tracks

variable {R : σ → τ → Prop}

theorem of_liftM (o : Outcome α) : Tracks R (liftM o) (liftM o) := by
  intro s t h
  rw [run_liftM, run_liftM]
  exact ⟨rfl, h⟩

theorem of_pure (a : α) : Tracks R (pure a) (pure a) := fun _ _ h => ⟨rfl, h⟩

theorem of_throw (fault : Fault) : Tracks R (throw fault : Step σ α) (throw fault) :=
  fun _ _ h => ⟨rfl, h⟩

theorem bind {d : Step σ α} {e : Step τ α} {f : α → Step σ β} {g : α → Step τ β}
    (h : Tracks R d e) (hnext : ∀ a, Tracks R (f a) (g a)) : Tracks R (d >>= f) (e >>= g) := by
  intro s t hst
  obtain ⟨hresult, hrel⟩ := h s t hst
  rw [run_bind, run_bind]
  rcases hd : d.run s with ⟨fault | a, s'⟩ <;> rcases he : e.run t with ⟨fault' | a', t'⟩ <;>
    rw [hd, he] at hresult hrel <;> cases hresult
  · exact ⟨rfl, hrel⟩
  · exact hnext a s' t' hrel

end Tracks

end Step

/-! ## The search as a program -/

/-- A step of a tree gives its answer together with the tree after it. -/
def ValueTree.after {α : Type} (tree : ValueTree) (d : TreeStep α) : Outcome (α × ValueTree) :=
  (d.run tree).1.map fun a => (a, (d.run tree).2)

/-- Where a search takes place: how trees are drawn there, how the condition is asked about a value,
and what becomes of a message. -/
structure Stage (σ : Type) where
  draw : Strategy → Step σ ValueTree
  ask : Datum → Step σ Bool
  tell : Verbosity → String → Step σ Unit

namespace Stage

variable {σ τ : Type}

/-- Draws trees until one holds a value that satisfies the condition, at most the given number of
times. -/
def generate [Memory] (stage : Stage σ) (strategy : Strategy) (name : String) :
    Nat → Step σ ValueTree
  | 0 => throw (.noExample (.text name) (.text ""))
  | attempts + 1 => do
    let tree ← stage.draw strategy
    let value ← tree.current
    if ← stage.ask value then return tree else generate stage strategy name attempts

/-- Shrinks a tree as far as the condition allows, keeping at most `limit` shrinks, of which `kept`
are kept already. -/
def shrink [Memory] (stage : Stage σ) (limit : Int) :
    Nat → Nat → ValueTree → Step σ (ValueTree × Nat)
  | 0, kept, tree => return (tree, kept)
  | steps + 1, kept, tree =>
    if limit ≤ kept then return (tree, kept)
    else do
      let (changed, tree) ← tree.after ValueTree.simplify
      if changed then
        let value ← tree.current
        if ← stage.ask value then
          stage.tell .debug (Search.shrunkTo value)
          shrink stage limit steps (kept + 1) tree
        else
          let (_, tree) ← tree.after ValueTree.complicate
          shrink stage limit steps kept tree
      else return (tree, kept)

/-- Shrinks the first example found to the end. -/
def minimise [Memory] (stage : Stage σ) (limit : Int) (tree : ValueTree) : Step σ Datum := do
  let first ← tree.current
  stage.tell .verbose ("Found example " ++ first.wording ++ ", shrinking")
  let (last, kept) ← stage.shrink limit (tree.measure + 1) 0 tree
  let value ← last.current
  stage.tell .verbose (Search.shrunkTo value ++ " after " ++ toString kept ++ " shrinks")
  return value

/-- Searches a strategy for a minimal example of a condition. -/
def search [Memory] (stage : Stage σ) (strategy : Strategy) (name : String)
    (settings : Settings) : Step σ Datum := do
  let tree ← stage.generate strategy name (Search.budget settings.maxExamples).toNat
  stage.minimise (Search.budget settings.maxShrinks) tree

/-- Stages on which every effect does alike, as far as a relation between their states tells. -/
structure Tracks (R : σ → τ → Prop) (first : Stage σ) (second : Stage τ) : Prop where
  draw : ∀ strategy, Step.Tracks R (first.draw strategy) (second.draw strategy)
  ask : ∀ value, Step.Tracks R (first.ask value) (second.ask value)
  tell : ∀ level text, Step.Tracks R (first.tell level text) (second.tell level text)

namespace Tracks

variable {R : σ → τ → Prop} {first : Stage σ} {second : Stage τ}

theorem generate [Memory] (h : Tracks R first second) (strategy : Strategy) (name : String)
    (attempts : Nat) :
    Step.Tracks R (first.generate strategy name attempts)
      (second.generate strategy name attempts) := by
  induction attempts with
  | zero => exact .of_throw _
  | succ attempts ih =>
      refine (h.draw strategy).bind fun tree => ?_
      refine (Step.Tracks.of_liftM tree.current).bind fun value => ?_
      refine (h.ask value).bind fun holds => ?_
      cases holds with
      | true => exact .of_pure tree
      | false => exact ih

theorem shrink [Memory] (h : Tracks R first second) (limit : Int) (steps kept : Nat)
    (tree : ValueTree) :
    Step.Tracks R (first.shrink limit steps kept tree) (second.shrink limit steps kept tree) := by
  induction steps generalizing kept tree with
  | zero => exact .of_pure _
  | succ steps ih =>
      unfold Stage.shrink
      split
      · exact .of_pure _
      refine (Step.Tracks.of_liftM (tree.after ValueTree.simplify)).bind fun (changed, tree) => ?_
      cases changed with
      | false => exact .of_pure _
      | true =>
          refine (Step.Tracks.of_liftM tree.current).bind fun value => ?_
          refine (h.ask value).bind fun holds => ?_
          cases holds with
          | true => exact (h.tell .debug _).bind fun _ => ih (kept + 1) tree
          | false =>
              refine (Step.Tracks.of_liftM (tree.after ValueTree.complicate)).bind ?_
              exact fun (_, tree) => ih kept tree

theorem minimise [Memory] (h : Tracks R first second) (limit : Int) (tree : ValueTree) :
    Step.Tracks R (first.minimise limit tree) (second.minimise limit tree) := by
  refine (Step.Tracks.of_liftM tree.current).bind fun value => ?_
  refine (h.tell .verbose _).bind fun _ => ?_
  refine (h.shrink limit _ 0 tree).bind fun (last, kept) => ?_
  refine (Step.Tracks.of_liftM last.current).bind fun value => ?_
  exact (h.tell .verbose _).bind fun _ => .of_pure value

/-- On stages that do alike, searches do alike. -/
theorem search [Memory] (h : Tracks R first second) (strategy : Strategy) (name : String)
    (settings : Settings) :
    Step.Tracks R (first.search strategy name settings)
      (second.search strategy name settings) :=
  (h.generate strategy name _).bind fun tree => h.minimise _ tree

end Tracks

end Stage

/-! ## A stage that writes everything down -/

/-- What is written down of a search, and what the condition remembers. -/
structure Log (μ : Type) where
  memory : μ
  source : Source
  asked : List Datum := []
  messages : List (Verbosity × String) := []

namespace Log

variable {μ α : Type}

/-- The log after a part of a search with an account, and the source that it left. -/
def extend (log : Log μ) (a : Account α) (left : Source) : Log μ where
  memory := log.memory
  source := left
  asked := log.asked ++ a.asked
  messages := log.messages ++ a.messages

end Log

section Recorder

variable {μ : Type}

/-- A condition that remembers nothing. -/
def Query.step (query : Query) (value : Datum) : Step μ Bool := liftM (query.holds value)

variable [Memory]

/-- The stage where a condition is asked that may remember things, and everything is written down:
what was asked, and every message with its level. -/
def recorder (condition : Datum → Step μ Bool) : Stage (Log μ) where
  draw strategy := .of fun log =>
    ((strategy.newTree.run log.source).1,
      { log with source := (strategy.newTree.run log.source).2 })
  ask value := .of fun log =>
    (((condition value).run log.memory).1,
      { log with
        memory := ((condition value).run log.memory).2
        asked := log.asked ++ [value] })
  tell level text := .of fun log =>
    (.ok (), { log with messages := log.messages ++ [(level, text)] })

@[simp] theorem run_recorder_draw (condition : Datum → Step μ Bool) (strategy : Strategy)
    (log : Log μ) :
    ((recorder condition).draw strategy).run log =
      ((strategy.newTree.run log.source).1,
        { log with source := (strategy.newTree.run log.source).2 }) := rfl

@[simp] theorem run_recorder_ask (condition : Datum → Step μ Bool) (value : Datum) (log : Log μ) :
    ((recorder condition).ask value).run log =
      (((condition value).run log.memory).1,
        { log with
          memory := ((condition value).run log.memory).2
          asked := log.asked ++ [value] }) := rfl

@[simp] theorem run_recorder_tell (condition : Datum → Step μ Bool) (level : Verbosity)
    (text : String) (log : Log μ) :
    ((recorder condition).tell level text).run log =
      (.ok (), { log with messages := log.messages ++ [(level, text)] }) := rfl

variable (query : Query)

/-- Drawing on the stage comes to the account of drawing. -/
private theorem recorder_generate (strategy : Strategy) (attempts : Nat) (log : Log μ) :
    let drawn := Search.generate strategy query attempts log.source
    ((recorder query.step).generate strategy query.name attempts).run log =
      (drawn.1.result, log.extend drawn.1 drawn.2) := by
  induction attempts generalizing log with
  | zero => simp [Stage.generate, Search.generate, Log.extend]
  | succ attempts ih =>
      unfold Stage.generate Search.generate
      rcases hrun : strategy.newTree.run log.source with ⟨fault | tree, left⟩
      · simp [Step.run_bind, hrun, Log.extend]
      cases hcurrent : tree.current with
      | error fault => simp [Step.run_bind, hrun, hcurrent, Log.extend]
      | ok value =>
          cases hholds : query.holds value with
          | error fault => simp [Step.run_bind, hrun, hcurrent, hholds, Query.step, Log.extend]
          | ok holds =>
              cases holds with
              | true => simp [Step.run_bind, hrun, hcurrent, hholds, Query.step, Log.extend]
              | false =>
                  simpa [Step.run_bind, hrun, hcurrent, hholds, Query.step, Log.extend,
                    Account.after]
                    using ih { log with source := left, asked := log.asked ++ [value] }

/-- Shrinking on the stage comes to the account of shrinking. -/
private theorem recorder_shrink (limit : Int) (steps kept : Nat) (tree : ValueTree) (log : Log μ) :
    let shrunk := Search.shrink query limit steps kept tree
    ((recorder query.step).shrink limit steps kept tree).run log =
      (shrunk.result, log.extend shrunk log.source) := by
  induction steps generalizing kept tree log with
  | zero => simp [Stage.shrink, Search.shrink, Log.extend]
  | succ steps ih =>
      unfold Stage.shrink Search.shrink ValueTree.after
      by_cases hlimit : limit ≤ kept
      · simp [hlimit, Log.extend]
      rcases ValueTree.simplify.run tree with ⟨fault | changed, next⟩
      · simp [hlimit, Step.run_bind, Except.map, Log.extend]
      cases changed with
      | false => simp [hlimit, Step.run_bind, Except.map, Log.extend]
      | true =>
          cases hcurrent : next.current with
          | error fault => simp [hlimit, hcurrent, Step.run_bind, Except.map, Log.extend]
          | ok value =>
              cases hholds : query.holds value with
              | error fault =>
                  simp [hlimit, hcurrent, hholds, Query.step, Step.run_bind, Except.map, Log.extend]
              | ok holds =>
                  cases holds with
                  | true =>
                      simp [hlimit, hcurrent, hholds, Query.step, Step.run_bind, Except.map, ih,
                        Log.extend, Account.after]
                  | false =>
                      rcases hback : ValueTree.complicate.run next with ⟨fault | _, last⟩
                      · simp [hlimit, hcurrent, hholds, hback, Query.step, Step.run_bind,
                          Except.map, Log.extend]
                      · simp [hlimit, hcurrent, hholds, hback, Query.step, Step.run_bind,
                          Except.map, ih, Log.extend, Account.after]

/-- Shrinking with its messages comes to its account on the stage. -/
private theorem recorder_minimise (limit : Int) (tree : ValueTree) (log : Log μ) :
    let shrunk := Search.minimise query limit tree
    ((recorder query.step).minimise limit tree).run log =
      (shrunk.result, log.extend shrunk log.source) := by
  unfold Stage.minimise Search.minimise
  cases hfirst : tree.current with
  | error fault => simp [Step.run_bind, Log.extend]
  | ok first =>
      have hshrink := recorder_shrink (μ := μ) query limit (tree.measure + 1) 0 tree
      generalize Search.shrink query limit (tree.measure + 1) 0 tree = shrunk at hshrink ⊢
      obtain ⟨fault | ⟨last, kept⟩, asked, messages⟩ := shrunk
      · simp [Step.run_bind, hshrink, Log.extend, Account.andThen, Account.after]
      · cases hlast : last.current with
        | error fault =>
            simp [Step.run_bind, hshrink, hlast, Log.extend, Account.andThen, Account.after]
        | ok value =>
            simp [Step.run_bind, hshrink, hlast, Log.extend, Account.andThen, Account.after,
              Except.map]

/-- On a stage that writes everything down, a search for a condition that remembers nothing comes to
its account. -/
theorem recorder_search (strategy : Strategy) (settings : Settings) (memory : μ)
    (source : Source) :
    let account := Search.run strategy query settings source
    ((recorder query.step).search strategy query.name settings).run { memory, source } =
      (account.1.result, ⟨memory, account.2, account.1.asked, account.1.messages⟩) := by
  unfold Stage.search Search.run
  rw [Step.run_bind, recorder_generate]
  rcases Search.generate strategy query _ source with ⟨⟨fault | tree, asked, messages⟩, left⟩
  · simp [Log.extend, Account.andThen]
  · simp [recorder_minimise, Log.extend, Account.andThen, Account.after]

end Recorder

end FlagSets
