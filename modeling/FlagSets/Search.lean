import FlagSets.Session
import FlagSets.Strategy.Generate

/-!
# Searching for a minimal example

Value trees are drawn until one holds a value that satisfies the condition; that tree is shrunk as
far as the condition allows. How long each part goes on is up to the settings given to the search,
and what is reported about it to the verbosity in force.

The search keeps account of itself: every value that the condition was asked about, and every
message with the verbosity from which on it is sent, in order. Messages have the wording of the
values they are about. The integers in these are never too long to be written out, as long as the
kind is one that comes with the library.

## Main results

* `messages_report` : at the highest verbosity every message is sent.
-/

namespace FlagSets

open Outcome

/-- A condition as the search sees it: what messages call it, and whether it holds of a value. -/
structure Query where
  name : String
  holds : Datum → Outcome Bool

/-- The account of a part of a search: its result, the values the condition was asked about, and
the messages on the way. -/
structure Account (α : Type) where
  result : Outcome α
  asked : List Datum := []
  messages : List (Verbosity × String) := []

namespace Account

variable {α β : Type}

/-- The account of a part that began by asking about a value and sending messages. -/
def after (asked : List Datum) (messages : List (Verbosity × String)) (a : Account α) :
    Account α :=
  { a with asked := asked ++ a.asked, messages := messages ++ a.messages }

/-- The account of one part followed by another that depends on its result. -/
def andThen (a : Account α) (next : α → Account β) : Account β :=
  match a.result with
  | .error fault => ⟨.error fault, a.asked, a.messages⟩
  | .ok x => (next x).after a.asked a.messages

/-- The texts sent at a verbosity. -/
def reports (a : Account α) (loud : Verbosity → Bool) : List String :=
  (a.messages.filter fun m => loud m.1).map Prod.snd

end Account

namespace Search

/-- Draws trees until one holds a value that satisfies the condition, at most the given number of
times. -/
def generate [Memory] (strategy : Strategy) (query : Query) :
    Nat → Source → Account ValueTree × Source
  | 0, source => (⟨.error (.noExample (.text query.name) (.text "")), [], []⟩, source)
  | attempts + 1, source =>
    match strategy.newTree.run source with
    | (.error fault, left) => (⟨.error fault, [], []⟩, left)
    | (.ok tree, left) =>
      match tree.current with
      | .error fault => (⟨.error fault, [], []⟩, left)
      | .ok value =>
        match query.holds value with
        | .error fault => (⟨.error fault, [value], []⟩, left)
        | .ok true => (⟨.ok tree, [value], []⟩, left)
        | .ok false =>
          let (rest, left) := generate strategy query attempts left
          (rest.after [value] [], left)

/-- The text of the message that a value was shrunk to. -/
def shrunkTo (value : Datum) : String := "Shrunk example to " ++ value.wording

/-- Shrinks a tree as far as the condition allows, keeping at most `limit` shrinks, of which `kept`
are kept already. Gives the tree and how many shrinks were kept. -/
def shrink [Memory] (query : Query) (limit : Int) :
    Nat → Nat → ValueTree → Account (ValueTree × Nat)
  | 0, kept, tree => ⟨.ok (tree, kept), [], []⟩
  | steps + 1, kept, tree =>
    if limit ≤ kept then ⟨.ok (tree, kept), [], []⟩
    else
      match ValueTree.simplify.run tree with
      | (.error fault, _) => ⟨.error fault, [], []⟩
      | (.ok false, tree) => ⟨.ok (tree, kept), [], []⟩
      | (.ok true, tree) =>
        match tree.current with
        | .error fault => ⟨.error fault, [], []⟩
        | .ok value =>
          match query.holds value with
          | .error fault => ⟨.error fault, [value], []⟩
          | .ok true =>
            (shrink query limit steps (kept + 1) tree).after [value] [(.debug, shrunkTo value)]
          | .ok false =>
            match ValueTree.complicate.run tree with
            | (.error fault, _) => ⟨.error fault, [value], []⟩
            | (.ok _, tree) => (shrink query limit steps kept tree).after [value] []

/-- Shrinks the first example found to the end, with the messages before and after. -/
def minimise [Memory] (query : Query) (limit : Int) (tree : ValueTree) : Account Datum :=
  match tree.current with
  | .error fault => ⟨.error fault, [], []⟩
  | .ok first =>
    let found := [(Verbosity.verbose, "Found example " ++ first.wording ++ ", shrinking")]
    ((shrink query limit (tree.measure + 1) 0 tree).andThen fun (tree, kept) =>
      match tree.current with
      | .error fault => ⟨.error fault, [], []⟩
      | .ok value =>
        ⟨.ok value, [], [(.verbose, shrunkTo value ++ " after " ++ toString kept ++ " shrinks")]⟩)
      |>.after [] found

/-- The number that a setting holds. -/
def budget (d : Datum) : Int := d.integer?.getD 0

/-- Searches a strategy for a minimal example, drawing from a source. -/
def run [Memory] (strategy : Strategy) (query : Query) (settings : Settings) (source : Source) :
    Account Datum × Source :=
  let (found, left) := generate strategy query (budget settings.maxExamples).toNat source
  (found.andThen (minimise query (budget settings.maxShrinks)), left)

end Search

/-- What a caller hands over where a strategy is wanted. -/
inductive Specifier
  | strategy (s : Strategy)
  | other (d : Datum)

/-- What a search came to: its result, the values the condition was asked about, the texts that were
reported, and the source it left if it had one. -/
structure Finding where
  result : Outcome Datum
  asked : List Datum
  reports : List String
  source : Option Source

/-- Whether a message of a level is sent at a verbosity. -/
def isLoud (verbosity : Datum) (level : Verbosity) : Bool :=
  (Datum.num (.level level)).atMost? verbosity == some true

/-- Finds a minimal example. The settings in force stand in for settings that are not given, and
decide what is reported. Without a source, a fixed one is used when the settings ask for it. -/
def find [Memory] (specifier : Specifier) (query : Query) (inForce : Settings)
    (given : Option Settings) (supply : Source.Supply) : Finding :=
  let settings := given.getD inForce
  match specifier with
  | .other d => ⟨refuse (.notStrategy d), [], [], supply.source?⟩
  | .strategy strategy =>
    match supply.wrap with
    | .error fault => ⟨.error fault, [], [], none⟩
    | .ok source =>
      let (account, left) := Search.run strategy query settings source
      ⟨account.result, account.asked, account.reports (isLoud inForce.verbosity), some left⟩

/-! ## Laws -/

/-- At the highest verbosity every message is sent. -/
theorem messages_report {α : Type} (a : Account α) (loud : Verbosity → Bool)
    (h : ∀ v, loud v = true) : a.reports loud = a.messages.map Prod.snd := by
  rw [Account.reports, List.filter_eq_self.mpr fun m _ => h m.1]

end FlagSets
