import FlagSets.Fault

/-!
# Reports

What is said about a run, and who hears it. A text may be given as it is, or as something that is
only built once it is wanted. A reporter passes it on, prints it, or keeps quiet; building happens
in each case. What is too long to be written out cannot be printed.

## Main results

* `built_deliver` : whoever hears a report, its text is built.
-/

namespace FlagSets

/-- What a report says: a text, or a text that is built when it is wanted. -/
inductive Message
  | given (d : Datum)
  | deferred (s : String)

/-- Who hears reports. -/
inductive Reporter
  /-- Nobody. -/
  | silent
  /-- The standard output, one line each. -/
  | console
  /-- A listener of the given name, who takes the text as it is. -/
  | listener (name : String)
  deriving DecidableEq, Repr

/-- What has been reported so far: the texts that were built, those that each listener heard, and
what was printed. -/
structure Journal where
  built : List String := []
  heard : List (String × Datum) := []
  printed : String := ""

namespace Message

/-- The text of a message. -/
def text : Message → Datum
  | given d => d
  | deferred s => .text s

/-- The texts that are built to say a message. -/
def building : Message → List String
  | given _ => []
  | deferred s => [s]

end Message

namespace Journal

/-- The journal after a text was wanted. -/
def build (j : Journal) (m : Message) : Journal := { j with built := j.built ++ m.building }

/-- The journal after a message went to a reporter. -/
def deliver (j : Journal) (r : Reporter) (m : Message) : Outcome Journal :=
  let j := j.build m
  match r with
  | .silent => pure j
  | .console =>
    match m.text.display with
    | some line => pure { j with printed := j.printed ++ line ++ "\n" }
    | none => throw .tooLong
  | .listener name => pure { j with heard := j.heard ++ [(name, m.text)] }

/-- Whoever hears a report, its text is built. -/
theorem built_deliver {j k : Journal} {r : Reporter} {m : Message} (h : j.deliver r m = .ok k) :
    k.built = j.built ++ m.building := by
  cases r with
  | silent | listener name =>
      cases h
      rfl
  | console =>
      dsimp only [deliver] at h
      cases hline : m.text.display with
      | none =>
          rw [hline] at h
          cases h
      | some line =>
          rw [hline] at h
          cases h
          rfl

end Journal

end FlagSets
