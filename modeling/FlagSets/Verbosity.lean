/-!
# Verbosity

How much a run says about its progress. The four levels are ranked, and a rank may be used wherever
a number is wanted.
-/

namespace FlagSets

/-- How much is reported, from nothing to every step. -/
inductive Verbosity
  | quiet
  | normal
  | verbose
  | debug
  deriving DecidableEq, Repr

namespace Verbosity

/-- Every level, in ascending order. -/
def all : List Verbosity := [quiet, normal, verbose, debug]

/-- The number a level counts as. -/
def rank : Verbosity → Nat
  | quiet => 0
  | normal => 1
  | verbose => 2
  | debug => 3

/-- The name of a level. -/
def name : Verbosity → String
  | quiet => "quiet"
  | normal => "normal"
  | verbose => "verbose"
  | debug => "debug"

/-- The level of a given name. -/
def ofName? (s : String) : Option Verbosity := all.find? fun v => v.name == s

/-- A level as messages show it. -/
def shown (v : Verbosity) : String := "Verbosity." ++ v.name

theorem mem_all (v : Verbosity) : v ∈ all := by cases v <;> simp [all]

theorem rank_injective {v w : Verbosity} (h : v.rank = w.rank) : v = w := by
  cases v <;> cases w <;> simp_all [rank]

end Verbosity

end FlagSets
