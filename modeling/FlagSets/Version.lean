/-!
# Version

Which version of the library this is.
-/

namespace FlagSets.Version

/-- The parts of the version number, the most significant first. -/
def parts : List Nat := [0, 3, 0]

/-- The version number as one text. -/
def text : String := ".".intercalate (parts.map toString)

end FlagSets.Version
