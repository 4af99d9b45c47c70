-- Names as they stand in a script. Two names are the same if they are spelled the same, and they
-- are listed in the order of their code points.

namespace NwScript

/-- The name of a variable, member, struct, function or constant. -/
abbrev Name := String

namespace Name

/-- Names in rising order, repetitions kept. -/
def sorted (names : List Name) : List Name := names.mergeSort fun a b => a ≤ b

/-- Names in a row, as messages list them. -/
def listed (names : List Name) : String := ", ".intercalate names

end Name

end NwScript
