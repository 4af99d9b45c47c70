-- Handles: how instructions are referred to while their places still change.

namespace NwScript

/-- An instruction is known by a number that it keeps for as long as it exists. -/
abbrev Handle := Nat

/-- How many handles there are. They are counted in 32 bits. -/
def Handle.limit : Nat := 0xFFFFFFFF

/-- A handle as messages write it. -/
def Handle.text (h : Handle) : String := s!"#{h}"

end NwScript
