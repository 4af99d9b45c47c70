-- The slots of the machine's stack.

namespace NwScript

/-- What one slot of the stack holds. -/
inductive SlotKind where
  | int
  | float
  | string
  | object
  | effect
  | event
  | location
  | talent
deriving DecidableEq

namespace SlotKind

def all : List SlotKind := [.int, .float, .string, .object, .effect, .event, .location, .talent]

/-- The letters that stand for the kind at the end of a mnemonic. -/
def letters : SlotKind → String
  | .int => "I"
  | .float => "F"
  | .string => "S"
  | .object => "O"
  | .effect => "EFF"
  | .event => "EVT"
  | .location => "LOC"
  | .talent => "TAL"

end SlotKind

end NwScript
