-- The types of a script and the stack slots that their values occupy.
import NwScript.Machine.Slot
import NwScript.Script.Name

namespace NwScript

/-- The type of a script value. A struct is only named here; its layout is kept apart. -/
inductive Ty where
  | int
  | float
  | string
  /-- A handle to a thing of the game. -/
  | object
  /-- Three floats in a row. -/
  | vector
  | void
  | event
  | talent
  | location
  | effect
  /-- A command that an engine routine runs later. It occupies no slot. -/
  | action
  | struct (name : Name)
deriving DecidableEq

namespace Ty

/-- The slots of a value of a built-in type, lowest first. -/
def builtinSlots : Ty → Option (List SlotKind)
  | .int => some [.int]
  | .float => some [.float]
  | .string => some [.string]
  | .object => some [.object]
  | .vector => some [.float, .float, .float]
  | .void | .action => some []
  | .event => some [.event]
  | .talent => some [.talent]
  | .location => some [.location]
  | .effect => some [.effect]
  | .struct _ => none

/-- How many slots a built-in type takes. -/
def builtinSize (ty : Ty) : Option Nat := ty.builtinSlots.map List.length

/-- Whether a variable, a member or a parameter of a script function can have this type. -/
def storable : Ty → Bool
  | .void | .action => false
  | _ => true

/-- Whether values of this type have members. -/
def composite : Ty → Bool
  | .vector | .struct _ => true
  | _ => false

def structName? : Ty → Option Name
  | .struct name => some name
  | _ => none

/-- The word for the type in a script; a struct goes by its own name. -/
def keyword : Ty → String
  | .int => "int"
  | .float => "float"
  | .string => "string"
  | .object => "object"
  | .vector => "vector"
  | .void => "void"
  | .event => "event"
  | .talent => "talent"
  | .location => "location"
  | .effect => "effect"
  | .action => "action"
  | .struct name => name

/-- The type as messages write it. -/
def text : Ty → String
  | .struct name => s!"struct {name}"
  | ty => ty.keyword

/-- The types that have a word of their own. -/
def builtin : List Ty :=
  [.int, .float, .string, .object, .vector, .void, .event, .talent, .location, .effect, .action]

/-- The built-in type that a word stands for. -/
def ofKeyword? (s : String) : Option Ty := builtin.find? (·.keyword == s)

end Ty

end NwScript
