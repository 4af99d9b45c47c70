-- What the game offers to scripts: routines, called by their position, and named constants.
import NwScript.Script.Item

namespace NwScript

/-- A named constant. Its type need not be the type of its value. -/
structure EngineConstant where
  ty : Ty
  name : Name
  value : Value

/-- The routines and constants of one game. -/
structure Engine where
  routines : List Signature := []
  constants : List EngineConstant := []

namespace Engine

/-- The last element that a test accepts, with its position. -/
def lastWith {α : Type} (test : α → Bool) (xs : List α) : Option (Nat × α) :=
  (xs.zipIdx.reverse.find? (test ·.1)).map fun (x, i) => (i, x)

/-- The routine of a name with the index that calls it. Of several the last one counts. -/
def routine? (engine : Engine) (name : Name) : Option (Nat × Signature) :=
  lastWith (·.name == name) engine.routines

/-- The constant of a name. Of several the last one counts. -/
def constant? (engine : Engine) (name : Name) : Option EngineConstant :=
  (lastWith (·.name == name) engine.constants).map (·.2)

end Engine

end NwScript
