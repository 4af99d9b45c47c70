-- The globals, and what else a function body is compiled against.
import NwScript.Function.Table
import NwScript.Host.Engine
import NwScript.Storage.Layout

namespace NwScript

structure Global where
  name : Name
  ty : Ty
  const : Bool

/-- What a function body is compiled against. -/
structure Env where
  engine : Engine := {}
  structs : Structs := {}
  functions : Functions := {}
  /-- In the order of their declaration. -/
  globals : List Global := []
  /-- Whether the globals are complete. From then on they are found from their own base. -/
  sealed : Bool := false

/-- Where a variable is, seen from the top of the stack. -/
structure Resolved where
  ty : Ty
  /-- Counted from the anchor down. -/
  offset : Int
  anchor : Anchor
  const : Bool
deriving DecidableEq

namespace Env

/-- The default values that calls can fall back on. -/
def defaultValues (env : Env) : List Expr :=
  (env.engine.routines ++ env.functions.all.map (·.signature)).flatMap fun s =>
    s.params.filterMap (·.default)

def sizeOf (env : Env) (ty : Ty) : Except Failure Nat := env.structs.sizeOf ty

/-- The slots of some types on top of others. -/
def stacked (env : Env) : Nat → List Ty → Except Failure Nat
  | height, [] => .ok height
  | height, ty :: rest => do env.stacked (← Count.sum height (← env.sizeOf ty)) rest

/-- How far down some types reach below others. -/
def hung (env : Env) : Int → List Ty → Except Failure Int
  | depth, [] => .ok depth
  | depth, ty :: rest => do env.hung (← Count.checked (depth - (← env.sizeOf ty))) rest

/-- How far the globals reach down from their base. -/
def globalSize (env : Env) : Except Failure Int := env.hung 0 (env.globals.map (·.ty))

/-- Looks for a global, newest first. `above` is the offset of the top of the globals from the top
of the stack, and `below` that of the next global from the top of the globals. -/
def seekGlobal (env : Env) (name : Name) (above : Int) :
    List Global → Int → Except Failure Resolved
  | [], _ => .error (.semantic (.undefinedIdentifier name (env.globals.map (·.name))))
  | g :: older, below => do
    let below ← Count.checked (below - (← env.sizeOf g.ty))
    if g.name = name then
      if env.sealed then return ⟨g.ty, below, .bp, g.const⟩
      else return ⟨g.ty, ← Count.checked (above + below), .sp, g.const⟩
    else env.seekGlobal name above older below

/-- Where a global is, for a stack that holds `-offset` slots above the globals. -/
def resolveGlobal (env : Env) (name : Name) (offset : Int) : Except Failure Resolved :=
  env.seekGlobal name offset env.globals.reverse 0

end Env

end NwScript
