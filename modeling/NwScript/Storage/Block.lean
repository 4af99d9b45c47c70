-- The variables of a block. What is on the stack and what was declared are kept apart: the first
-- says where a variable is from the top of the stack, the second from the bottom of the block.
import NwScript.Storage.Global

namespace NwScript

/-- A variable on the stack. -/
structure Variable where
  name : Name
  ty : Ty
deriving DecidableEq

/-- A declared variable at its distance from the bottom of its block. -/
structure Local where
  ty : Ty
  offset : Nat
deriving DecidableEq

/-- A block while its statements are compiled. -/
structure Block where
  /-- What is on the stack, the topmost first. -/
  values : List Variable := []
  /-- What was declared, the newest first. -/
  locals : List (Name × Local) := []
  /-- Where the next declared variable goes. -/
  cursor : Nat := 0
  /-- The slots that a half-finished expression has pushed. -/
  temps : Int := 0
  breakTo : Option Handle := none
  continueTo : Option Handle := none
deriving DecidableEq

namespace Block

def push (b : Block) (name : Name) (ty : Ty) : Block :=
  { b with values := ⟨name, ty⟩ :: b.values }

/-- The declared variable of a name. A later declaration hides an earlier one. -/
def local? (b : Block) (name : Name) : Option Local := b.locals.lookup name

/-- Declares a variable at the cursor. -/
def declare (b : Block) (env : Env) (name : Name) (ty : Ty) : Except Failure Block := do
  let size ← env.sizeOf ty
  return { b.push name ty with
    locals := (name, ⟨ty, b.cursor⟩) :: b.locals
    cursor := ← Count.sum b.cursor size }

/-- The slots of the block's own variables. -/
def size (b : Block) (env : Env) : Except Failure Nat :=
  env.stacked 0 (b.values.reverse.map (·.ty))

end Block

end NwScript
