-- Finding variables and their members.
import NwScript.Codegen.Step

namespace NwScript

namespace Resolved

/-- Pushes the variable. -/
def load (r : Resolved) (size : Int) : Op := .copyTop r.anchor r.offset size

/-- Stores the topmost slots in the variable. -/
def store (r : Resolved) (size : Int) : Op := .copyDown r.anchor r.offset size

end Resolved

namespace Codegen

/-- The members of a vector. -/
def axes : List Name := ["x", "y", "z"]

/-- Goes down a chain of members of a variable. -/
def follow (env : Env) (path : Access) : Resolved → List Name → Except Failure Resolved
  | r, [] => .ok r
  | r, m :: rest =>
    match r.ty with
    | .vector => match axes.idxOf? m with
      | some i => do
        let offset ← Count.checked (r.offset + i)
        follow env path { r with ty := .float, offset } rest
      | none => .error (.semantic (.unknownMember "vector" m axes))
    | .struct name => do
      let offset ← Count.checked (r.offset + (← env.structs.memberOffset name m))
      let ty ← env.structs.memberType name m
      follow env path { r with ty, offset } rest
    | ty => .error (.semantic (.notComposite path ty))

/-- Where a variable or a member of it is. -/
def resolveAccess (env : Env) (s : Scope) (path : Access) : Except Failure Resolved := do
  follow env path (← s.resolve env path.head) path.members

def locate (env : Env) (path : Access) : Gen Resolved := do
  lift (resolveAccess env (← scope) path)

/-- Where a variable is that is about to be changed. -/
def locateMutable (env : Env) (path : Access) : Gen Resolved := do
  let r ← locate env path
  if r.const then mistake (.constAssignment path)
  return r

end Codegen

end NwScript
