-- Code for function bodies.
import NwScript.Codegen.Stmt

namespace NwScript

namespace Codegen

/-- The parameters are the lowest variables of a body; the caller pushed them. -/
def parameters (env : Env) : List Param → Gen Unit
  | [] => return
  | p :: rest => do
    let b := (← scope).block
    if (b.local? p.name).isSome then mistake (.redeclaration p.name)
    setBlock (← lift (b.declare env p.name p.ty))
    parameters env rest

/-- The body of a function, which ends with its one return instruction. -/
def body (env : Env) (s : Signature) (stmts : List Stmt) : Gen Unit := do
  let retn ← detached .retn
  parameters env s.params
  let _ ← block env ⟨s.name, s.returnType, retn.handle⟩ stmts
  place retn

end Codegen

end NwScript
