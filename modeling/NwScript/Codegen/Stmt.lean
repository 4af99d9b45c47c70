-- Code for statements and blocks. A block pops its own variables at its end.
import NwScript.Codegen.Switch

namespace NwScript

namespace Codegen

/-- Whether control can reach what follows a statement. -/
inductive Flow where
  | next
  | returned
deriving DecidableEq

mutual

/-- Code for a statement. -/
def stmt (env : Env) (frame : Frame) : Stmt → Gen Flow
  | .expr e => do
    discarded env e
    return .next
  | .declare ty declarators => do
    declaration env ty declarators
    return .next
  | .block body => within {} (block env frame body)
  | .ifElse e onTrue onFalse => do
    condition env "if" e
    let otherwise ← label
    branch .jz otherwise.handle
    let _ ← within {} (block env frame onTrue)
    match onFalse with
    | some onFalse =>
      let done ← label
      jump .jmp done.handle
      place otherwise
      let _ ← within {} (block env frame onFalse)
      place done
    | none => place otherwise
    return .next
  | .whileLoop e body => do
    let start ← add .nop
    condition env "while" e
    let done ← label
    branch .jz done.handle
    let _ ← within { breakTo := some done.handle, continueTo := some start }
      (block env frame body)
    jump .jmp start
    place done
    return .next
  | .doWhile body e => do
    let start ← add .nop
    let done ← label
    let next ← label
    let _ ← within { breakTo := some done.handle, continueTo := some next.handle }
      (block env frame body)
    place next
    condition env "do-while" e
    branch .jnz start
    place done
    return .next
  | .forLoop init e step body => do
    discarded? env init
    let start ← add .nop
    let done ← label
    let next ← label
    match e with
    | some e =>
      condition env "for" e
      branch .jz done.handle
    | none => pure ()
    let _ ← within { breakTo := some done.handle, continueTo := some next.handle }
      (block env frame body)
    place next
    discarded? env step
    jump .jmp start
    place done
    return .next
  | .switch e cases => do
    -- the value stays on the stack for the whole statement
    let ty ← expr env e
    let code ← switchCode ty
    let done ← label
    let labels ← armLabels cases
    let default ← switchTests env ty code cases labels none
    jump .jmp (default.getD done.handle)
    within { breakTo := some done.handle } do
      arms env frame cases labels
      checkBalanced
    place done
    let size ← sizeOf env ty
    pop size
    grow (-size)
    return .next
  | .breakOut => do
    leave "break" ((← scope).breakTarget env)
    return .next
  | .continueLoop => do
    leave "continue" ((← scope).continueTarget env)
    return .next
  | .ret value => do
    exit env frame value
    return .returned

/-- Code for the statements of a block, which pops its variables at the end. A `return` pops
everything itself, so nothing is compiled after it. -/
def block (env : Env) (frame : Frame) : List Stmt → Gen Flow
  | [] => do
    pop (← lift ((← scope).block.size env))
    checkBalanced
    return .next
  | s :: rest => do
    match ← stmt env frame s with
    | .next => block env frame rest
    | .returned =>
      unless rest.isEmpty do report (.unreachable frame.name rest.length)
      checkBalanced
      return .returned

/-- Code for the arms of a switch, each at its label. -/
def arms (env : Env) (frame : Frame) :
    List (List SwitchLabel × List Stmt) → List Instruction → Gen Unit
  | (_, body) :: rest, l :: labels => do
    place l
    armBody env frame body
    arms env frame rest labels
  | _, _ => return

/-- Code for one arm of a switch. Variables cannot be declared directly in it. -/
def armBody (env : Env) (frame : Frame) : List Stmt → Gen Unit
  | [] => return
  | s :: rest => do
    match s with
    | .declare _ declarators => mistake (.declarationInSwitchArm (declaredName declarators))
    | _ => pure ()
    match ← stmt env frame s with
    | .next => armBody env frame rest
    | .returned => return

end

end Codegen

end NwScript
