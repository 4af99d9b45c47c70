-- Calls of script functions and of engine routines, with the commands that a routine runs later.
import NwScript.Codegen.Step

namespace NwScript

namespace Codegen

/-- The arguments must not be too many, and those that are left out need a default. -/
def checkArguments (function : Name) (params : List Param) (count : Nat) :
    Except Failure Unit :=
  let missing := ((params.drop count).filter (·.default.isNone)).map (·.name)
  if params.length < count then
    .error (.semantic (.tooManyArguments function params.length count))
  else if missing.isEmpty then .ok ()
  else .error (.semantic (.missingArguments function missing))

/-- Code that an engine routine runs later: the frame is stored, the command is jumped over, and it
ends with a return of its own. It runs against the stored frame and so sees the same offsets. -/
def deferred (env : Env) (command : Gen Ty) : Gen Unit := do
  let globals ← lift (Count.checked (-(← lift env.globalSize)))
  let locals ← lift ((← scope).fullSize env)
  emit (.storeState globals locals)
  let resume ← label
  jump .jmp resume.handle
  let size ← sizeOf env (← command)
  if 0 < size then pop size
  grow (-size)
  emit .retn
  place resume
  report (.deferredCompiled globals locals)

/-- Pushes one argument on top of others, and gives the slots that they take together. -/
def argument (env : Env) (function : Name) (p : Param) (pushed : Nat) (value : Gen Ty) :
    Gen Nat := do
  if p.ty = .action then
    deferred env value
    return pushed
  let actual ← value
  if actual ≠ p.ty then mistake (.argumentMismatch function p.name p.ty actual)
  lift (Count.sum pushed (← sizeOf env actual))

/-- Pushes the defaults of parameters whose arguments are left out. -/
def defaults (env : Env) (onDefault : Expr → Gen Ty) (function : Name) :
    Nat → List Param → Gen Nat
  | pushed, [] => return pushed
  | pushed, p :: rest => do
    match p.default with
    | some e =>
      let pushed ← argument env function p pushed (onDefault e)
      defaults env onDefault function pushed rest
    | none => throw (.internal (.parameterWithoutValue p.name function))

/-- A call of a script function: room for its result, the arguments, and the jump. -/
def callFunction (env : Env) (f : Function) (arguments : Gen Nat) : Gen Ty := do
  emitAll (← lift (env.structs.reserve f.signature.returnType))
  grow (← sizeOf env f.signature.returnType)
  grow (-(← arguments))
  jump .jsr f.entry
  return f.signature.returnType

/-- A call of an engine routine, which takes its arguments from the stack and pushes its result. -/
def callRoutine (env : Env) (index : Nat) (routine : Signature) (arguments : Gen Nat) : Gen Ty := do
  grow (-(← arguments))
  unless index < 0x10000 do throw (.internal (.routineOutOfRange index))
  let argc := routine.params.length
  unless argc < 0x100 do throw (.internal (.tooManyRoutineArguments routine.name))
  emit (.action index.toUInt16 argc.toUInt8)
  grow (← sizeOf env routine.returnType)
  return routine.returnType

end Codegen

end NwScript
