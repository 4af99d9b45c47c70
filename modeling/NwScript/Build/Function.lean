-- Prototypes and functions.
import NwScript.Build.Session
import NwScript.Codegen.Body
import NwScript.Function.Default

namespace NwScript

namespace Build

/-- The parameters of a function must be storable. -/
def checkParams (structs : Structs) : List Param → Except Failure Unit
  | [] => .ok ()
  | p :: rest => do
    unless p.ty.storable do throw (.semantic (.unstorable p.name p.ty))
    structs.check p.ty
    checkParams structs rest

/-- The types of a signature must exist. No function returns an action, and only engine routines
take one. -/
def checkTypes (structs : Structs) (s : Signature) : Except Failure Unit := do
  structs.check s.returnType
  if s.returnType = .action then throw (.semantic (.unstorable s.name s.returnType))
  checkParams structs s.params

def checkSignature (s : Signature) : Build Unit := do
  let env ← env
  lift (s.checkDefaults env.engine)
  lift (checkTypes env.structs s)

/-- Changes the table of the functions. -/
def register {α : Type} (step : EStateM Failure Functions α) : Build α :=
  focus (·.env.functions) (fun s functions => { s with env := { s.env with functions } }) step

/-- Announces a function at a new instruction, behind which its body will go. -/
def prototype (s : Signature) : Build Unit := do
  checkSignature s
  if ((← env).functions.find? s.name).isSome then mistake (.duplicatePrototype s.name)
  let stub ← edit (Stream.add .nop)
  report (← register (Functions.declare s stub))

def define (s : Signature) (entry : Handle) : Build Unit :=
  register (modify (·.define s entry))

/-- Compiles a function. After a prototype the body goes right behind the instruction that calls of
the prototype jump to, otherwise to the end of the stream. -/
def function (f : FunctionDef) : Build Unit := do
  match ← lift ((← env).functions.reconcile f.signature) with
  | some (stub, signature) =>
    checkSignature signature
    let body ← aside (Codegen.body (← env) signature f.body)
    edit (Stream.spliceAfter stub body)
    report (.bodySpliced signature.name stub)
    define signature stub
  | none =>
    checkSignature f.signature
    let entry ← edit (Stream.add .nop)
    generate (Codegen.body (← env) f.signature f.body)
    report (.functionCompiled f.signature.name entry)
    define f.signature entry

/-- The prototypes and functions among some items, in order. -/
def functions : Script → Build Unit
  | [] => return
  | item :: rest => do
    match item with
    | .prototype s => prototype s
    | .function f => function f
    | .include name => throw (.internal (.includeLeft name))
    | .global _ | .struct _ => pure ()
    functions rest

/-- Every function that is called must have a body. -/
def checkCalled : Build Unit := do
  let missing := (← env).functions.undefinedCalled
  unless missing.isEmpty do mistake (.prototypeNeverDefined missing)

end Build

end NwScript
