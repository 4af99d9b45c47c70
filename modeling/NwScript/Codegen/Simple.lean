-- Code for statements that contain no other statements. A statement leaves the stack as it found
-- it, apart from the variables that it declares.
import NwScript.Codegen.Expr

namespace NwScript

namespace Codegen

/-- The function whose body is compiled. -/
structure Frame where
  name : Name
  returnType : Ty
  /-- The one return instruction that every `return` jumps to. -/
  retn : Handle

/-- Evaluates for the effect and pops the value. -/
def discarded (env : Env) (e : Expr) : Gen Unit := do
  let size ← sizeOf env (← expr env e)
  if 0 < size then pop size
  grow (-size)

/-- Evaluates an expression if it is there, for the effect. -/
def discarded? (env : Env) : Option Expr → Gen Unit
  | some e => discarded env e
  | none => return

/-- Pushes a condition, which must be an int. -/
def condition (env : Env) (keyword : String) (e : Expr) : Gen Unit := do
  let ty ← expr env e
  if ty ≠ .int then mistake (.typeMismatch (.condition keyword) .int ty)

/-- Jumps depending on the condition on top of the stack, which is popped. -/
def branch (code : JumpCode) (target : Handle) : Gen Unit := do
  jump code target
  grow (-1)

/-- Gives a variable that was just reserved its first value. -/
def initialValue (env : Env) (name : Name) (ty : Ty) (e : Expr) : Gen Unit := do
  let actual ← expr env e
  if actual ≠ ty then mistake (.typeMismatch (.initialization name) ty actual)
  let size ← sizeOf env ty
  let r ← lift ((← scope).resolve env name)
  emit (.copyDown .sp r.offset size)
  pop size
  grow (-size)

/-- Reserves the variables of a declaration one after another. -/
def declaration (env : Env) (ty : Ty) : List Declarator → Gen Unit
  | [] => return
  | d :: rest => do
    unless ty.storable do mistake (.unstorable d.name ty)
    lift (env.structs.check ty)
    if ((← scope).block.local? d.name).isSome then mistake (.redeclaration d.name)
    emitAll (← lift (env.structs.reserve ty))
    setBlock (← lift ((← scope).block.declare env d.name ty))
    match d.init with
    | some e => initialValue env d.name ty e
    | none => pure ()
    declaration env ty rest

/-- Leaves blocks: pops what is on their stack and jumps out of them. -/
def leave (keyword : String) (target : Except Failure (Option (Handle × Int))) : Gen Unit := do
  match ← lift target with
  | some (target, size) =>
    pop size
    jump .jmp target
  | none => mistake (.outsideLoop keyword)

/-- The type of a returned value, which is pushed if there is one. -/
def returned (env : Env) : Option Expr → Gen Ty
  | some e => expr env e
  | none => return .void

/-- Where the room for a result is, when the result itself lies on top of a frame: below the frame
and the result. -/
def resultOffset (height : Int) (size : Nat) : Except Failure Int := do
  let twice ← Count.checked (2 * size)
  Count.checked (-(← Count.checked (height + twice)))

/-- Moves the value into the room that the caller made for it, pops everything of the function, and
jumps to its end. -/
def exit (env : Env) (frame : Frame) (value : Option Expr) : Gen Unit := do
  let height ← lift ((← scope).fullSize env)
  let ty ← returned env value
  if ty ≠ frame.returnType then
    mistake (.typeMismatch (.returnFrom frame.name) frame.returnType ty)
  let size ← sizeOf env ty
  if 0 < size then
    emit (.copyDown .sp (← lift (resultOffset height size)) size)
    pop size
    grow (-size)
  pop height
  jump .jmp frame.retn

/-- A block must have taken back all temporaries. -/
def checkBalanced : Gen Unit := do
  let temps := (← scope).block.temps
  if temps ≠ 0 then throw (.internal (.unbalanced temps))

end Codegen

end NwScript
