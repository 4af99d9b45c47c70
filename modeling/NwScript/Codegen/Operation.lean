-- Single operations on values that are already on the stack.
import NwScript.Codegen.Access
import NwScript.Machine.Overload

namespace NwScript

namespace Codegen

def literal (env : Env) (value : Value) (ty : Ty) : Gen Ty := do
  emitAll (Op.pushing value)
  grow (← sizeOf env ty)
  return ty

/-- Reads a name or a member. The constants of the engine come before all variables. -/
def access (env : Env) (path : Access) : Gen Ty := do
  match path.identifier?.bind env.engine.constant? with
  | some c => literal env c.value c.ty
  | none =>
    let r ← locate env path
    let size ← sizeOf env r.ty
    emit (r.load size)
    grow size
    return r.ty

/-- Stores a value of the given type, which is on top of the stack and stays there. The target is
located after the value is pushed, so its offset already skips it. -/
def assign (env : Env) (target : Access) (actual : Ty) : Gen Ty := do
  let r ← locateMutable env target
  if actual ≠ r.ty then mistake (.typeMismatch (.assignment target) r.ty actual)
  emit (r.store (← sizeOf env r.ty))
  return actual

/-- Pushes the old value of the target of a compound assignment. -/
def loadTarget (env : Env) (target : Access) : Gen Ty := do
  let r ← locateMutable env target
  let size ← sizeOf env r.ty
  emit (r.load size)
  grow size
  return r.ty

/-- Combines the old value of the target with an operand, both on top of the stack, and stores the
result. -/
def combine (env : Env) (op : AssignOp) (arithmetic : BinaryOp) (target : Access) (ty actual : Ty) :
    Gen Ty := do
  match (arithmetic.code? ty actual).filter (·.result == ty) with
  | none => mistake (.noOperator op.symbol [ty, actual] arithmetic.forms)
  | some code =>
    let size ← sizeOf env ty
    emit (.binary code)
    grow (-(← lift (Count.sum size (← sizeOf env actual))))
    grow size
    let r ← locate env target
    emit (r.store size)
    return ty

/-- Replaces the two topmost values, of the given types, by the result of an operator. -/
def binary (env : Env) (op : BinaryOp) (left right : Ty) : Gen Ty := do
  let leftSize ← sizeOf env left
  let rightSize ← sizeOf env right
  let (code, result) ← match op.composite? left right leftSize with
    | some code => pure (code, Ty.int)
    | none => match op.code? left right with
      | some code => pure (.binary code, code.result)
      | none => mistake (.noOperator op.symbol [left, right] op.forms)
  emit code
  grow (-(← lift (Count.sum leftSize rightSize)))
  grow (← sizeOf env result)
  return result

/-- Replaces the topmost value by the result of an operator. -/
def unary (op : UnaryOp) (operand : Ty) : Gen Ty := do
  match op.code? operand with
  | some code =>
    emit (.unary code)
    return operand
  | none => mistake (.noOperator op.symbol [operand] op.forms)

/-- The offset of a variable once one more slot has been pushed, which moves whatever is counted
from the top one further down. -/
def pastPush (r : Resolved) : Except Failure Int :=
  match r.anchor with
  | .sp => Count.checked (r.offset - 1)
  | .bp => .ok r.offset

/-- Steps a variable in place and pushes its new value, or its old value if it is read first. -/
def step (env : Env) (op : StepOp) (fix : Fix) (target : Access) : Gen Ty := do
  let r ← locateMutable env target
  if r.ty ≠ .int then mistake (.noOperator op.symbol [r.ty] [op.symbol ++ "int"])
  match fix with
  | .pre =>
    emit (.step op r.anchor r.offset)
    emit (r.load 1)
  | .post =>
    emit (r.load 1)
    emit (.step op r.anchor (← lift (pastPush r)))
  grow 1
  return .int

end Codegen

end NwScript
