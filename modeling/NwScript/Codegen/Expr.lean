-- Code for expressions. Every expression pushes its value and counts exactly the slots of its type
-- as temporaries; whoever takes the value counts them off again.
import NwScript.Codegen.Call
import NwScript.Codegen.Operation

namespace NwScript

namespace Codegen

mutual

/-- Code for an expression, where `onDefault` compiles the default values of arguments that calls
leave out. -/
def exprWith (env : Env) (onDefault : Expr → Gen Ty) : Expr → Gen Ty
  | .literal value => literal env value value.ty
  | .vector x y z => do
    component "x" (← exprWith env onDefault x)
    component "y" (← exprWith env onDefault y)
    component "z" (← exprWith env onDefault z)
    return .vector
  | .access path => access env path
  | .assign op target value => do
    match op.arithmetic with
    | none =>
      let actual ← exprWith env onDefault value
      assign env target actual
    | some arithmetic =>
      let ty ← loadTarget env target
      let actual ← exprWith env onDefault value
      combine env op arithmetic target ty actual
  | .binary op lhs rhs => do
    let left ← exprWith env onDefault lhs
    let right ← exprWith env onDefault rhs
    binary env op left right
  | .unary op operand => do
    let ty ← exprWith env onDefault operand
    unary op ty
  | .step op fix target => step env op fix target
  | .call name args => do
    match env.functions.find? name with
    | some f =>
      markCalled name
      lift (checkArguments name f.signature.params args.length)
      callFunction env f (argumentsWith env onDefault name 0 f.signature.params args)
    | none => match env.engine.routine? name with
      | some (index, routine) =>
        lift (checkArguments name routine.params args.length)
        callRoutine env index routine (argumentsWith env onDefault name 0 routine.params args)
      | none => mistake (.undefinedFunction name)
where
  /-- A component of a vector must be a float. -/
  component (axis : Name) (ty : Ty) : Gen Unit := do
    if ty ≠ .float then mistake (.typeMismatch (.vectorComponent axis) .float ty)

/-- Pushes the arguments of a call in the order of the parameters, and gives the slots that they
take together with those pushed before. -/
def argumentsWith (env : Env) (onDefault : Expr → Gen Ty) (function : Name) :
    Nat → List Param → List Expr → Gen Nat
  | pushed, params, [] => defaults env onDefault function pushed params
  | pushed, [], _ :: _ => return pushed
  | pushed, p :: params, a :: args => do
    let pushed ← argument env function p pushed (exprWith env onDefault a)
    argumentsWith env onDefault function pushed params args

end

/-- Code for a default value inside at most `depth` other ones. Deeper than there are default
values, one of them stands inside itself, and there is no end to it. -/
def defaultExpr (env : Env) : Nat → Expr → Gen Ty
  | 0, _ => throw .endless
  | depth + 1, e => exprWith env (defaultExpr env depth) e

/-- Code for an expression. -/
def expr (env : Env) (e : Expr) : Gen Ty :=
  exprWith env (defaultExpr env env.defaultValues.length) e

end Codegen

end NwScript
