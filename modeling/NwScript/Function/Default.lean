-- Which default values parameters may have.
import NwScript.Host.Engine
import NwScript.Report.Error

namespace NwScript

namespace Expr

/-- Whether an expression is built from literals and engine constants alone. -/
def constant (engine : Engine) : Expr → Bool
  | .literal _ => true
  | .vector x y z => x.constant engine && y.constant engine && z.constant engine
  | .access path => match path.identifier? with
    | some name => (engine.constant? name).isSome
    | none => false
  | .unary _ operand => operand.constant engine
  | .binary _ lhs rhs => lhs.constant engine && rhs.constant engine
  | .assign _ _ _ | .step _ _ _ | .call _ _ => false

end Expr

namespace Signature

/-- The first parameter without a default that follows one with a default. -/
def misplaced? (params : List Param) : Option Param :=
  (params.dropWhile (·.default.isNone)).find? (·.default.isNone)

/-- Whether a default value may stand where it stands. -/
def constantDefault (engine : Engine) (p : Param) : Bool :=
  match p.default with
  | some e => e.constant engine
  | none => true

/-- Default values come last and are constant. -/
def checkDefaults (engine : Engine) (s : Signature) : Except Failure Unit :=
  match misplaced? s.params with
  | some p => .error (.semantic (.defaultOrder s.name p.name))
  | none => match s.params.find? fun p => !constantDefault engine p with
    | some p => .error (.semantic (.nonConstantDefault s.name p.name))
    | none => .ok ()

end Signature

end NwScript
