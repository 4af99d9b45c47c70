-- The tests at the head of a switch.
import NwScript.Codegen.Simple

namespace NwScript

namespace Codegen

/-- The comparison of a switch with its labels. -/
def switchCode (ty : Ty) : Gen BinaryCode :=
  match ty with
  | .int => return .equalII
  | .string => return .equalSS
  | _ => mistake (.unswitchable ty)

/-- One new label for each arm. -/
def armLabels {α : Type} : List α → Gen (List Instruction)
  | [] => return []
  | _ :: rest => do
    let l ← label
    return l :: (← armLabels rest)

/-- Compares the value with the labels of one arm, and remembers the arm if it is the default. -/
def armTests (env : Env) (ty : Ty) (code : BinaryCode) (arm : Handle) :
    List SwitchLabel → Option Handle → Gen (Option Handle)
  | [], default => return default
  | .case e :: rest, default => do
    emit (.copyTop .sp (-1) 1)
    grow 1
    let caseTy ← expr env e
    if caseTy ≠ ty then mistake (.typeMismatch .caseLabel ty caseTy)
    emit (.binary code)
    grow (-1)
    branch .jnz arm
    armTests env ty code arm rest default
  | .default :: rest, default => do
    if default.isSome then mistake .duplicateDefault
    armTests env ty code arm rest (some arm)

/-- Compares the value with the labels of all arms, and gives the default arm. -/
def switchTests (env : Env) (ty : Ty) (code : BinaryCode) :
    List (List SwitchLabel × List Stmt) → List Instruction → Option Handle → Gen (Option Handle)
  | (labels, _) :: arms, l :: rest, default => do
    let default ← armTests env ty code l.handle labels default
    switchTests env ty code arms rest default
  | _, _, default => return default

/-- The name that stands for a declaration in a message. -/
def declaredName : List Declarator → Name
  | d :: _ => d.name
  | [] => "?"

end Codegen

end NwScript
