-- Shapes of the stack: the kinds of its slots, without what stands in them. An instruction finds
-- the operands that it needs in a shape, or it does not, and leaves another shape behind.
import NwScript.Proofs.Machine.Cell
import NwScript.Proofs.Storage.Slots
import NwScript.Machine.Stream
import NwScript.Storage.Global

namespace NwScript

/-- The kinds of slots, the bottom of the stack being first. -/
abbrev Shape := List SlotKind

/-- Takes some kinds off the top of a shape, if just these are there. -/
def Shape.strip? (shape top : Shape) : Option Shape :=
  match splitTop? top.length shape with
  | some (rest, found) => if found = top then some rest else none
  | none => none

@[simp] theorem Shape.strip?_append (rest top : Shape) : Shape.strip? (rest ++ top) top =
    some rest := by
  simp [strip?, splitTop?_append rfl]

theorem Shape.strip?_some {shape top rest : Shape} (h : shape.strip? top = some rest) :
    shape = rest ++ top := by
  rw [strip?] at h
  split at h
  · rename_i hsplit
    split at h
    · rename_i hfound
      cases h
      rw [(splitTop?_some hsplit).1, hfound]
    · cases h
  · cases h

/-! ## Shapes of types -/

namespace Env

variable (env : Env)

/-- The slots of a value of a type: three floats for a vector, and for a struct its members one
after another. -/
def shape? (ty : Ty) : Option Shape := (env.structs.slots ty).toOption

def shapes? : List Ty → Option Shape
  | [] => some []
  | ty :: rest => do
    let first ← env.shape? ty
    return first ++ (← shapes? rest)

/-- The slots of all globals. -/
def globalShape? : Option Shape := env.shapes? (env.globals.map (·.ty))

/-- The function that is called at an instruction. -/
def callee? (entry : Handle) : Option Function := env.functions.all.find? (·.entry == entry)

/-- The stretch of slots that an offset leads to, with `shape` on the stack. -/
def area? (shape : Shape) (anchor : Anchor) (offset size : Int) : Option Shape :=
  match anchor with
  | .sp => slice? shape (shape.length + offset) size
  | .bp => env.globalShape?.bind fun globals => slice? globals (globals.length + offset) size

end Env

/-! ## What instructions need and leave -/

/-- The shape that an instruction leaves behind, if it finds its operands. A call needs the slots of
the result and above them the arguments, and leaves those of the result. -/
def Instruction.after? (env : Env) (i : Instruction) (shape : Shape) : Option Shape :=
  match i.op with
  | .nop | .retn | .jump .jmp => some shape
  | .reserve kind => some (shape ++ [kind])
  | .constI _ => some (shape ++ [.int])
  | .constF _ => some (shape ++ [.float])
  | .constS _ => some (shape ++ [.string])
  | .constO _ => some (shape ++ [.object])
  | .copyDown anchor offset size => do
    let (_, top) ← splitTop? size shape
    let old ← env.area? shape anchor offset size
    if old = top then some shape else none
  | .copyTop anchor offset size => do
    let copy ← env.area? shape anchor offset size
    return shape ++ copy
  | .moveSp distance => do
    let (rest, _) ← splitTop? (-distance) shape
    return rest
  | .step _ anchor offset => do
    let old ← env.area? shape anchor offset 1
    if old = [.int] then some shape else none
  | .binary c => do
    let rest ← shape.strip? (← env.shapes? [c.lhs, c.rhs])
    return rest ++ (← env.shape? c.result)
  | .unary c => do
    let operand ← env.shape? c.operand
    return (← shape.strip? operand) ++ operand
  | .equalTT size | .notEqualTT size => do
    let (rest, right) ← splitTop? size shape
    let (rest, left) ← splitTop? size rest
    if left = right then some (rest ++ [.int]) else none
  | .jump .jz | .jump .jnz => shape.strip? [.int]
  | .jump .jsr => do
    let callee ← env.callee? (← i.target)
    let result ← env.shape? callee.signature.returnType
    let args ← env.shapes? (callee.signature.params.map (·.ty))
    return (← shape.strip? (result ++ args)) ++ result
  | .action index argc => do
    let routine ← env.engine.routines[index.toNat]?
    let result ← env.shape? routine.returnType
    let args ← env.shapes? ((routine.params.map (·.ty)).filter (· ≠ .action))
    if routine.params.length = argc.toNat then return (← shape.strip? args) ++ result else none
  | .storeState globals locals => do
    let all ← env.globalShape?
    if 0 ≤ globals ∧ globals ≤ all.length ∧ 0 ≤ locals ∧ locals ≤ shape.length then some shape
    else none
  | .saveBp => if env.globalShape? = some shape then some shape else none
  | .restoreBp => none

/-- Whether control goes on at the next instruction. -/
def Op.fallsThrough : Op → Bool
  | .jump .jmp | .retn => false
  | _ => true

/-- Whether control may go on where the jump leads. A call comes back. -/
def Op.branches : Op → Bool
  | .jump .jmp | .jump .jz | .jump .jnz => true
  | _ => false

end NwScript
