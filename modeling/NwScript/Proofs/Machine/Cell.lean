-- The stack machine: what its slots hold and what an instruction does to the stack. Arithmetic is a
-- parameter, so that nothing proved about the machine depends on how numbers are added.
import NwScript.Machine.Overload

namespace NwScript

/-! ## Stretches of a stack -/

section Stretches

variable {α : Type}

/-- Takes the topmost `size` elements off, the bottom of the stack being first. -/
def splitTop? (size : Int) (xs : List α) : Option (List α × List α) :=
  if 0 ≤ size ∧ size ≤ xs.length then
    some (xs.take (xs.length - size.toNat), xs.drop (xs.length - size.toNat))
  else none

/-- The `size` elements from a position on. -/
def slice? (xs : List α) (position size : Int) : Option (List α) :=
  if 0 ≤ position ∧ 0 ≤ size ∧ position + size ≤ xs.length then
    some ((xs.drop position.toNat).take size.toNat)
  else none

/-- Puts new elements in the place of those from a position on. -/
def overwrite? (xs : List α) (position : Int) (ys : List α) : Option (List α) :=
  if 0 ≤ position ∧ position + ys.length ≤ xs.length then
    some (xs.take position.toNat ++ ys ++ xs.drop (position.toNat + ys.length))
  else none

theorem splitTop?_append {size : Int} {xs ys : List α} (h : size = ys.length) :
    splitTop? size (xs ++ ys) = some (xs, ys) := by
  subst h
  have hfits : (ys.length : Int) ≤ (xs ++ ys).length := by
    simp only [List.length_append]
    omega
  rw [splitTop?, if_pos ⟨by omega, hfits⟩]
  simp

theorem slice?_append {position size : Int} {xs before ys after : List α}
    (hx : xs = before ++ ys ++ after) (hp : position = before.length) (hs : size = ys.length) :
    slice? xs position size = some ys := by
  subst hx hp hs
  have hfits : (before.length : Int) + ys.length ≤ (before ++ ys ++ after).length := by
    simp only [List.length_append]
    omega
  rw [slice?, if_pos ⟨by omega, by omega, hfits⟩]
  simp

theorem splitTop?_some {size : Int} {xs rest top : List α}
    (h : splitTop? size xs = some (rest, top)) : xs = rest ++ top ∧ size = top.length := by
  rw [splitTop?] at h
  split at h
  · cases h
    refine ⟨(List.take_append_drop _ _).symm, ?_⟩
    rw [List.length_drop]
    omega
  · cases h

theorem slice?_some {position size : Int} {xs ys : List α} (h : slice? xs position size = some ys) :
    0 ≤ position ∧ position + size ≤ xs.length ∧ size = ys.length := by
  rw [slice?] at h
  split at h
  · cases h
    rename_i hfits
    refine ⟨hfits.1, hfits.2.2, ?_⟩
    rw [List.length_take, List.length_drop]
    omega
  · cases h

theorem overwrite?_append {position : Int} {xs before old ys after : List α}
    (hx : xs = before ++ old ++ after) (hp : position = before.length)
    (hs : old.length = ys.length) : overwrite? xs position ys = some (before ++ ys ++ after) := by
  subst hx hp
  have hfits : (before.length : Int) + ys.length ≤ (before ++ old ++ after).length := by
    simp only [List.length_append]
    omega
  rw [overwrite?, if_pos ⟨by omega, hfits⟩]
  simp [← hs, List.drop_append]

end Stretches

/-! ## Cells -/

/-- What stands in a slot. The values that only the engine can look into are known by handles. -/
inductive Cell where
  | int (n : Int32)
  | float (x : Binary32)
  | string (s : String)
  | object (handle : Int32)
  | effect (handle : Nat)
  | event (handle : Nat)
  | location (handle : Nat)
  | talent (handle : Nat)
deriving DecidableEq

namespace Cell

def kind : Cell → SlotKind
  | .int _ => .int
  | .float _ => .float
  | .string _ => .string
  | .object _ => .object
  | .effect _ => .effect
  | .event _ => .event
  | .location _ => .location
  | .talent _ => .talent

/-- What stands in a slot that was just reserved. -/
def zero : SlotKind → Cell
  | .int => .int 0
  | .float => .float ⟨0⟩
  | .string => .string ""
  | .object => .object 0
  | .effect => .effect 0
  | .event => .event 0
  | .location => .location 0
  | .talent => .talent 0

end Cell

/-! ## Arithmetic -/

/-- The operands of arithmetic, by their type. There is no arithmetic on other types. -/
def Operand : Ty → Type
  | .int | .object => Int32
  | .float => Binary32
  | .string => String
  | .vector => Binary32 × Binary32 × Binary32
  | _ => Empty

namespace Operand

def cells : {ty : Ty} → Operand ty → List Cell
  | .int, (n : Int32) => [.int n]
  | .object, (handle : Int32) => [.object handle]
  | .float, (x : Binary32) => [.float x]
  | .string, (s : String) => [.string s]
  | .vector, (x, y, z) => [.float x, .float y, .float z]

/-- The operand of a type that some cells make up. -/
def ofCells? : (ty : Ty) → List Cell → Option (Operand ty)
  | .int, [.int n] => some n
  | .object, [.object handle] => some handle
  | .float, [.float x] => some x
  | .string, [.string s] => some s
  | .vector, [.float x, .float y, .float z] => some (x, y, z)
  | _, _ => none

theorem ofCells?_cells {ty : Ty} (x : Operand ty) : ofCells? ty x.cells = some x := by
  cases ty <;> first | rfl | cases x

theorem length_cells {ty : Ty} (x : Operand ty) : x.cells.length = ty.builtinSize.getD 0 := by
  cases ty <;> first | rfl | cases x

end Operand

/-- Arithmetic: any functions of the right types. -/
structure Alu where
  binary : (c : BinaryCode) → Operand c.lhs → Operand c.rhs → Operand c.result
  unary : (c : UnaryCode) → Operand c.operand → Operand c.operand
  /-- Whether two composite values are equal, and whether they differ. -/
  equal : List Cell → List Cell → Int32
  notEqual : List Cell → List Cell → Int32
  step : StepOp → Int32 → Int32

/-- The types that arithmetic works on. -/
def Operand.types : List Ty := [.int, .float, .string, .object, .vector]

theorem BinaryCode.lhs_mem (c : BinaryCode) : c.lhs ∈ Operand.types := by cases c <;> decide

theorem BinaryCode.rhs_mem (c : BinaryCode) : c.rhs ∈ Operand.types := by cases c <;> decide

theorem BinaryCode.result_mem (c : BinaryCode) : c.result ∈ Operand.types := by cases c <;> decide

theorem UnaryCode.operand_mem (c : UnaryCode) : c.operand ∈ Operand.types := by cases c <;> decide

def Operand.zero : (ty : Ty) → ty ∈ types → Operand ty
  | .int, _ => (0 : Int32)
  | .object, _ => (0 : Int32)
  | .float, _ => (⟨0⟩ : Binary32)
  | .string, _ => ""
  | .vector, _ => ((⟨0⟩, ⟨0⟩, ⟨0⟩) : Binary32 × Binary32 × Binary32)
  | .void, h | .event, h | .talent, h | .location, h | .effect, h | .action, h | .struct _, h =>
    absurd h (by simp [types])

/-- Arithmetic that only ever gives zeros. -/
instance : Inhabited Alu where
  default := {
    binary := fun c _ _ => .zero c.result c.result_mem
    unary := fun c _ => .zero c.operand c.operand_mem
    equal := fun _ _ => 0
    notEqual := fun _ _ => 0
    step := fun _ _ => 0 }

/-! ## Effects of instructions -/

/-- Takes an operand off the stack. -/
def popOperand? (ty : Ty) (stack : List Cell) : Option (List Cell × Operand ty) := do
  let (rest, top) ← splitTop? (ty.builtinSize.getD 0) stack
  let x ← Operand.ofCells? ty top
  return (rest, x)

theorem popOperand?_append {ty : Ty} (stack : List Cell) (x : Operand ty) :
    popOperand? ty (stack ++ x.cells) = some (stack, x) := by
  have htop : splitTop? ((ty.builtinSize.getD 0 : Nat) : Int) (stack ++ x.cells) =
      some (stack, x.cells) := splitTop?_append (by rw [x.length_cells])
  simp [popOperand?, htop, x.ofCells?_cells]

/-- Where offsets are counted from, on a stack whose globals end at `base`. -/
def Anchor.position (base : Nat) (stack : List Cell) : Anchor → Int
  | .sp => stack.length
  | .bp => base

/-- Steps the int at a position. -/
def stepAt? (alu : Alu) (op : StepOp) (stack : List Cell) (position : Int) : Option (List Cell) :=
  match slice? stack position 1 with
  | some [.int n] => overwrite? stack position [.int (alu.step op n)]
  | _ => none

/-- What an instruction does to a stack whose globals end at `base`. Instructions that move control
elsewhere have no effect of this kind. -/
def Op.effect (alu : Alu) (base : Nat) (stack : List Cell) : Op → Option (List Cell)
  | .nop => some stack
  | .reserve kind => some (stack ++ [.zero kind])
  | .constI n => some (stack ++ [.int n])
  | .constF x => some (stack ++ [.float x])
  | .constS s => some (stack ++ [.string s])
  | .constO handle => some (stack ++ [.object handle])
  | .copyDown anchor offset size => do
    let (_, top) ← splitTop? size stack
    overwrite? stack (anchor.position base stack + offset) top
  | .copyTop anchor offset size => do
    let copy ← slice? stack (anchor.position base stack + offset) size
    return stack ++ copy
  | .moveSp distance => do
    let (rest, _) ← splitTop? (-distance) stack
    return rest
  | .step op anchor offset => stepAt? alu op stack (anchor.position base stack + offset)
  | .binary c => do
    let (rest, y) ← popOperand? c.rhs stack
    let (rest, x) ← popOperand? c.lhs rest
    return rest ++ (alu.binary c x y).cells
  | .unary c => do
    let (rest, x) ← popOperand? c.operand stack
    return rest ++ (alu.unary c x).cells
  | .equalTT size => do
    let (rest, ys) ← splitTop? size stack
    let (rest, xs) ← splitTop? size rest
    return rest ++ [.int (alu.equal xs ys)]
  | .notEqualTT size => do
    let (rest, ys) ← splitTop? size stack
    let (rest, xs) ← splitTop? size rest
    return rest ++ [.int (alu.notEqual xs ys)]
  | .saveBp | .restoreBp | .jump _ | .retn | .action _ _ | .storeState _ _ => none

/-- The effect of instructions one after another. -/
def Op.effects (alu : Alu) (base : Nat) : List Op → List Cell → Option (List Cell)
  | [], stack => some stack
  | op :: rest, stack => (op.effect alu base stack).bind (effects alu base rest)

section Effects

variable {alu : Alu} {base : Nat} {stack : List Cell}

theorem Op.effects_append {ops more : List Op} {mid : List Cell}
    (h : effects alu base ops stack = some mid) :
    effects alu base (ops ++ more) stack = effects alu base more mid := by
  induction ops generalizing stack with
  | nil =>
    cases h
    rfl
  | cons op rest ih =>
    obtain ⟨next, hop, hrest⟩ := Option.bind_eq_some_iff.mp h
    simp [effects, hop, ih hrest]

theorem Op.effects_one {op : Op} : effects alu base [op] stack = op.effect alu base stack := by
  cases h : op.effect alu base stack <;> simp [effects, h]

theorem effect_moveSp {top : List Cell} {distance : Int} (h : distance = -top.length) :
    Op.effect alu base (stack ++ top) (.moveSp distance) = some stack := by
  simp [Op.effect, splitTop?_append (show -distance = top.length by omega)]

theorem effect_copyTop {anchor : Anchor} {offset size : Int} {before copy after : List Cell}
    (hs : stack = before ++ copy ++ after)
    (hp : anchor.position base stack + offset = before.length) (hsize : size = copy.length) :
    Op.effect alu base stack (.copyTop anchor offset size) = some (stack ++ copy) := by
  simp [Op.effect, slice?_append hs hp hsize]

/-- A copy to a place below the cells that are copied. -/
theorem effect_copyDown {anchor : Anchor} {offset size : Int} {before old after top : List Cell}
    (hs : stack = before ++ old ++ after)
    (hp : anchor.position base (stack ++ top) + offset = before.length)
    (hsize : size = top.length) (hold : old.length = top.length) :
    Op.effect alu base (stack ++ top) (.copyDown anchor offset size) =
      some (before ++ top ++ after ++ top) := by
  have hover : overwrite? (stack ++ top) (anchor.position base (stack ++ top) + offset) top =
      some (before ++ top ++ (after ++ top)) := overwrite?_append (by simp [hs]) hp hold
  simp [Op.effect, splitTop?_append hsize, hover]

theorem effect_step {op : StepOp} {anchor : Anchor} {offset : Int} {before after : List Cell}
    {n : Int32} (hs : stack = before ++ [.int n] ++ after)
    (hp : anchor.position base stack + offset = before.length) :
    Op.effect alu base stack (.step op anchor offset) =
      some (before ++ [.int (alu.step op n)] ++ after) := by
  have hold : slice? stack (anchor.position base stack + offset) 1 = some [.int n] :=
    slice?_append hs hp rfl
  simp only [Op.effect, stepAt?, hold]
  exact overwrite?_append hs hp rfl

theorem effect_binary {c : BinaryCode} (x : Operand c.lhs) (y : Operand c.rhs) :
    Op.effect alu base (stack ++ x.cells ++ y.cells) (.binary c) =
      some (stack ++ (alu.binary c x y).cells) := by
  simp only [Op.effect, popOperand?_append, Option.bind_eq_bind, Option.bind_some]
  rfl

theorem effect_unary {c : UnaryCode} (x : Operand c.operand) :
    Op.effect alu base (stack ++ x.cells) (.unary c) = some (stack ++ (alu.unary c x).cells) := by
  simp only [Op.effect, popOperand?_append, Option.bind_eq_bind, Option.bind_some]
  rfl

end Effects

end NwScript
