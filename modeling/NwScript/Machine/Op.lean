-- The instruction set of the stack machine. Operands count slots; offsets are negative and
-- relative to the top of the stack or to the base that the globals end at.
import NwScript.Script.Expr

namespace NwScript

/-! ## Families of instructions -/

/-- Where an offset is counted from. -/
inductive Anchor where
  /-- The top of the stack. -/
  | sp
  /-- The top of the globals. -/
  | bp
deriving DecidableEq

/-- Instructions that replace two operands by a result. The letters tell the operand types. -/
inductive BinaryCode where
  | addII
  | addIF
  | addFI
  | addFF
  | addSS
  | addVV
  | subII
  | subIF
  | subFI
  | subFF
  | subVV
  | mulII
  | mulIF
  | mulFI
  | mulFF
  | mulVF
  | mulFV
  | divII
  | divIF
  | divFI
  | divFF
  | divVF
  | modII
  | equalII
  | equalFF
  | equalSS
  | equalOO
  | notEqualII
  | notEqualFF
  | notEqualSS
  | notEqualOO
  | gtII
  | gtFF
  | ltII
  | ltFF
  | geqII
  | geqFF
  | leqII
  | leqFF
  | logAndII
  | logOrII
  | inclOrII
  | exclOrII
  | boolAndII
  | shLeftII
  | shRightII
  | ushRightII
deriving DecidableEq

/-- Instructions that replace one operand by a result of the same type. -/
inductive UnaryCode where
  | negI
  | negF
  | compI
  | notI
deriving DecidableEq

/-- Instructions whose destination is another instruction. -/
inductive JumpCode where
  | jmp
  /-- Calls a subroutine. -/
  | jsr
  /-- Pops an int and jumps if it is zero. -/
  | jz
  /-- Pops an int and jumps if it is not zero. -/
  | jnz
deriving DecidableEq

/-! ## Instructions -/

/-- One instruction. The destination of a jump is no operand: it is kept beside the instruction, so
that the stream can still be edited. -/
inductive Op where
  | nop
  /-- Pushes a zeroed slot. -/
  | reserve (kind : SlotKind)
  | constI (n : Int32)
  | constF (x : Binary32)
  | constS (s : String)
  | constO (handle : Int32)
  /-- Copies the topmost slots down to the place at the offset. -/
  | copyDown (anchor : Anchor) (offset size : Int)
  /-- Pushes a copy of the slots at the offset. -/
  | copyTop (anchor : Anchor) (offset size : Int)
  /-- Moves the top of the stack; a negative distance pops. -/
  | moveSp (distance : Int)
  /-- Steps the int at the offset in place. -/
  | step (op : StepOp) (anchor : Anchor) (offset : Int)
  /-- Marks the end of the globals. -/
  | saveBp
  | restoreBp
  | binary (code : BinaryCode)
  | unary (code : UnaryCode)
  /-- Compares two composite values of `size` slots each. -/
  | equalTT (size : Int)
  | notEqualTT (size : Int)
  | jump (code : JumpCode)
  | retn
  /-- Calls an engine routine with its arguments on the stack. -/
  | action (routine : UInt16) (argc : UInt8)
  /-- Takes a snapshot of the globals and of the topmost slots for the command that follows. The
  next `action` gets it. -/
  | storeState (globals locals : Int)
deriving DecidableEq

namespace Op

/-- Whether the instruction has a destination. -/
def isJump : Op → Bool
  | .jump _ => true
  | _ => false

/-- Equality of instructions, with the operands of `constF` compared as numbers. -/
def equals : Op → Op → Bool
  | .constF x, .constF y => x.equals y
  | a, b => a == b

/-- The instruction that pushes a number, text or handle; a vector takes three. -/
def pushing : Value → List Op
  | .int n => [.constI n]
  | .float x => [.constF x]
  | .string s => [.constS s]
  | .object handle => [.constO handle]
  | .vector x y z => [.constF x, .constF y, .constF z]

end Op

end NwScript
