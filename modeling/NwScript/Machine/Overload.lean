-- Which instruction carries out an operator on operands of given types.
import NwScript.Machine.Op

namespace NwScript

/-! ## What an instruction takes and gives -/

namespace BinaryCode

/-- The type of the left operand. -/
def lhs : BinaryCode → Ty
  | .addIF | .subIF | .mulIF | .divIF => .int
  | .addFI | .addFF | .subFI | .subFF | .mulFI | .mulFF | .mulFV | .divFI | .divFF => .float
  | .addSS | .equalSS | .notEqualSS => .string
  | .addVV | .subVV | .mulVF | .divVF => .vector
  | .equalFF | .notEqualFF | .gtFF | .ltFF | .geqFF | .leqFF => .float
  | .equalOO | .notEqualOO => .object
  | _ => .int

/-- The type of the right operand. -/
def rhs : BinaryCode → Ty
  | .addFI | .subFI | .mulFI | .divFI => .int
  | .addIF | .addFF | .subIF | .subFF | .mulIF | .mulFF | .mulVF => .float
  | .divIF | .divFF | .divVF => .float
  | .addSS | .equalSS | .notEqualSS => .string
  | .addVV | .subVV | .mulFV => .vector
  | .equalFF | .notEqualFF | .gtFF | .ltFF | .geqFF | .leqFF => .float
  | .equalOO | .notEqualOO => .object
  | _ => .int

/-- The type of the result. -/
def result : BinaryCode → Ty
  | .addIF | .addFI | .addFF | .subIF | .subFI | .subFF => .float
  | .mulIF | .mulFI | .mulFF | .divIF | .divFI | .divFF => .float
  | .addVV | .subVV | .mulVF | .mulFV | .divVF => .vector
  | .addSS => .string
  | _ => .int

end BinaryCode

/-- The type of the operand and of the result. -/
def UnaryCode.operand : UnaryCode → Ty
  | .negF => .float
  | _ => .int

/-! ## What an operator means -/

namespace BinaryOp

/-- The instructions of an operator, one for each pair of operand types. -/
def codes : BinaryOp → List BinaryCode
  | .add => [.addII, .addIF, .addFI, .addFF, .addVV, .addSS]
  | .sub => [.subII, .subIF, .subFI, .subFF, .subVV]
  | .mul => [.mulII, .mulIF, .mulFI, .mulFF, .mulVF, .mulFV]
  | .div => [.divII, .divIF, .divFI, .divFF, .divVF]
  | .mod => [.modII]
  | .eq => [.equalII, .equalFF, .equalSS, .equalOO]
  | .notEq => [.notEqualII, .notEqualFF, .notEqualSS, .notEqualOO]
  | .gt => [.gtII, .gtFF]
  | .lt => [.ltII, .ltFF]
  | .gtEq => [.geqII, .geqFF]
  | .ltEq => [.leqII, .leqFF]
  | .and => [.logAndII]
  | .or => [.logOrII]
  | .bitAnd => [.boolAndII]
  | .bitOr => [.inclOrII]
  | .bitXor => [.exclOrII]
  | .shl => [.shLeftII]
  | .shr => [.shRightII]
  | .ushr => [.ushRightII]

/-- The instruction for operands of the given types. -/
def code? (op : BinaryOp) (lhs rhs : Ty) : Option BinaryCode :=
  op.codes.find? fun c => c.lhs == lhs && c.rhs == rhs

/-- The operands that an operator takes, as messages list them. -/
def forms (op : BinaryOp) : List String :=
  op.codes.map fun c => s!"{c.lhs.text} {op.symbol} {c.rhs.text}"

/-- Two values of one composite type are equal if they are equal slot by slot. -/
def composite? (op : BinaryOp) (lhs rhs : Ty) (size : Int) : Option Op :=
  if lhs.composite && lhs == rhs then
    match op with
    | .eq => some (.equalTT size)
    | .notEq => some (.notEqualTT size)
    | _ => none
  else none

end BinaryOp

namespace UnaryOp

/-- The instructions of an operator, one for each type of its operand. -/
def codes : UnaryOp → List UnaryCode
  | .neg => [.negI, .negF]
  | .not => [.notI]
  | .bitNot => [.compI]

/-- The instruction for an operand of the given type. -/
def code? (op : UnaryOp) (operand : Ty) : Option UnaryCode :=
  op.codes.find? (·.operand == operand)

/-- The operands that an operator takes, as messages list them. -/
def forms (op : UnaryOp) : List String := op.codes.map fun c => op.symbol ++ c.operand.text

end UnaryOp

end NwScript
