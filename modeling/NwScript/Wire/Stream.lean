-- Instructions and streams as bytes.
import NwScript.Machine.Mnemonic
import NwScript.Machine.Stream
import NwScript.Wire.Script

namespace NwScript

open Wire

namespace SlotKind

/-- The tag of the instruction that reserves a slot of the kind. -/
def tag : SlotKind → Nat
  | .int => 1
  | .float => 2
  | .string => 3
  | .object => 4
  | .effect => 5
  | .event => 6
  | .location => 7
  | .talent => 8

end SlotKind

namespace BinaryCode

def tag : BinaryCode → Nat
  | .addII => 24
  | .addIF => 25
  | .addFI => 26
  | .addFF => 27
  | .addSS => 28
  | .addVV => 29
  | .subII => 30
  | .subIF => 31
  | .subFI => 32
  | .subFF => 33
  | .subVV => 34
  | .mulII => 35
  | .mulIF => 36
  | .mulFI => 37
  | .mulFF => 38
  | .mulVF => 39
  | .mulFV => 40
  | .divII => 41
  | .divIF => 42
  | .divFI => 43
  | .divFF => 44
  | .divVF => 45
  | .modII => 46
  | .equalII => 49
  | .equalFF => 50
  | .equalSS => 51
  | .equalOO => 52
  | .notEqualII => 54
  | .notEqualFF => 55
  | .notEqualSS => 56
  | .notEqualOO => 57
  | .gtII => 59
  | .gtFF => 60
  | .ltII => 61
  | .ltFF => 62
  | .geqII => 63
  | .geqFF => 64
  | .leqII => 65
  | .leqFF => 66
  | .logAndII => 67
  | .logOrII => 68
  | .inclOrII => 69
  | .exclOrII => 70
  | .boolAndII => 71
  | .shLeftII => 72
  | .shRightII => 73
  | .ushRightII => 74

end BinaryCode

def UnaryCode.tag : UnaryCode → Nat
  | .negI => 47
  | .negF => 48
  | .compI => 75
  | .notI => 76

def JumpCode.tag : JumpCode → Nat
  | .jmp => 77
  | .jsr => 78
  | .jz => 79
  | .jnz => 80

namespace Op

/-- The tag of an instruction. -/
def tag : Op → Nat
  | .nop => 0
  | .reserve kind => kind.tag
  | .constI _ => 9
  | .constF _ => 10
  | .constS _ => 11
  | .constO _ => 12
  | .copyDown .sp _ _ => 13
  | .copyTop .sp _ _ => 14
  | .copyDown .bp _ _ => 15
  | .copyTop .bp _ _ => 16
  | .moveSp _ => 17
  | .step .inc .sp _ => 18
  | .step .dec .sp _ => 19
  | .step .inc .bp _ => 20
  | .step .dec .bp _ => 21
  | .saveBp => 22
  | .restoreBp => 23
  | .binary code => code.tag
  | .unary code => code.tag
  | .equalTT _ => 53
  | .notEqualTT _ => 58
  | .jump code => code.tag
  | .retn => 81
  | .action _ _ => 82
  | .storeState _ _ => 83

def encodeOperands : Op → List UInt8
  | .constI n | .constO n => writeInt n.toInt
  | .constF x => x.encode
  | .constS s => writeText s
  | .copyDown _ offset size | .copyTop _ offset size => writeInt offset ++ writeInt size
  | .moveSp n | .step _ _ n | .equalTT n | .notEqualTT n => writeInt n
  | .action routine argc => writeNat routine.toNat ++ [argc]
  | .storeState globals locals => writeInt globals ++ writeInt locals
  | _ => []

def encode (op : Op) : List UInt8 := writeNat op.tag ++ op.encodeOperands

/-- The instruction without operands that has a tag. -/
def ofPlainTag? (n : Nat) : Option Op := plain.find? (·.tag == n)

/-- Reads the operands that go with a tag. -/
def operandReader : Nat → Reader Op
  | 9 => return .constI (.ofInt (← readInt))
  | 10 => return .constF (← Binary32.reader)
  | 11 => return .constS (← readText)
  | 12 => return .constO (.ofInt (← readInt))
  | 13 => return .copyDown .sp (← readInt) (← readInt)
  | 14 => return .copyTop .sp (← readInt) (← readInt)
  | 15 => return .copyDown .bp (← readInt) (← readInt)
  | 16 => return .copyTop .bp (← readInt) (← readInt)
  | 17 => return .moveSp (← readInt)
  | 18 => return .step .inc .sp (← readInt)
  | 19 => return .step .dec .sp (← readInt)
  | 20 => return .step .inc .bp (← readInt)
  | 21 => return .step .dec .bp (← readInt)
  | 53 => return .equalTT (← readInt)
  | 58 => return .notEqualTT (← readInt)
  | 82 => return .action (.ofNat (← readNat .word16)) (← byte)
  | 83 => return .storeState (← readInt) (← readInt)
  | n => match ofPlainTag? n with
    | some op => return op
    | none => throw .badTag

def reader : Reader Op := do operandReader (← readNat .word32)

end Op

namespace Instruction

def encode (i : Instruction) : List UInt8 :=
  writeNat i.handle ++ i.op.encode ++ writeOption writeNat i.target

def reader : Reader Instruction := do
  let handle ← readNat .word32
  let op ← Op.reader
  let target ← readOption (readNat .word32)
  return { handle, op, target }

end Instruction

namespace Stream

def encode (s : Stream) : List UInt8 := writeList Instruction.encode s.code ++ writeNat s.next

def reader : Reader Stream := do
  let code ← readList Instruction.reader
  let next ← readNat .word32
  return { code, next }

end Stream

end NwScript
