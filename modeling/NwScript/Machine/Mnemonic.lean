-- The names of the instructions.
import NwScript.Machine.Op

namespace NwScript

namespace BinaryCode

def all : List BinaryCode :=
  [.addII, .addIF, .addFI, .addFF, .addSS, .addVV, .subII, .subIF, .subFI, .subFF, .subVV, .mulII,
   .mulIF, .mulFI, .mulFF, .mulVF, .mulFV, .divII, .divIF, .divFI, .divFF, .divVF, .modII, .equalII,
   .equalFF, .equalSS, .equalOO, .notEqualII, .notEqualFF, .notEqualSS, .notEqualOO, .gtII, .gtFF,
   .ltII, .ltFF, .geqII, .geqFF, .leqII, .leqFF, .logAndII, .logOrII, .inclOrII, .exclOrII,
   .boolAndII, .shLeftII, .shRightII, .ushRightII]

def mnemonic : BinaryCode → String
  | .addII => "ADDII"
  | .addIF => "ADDIF"
  | .addFI => "ADDFI"
  | .addFF => "ADDFF"
  | .addSS => "ADDSS"
  | .addVV => "ADDVV"
  | .subII => "SUBII"
  | .subIF => "SUBIF"
  | .subFI => "SUBFI"
  | .subFF => "SUBFF"
  | .subVV => "SUBVV"
  | .mulII => "MULII"
  | .mulIF => "MULIF"
  | .mulFI => "MULFI"
  | .mulFF => "MULFF"
  | .mulVF => "MULVF"
  | .mulFV => "MULFV"
  | .divII => "DIVII"
  | .divIF => "DIVIF"
  | .divFI => "DIVFI"
  | .divFF => "DIVFF"
  | .divVF => "DIVVF"
  | .modII => "MODII"
  | .equalII => "EQUALII"
  | .equalFF => "EQUALFF"
  | .equalSS => "EQUALSS"
  | .equalOO => "EQUALOO"
  | .notEqualII => "NEQUALII"
  | .notEqualFF => "NEQUALFF"
  | .notEqualSS => "NEQUALSS"
  | .notEqualOO => "NEQUALOO"
  | .gtII => "GTII"
  | .gtFF => "GTFF"
  | .ltII => "LTII"
  | .ltFF => "LTFF"
  | .geqII => "GEQII"
  | .geqFF => "GEQFF"
  | .leqII => "LEQII"
  | .leqFF => "LEQFF"
  | .logAndII => "LOGANDII"
  | .logOrII => "LOGORII"
  | .inclOrII => "INCORII"
  | .exclOrII => "EXCORII"
  | .boolAndII => "BOOLANDII"
  | .shLeftII => "SHLEFTII"
  | .shRightII => "SHRIGHTII"
  | .ushRightII => "USHRIGHTII"

end BinaryCode

namespace UnaryCode

def all : List UnaryCode := [.negI, .negF, .compI, .notI]

def mnemonic : UnaryCode → String
  | .negI => "NEGI"
  | .negF => "NEGF"
  | .compI => "COMPI"
  | .notI => "NOTI"

end UnaryCode

namespace JumpCode

def all : List JumpCode := [.jmp, .jsr, .jz, .jnz]

def mnemonic : JumpCode → String
  | .jmp => "JMP"
  | .jsr => "JSR"
  | .jz => "JZ"
  | .jnz => "JNZ"

end JumpCode

def Anchor.letters : Anchor → String
  | .sp => "SP"
  | .bp => "BP"

namespace Op

def mnemonic : Op → String
  | .nop => "NOP"
  | .reserve kind => "RSADD" ++ kind.letters
  | .constI _ => "CONSTI"
  | .constF _ => "CONSTF"
  | .constS _ => "CONSTS"
  | .constO _ => "CONSTO"
  | .copyDown anchor _ _ => "CPDOWN" ++ anchor.letters
  | .copyTop anchor _ _ => "CPTOP" ++ anchor.letters
  | .moveSp _ => "MOVSP"
  | .step .inc anchor _ => "INCI" ++ anchor.letters
  | .step .dec anchor _ => "DECI" ++ anchor.letters
  | .saveBp => "SAVEBP"
  | .restoreBp => "RESTOREBP"
  | .binary code => code.mnemonic
  | .unary code => code.mnemonic
  | .equalTT _ => "EQUALTT"
  | .notEqualTT _ => "NEQUALTT"
  | .jump code => code.mnemonic
  | .retn => "RETN"
  | .action _ _ => "ACTION"
  | .storeState _ _ => "STORE_STATE"

/-- The instructions without operands. -/
def plain : List Op :=
  [.nop, .saveBp, .restoreBp, .retn] ++ SlotKind.all.map .reserve ++ BinaryCode.all.map .binary ++
    UnaryCode.all.map .unary ++ JumpCode.all.map .jump

/-- The instruction without operands that a mnemonic stands for. -/
def ofMnemonic? (s : String) : Option Op := plain.find? (·.mnemonic == s)

end Op

end NwScript
