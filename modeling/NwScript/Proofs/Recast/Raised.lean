-- Expressions with more temporaries below them: the same code, where whatever is found from the top
-- of the stack is that much further down.
import NwScript.Proofs.Recast.Expr

namespace NwScript

namespace Recast

/-- Only the temporaries of the innermost block are more. -/
def raising (k : Int) : Recast := ⟨0, id, Function.injective_id, k⟩

section Raising

variable (k : Int)

@[simp] theorem raising_name : (raising k).name = id := rfl

@[simp] theorem raising_raised : (raising k).raised = k := rfl

@[simp] theorem handle_raising : (raising k).handle = id := rfl

@[simp] theorem value_raising : (raising k).value = id := rfl

@[simp] theorem global_raising : (raising k).global = id := rfl

@[simp] theorem block_raising : (raising k).block = id := by
  funext b
  simp [block]

@[simp] theorem function_raising : (raising k).function = id := by
  funext f
  simp [function]

@[simp] theorem entry_raising : (raising k).entry = id := by
  funext f
  simp [entry]

end Raising

end Recast

/-- The instruction with `k` more temporaries under it: an offset from the top of the stack is
smaller by `k`, and a snapshot takes `k` more slots of the frame. -/
def Instruction.under (k : Int) (i : Instruction) : Instruction :=
  { i with op := (Recast.raising k).op i.op }

namespace Codegen

namespace Asking

/-- A global, and a routine that takes a number and a command. -/
def env : Env where
  engine := { routines := [⟨.int, "Ask", [⟨.int, "n", none⟩, ⟨.action, "command", none⟩]⟩] }
  globals := [⟨"total", .int, false⟩]
  sealed := true

/-- Its instructions with `k` temporaries under them. The global stays where it is. -/
def ops (k : Int) : List Op :=
  [.copyTop .sp (-1 - k) 1, .step .inc .sp (-2 - k), .storeState 1 (2 + k), .jump .jmp,
   .copyTop .bp (-1) 1, .copyDown .sp (-3 - k) 1, .moveSp (-1), .retn, .nop, .action 0 2]

def start : State := ⟨{}, { block := { values := [⟨"n", .int⟩] } }, []⟩

end Asking

end Codegen

end NwScript
