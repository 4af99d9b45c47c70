-- The call of the function that a run starts with.
import NwScript.Build.Session

namespace NwScript

namespace Build

/-- The function that a run starts with, and the one that it starts with otherwise. -/
def mainName : Name := "main"

def conditionalName : Name := "StartingConditional"

/-- Puts an instruction in at the place where calls start. -/
def insertEntry (op : Op) (target : Option Handle) : Build Unit := do
  let _ ← edit (Stream.insert (← get).entryIndex op target)

/-- Calls the function that a run starts with. A conditional leaves its answer on the stack. -/
def trampoline : Build Unit := do
  let s ← get
  match s.env.functions.defined? mainName with
  | some f =>
    insertEntry .retn none
    insertEntry (.jump .jsr) f.entry
    report (.trampolineInserted mainName s.entryIndex)
  | none => match s.env.functions.defined? conditionalName with
    | some f =>
      insertEntry .retn none
      insertEntry (.jump .jsr) f.entry
      insertEntry (.reserve .int) none
      report (.trampolineInserted conditionalName s.entryIndex)
    | none => throw .entryPoint

end Build

end NwScript
