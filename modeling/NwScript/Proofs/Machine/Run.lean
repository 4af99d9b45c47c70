-- Runs of the machine on a stream. An instruction either does something to the stack and control
-- goes on behind it, or it jumps to where its destination stands. Calls are not followed.
import NwScript.Proofs.Machine.Cell
import NwScript.Proofs.Machine.Stands

namespace NwScript

/-! ## Steps -/

/-- Where control is, and what is on the stack. -/
structure Config where
  pc : Nat
  stack : List Cell
deriving DecidableEq

/-- Takes an int off the stack. -/
def popInt? (stack : List Cell) : Option (List Cell × Int32) :=
  match splitTop? 1 stack with
  | some (rest, [.int n]) => some (rest, n)
  | _ => none

namespace Stream

/-- A jump that pops an int and is taken if the int is zero, or else if it is not. -/
def branch? (s : Stream) (i : Instruction) (onZero : Bool) (c : Config) : Option Config := do
  let (rest, n) ← popInt? c.stack
  if (n == 0) = onZero then
    let pc ← s.landing? i
    return ⟨pc, rest⟩
  else return ⟨c.pc + 1, rest⟩

/-- One instruction, where the globals end at `base`. -/
def step? (alu : Alu) (base : Nat) (s : Stream) (c : Config) : Option Config := do
  let i ← s.code[c.pc]?
  match i.op with
  | .jump .jmp =>
    let pc ← s.landing? i
    return { c with pc }
  | .jump .jz => s.branch? i true c
  | .jump .jnz => s.branch? i false c
  | op =>
    let stack ← op.effect alu base c.stack
    return ⟨c.pc + 1, stack⟩

/-- Instructions one after another, as far as one likes. -/
inductive Runs (alu : Alu) (base : Nat) (s : Stream) : Config → Config → Prop
  | refl (c : Config) : Runs alu base s c c
  | head {c d e : Config} : s.step? alu base c = some d → Runs alu base s d e → Runs alu base s c e

theorem Runs.trans {alu : Alu} {base : Nat} {s : Stream} {c d e : Config}
    (h : Runs alu base s c d) (h' : Runs alu base s d e) : Runs alu base s c e := by
  induction h with
  | refl => exact h'
  | head hstep _ ih => exact .head hstep (ih h')

/-! ## Stretches of code -/

section Runs

variable {alu : Alu} {base : Nat} {s : Stream} {pc : Nat} {code : List Instruction}
  {i : Instruction} {stack stack' : List Cell}

theorem runs_effect (h : s.Stands pc (i :: code))
    (he : i.op.effect alu base stack = some stack') :
    Runs alu base s ⟨pc, stack⟩ ⟨pc + 1, stack'⟩ := by
  refine .head ?_ (.refl _)
  rw [step?, h.get]
  cases hop : i.op <;> simp_all [Op.effect]

/-- Code without jumps does what its instructions do one after another. -/
theorem runs_effects (h : s.Stands pc code)
    (he : Op.effects alu base (code.map (·.op)) stack = some stack') :
    Runs alu base s ⟨pc, stack⟩ ⟨pc + code.length, stack'⟩ := by
  induction code generalizing pc stack with
  | nil =>
    cases he
    exact .refl _
  | cons i rest ih =>
    obtain ⟨mid, hi, hrest⟩ := Option.bind_eq_some_iff.mp he
    have htail := ih h.tail hrest
    rw [show pc + (i :: rest).length = pc + 1 + rest.length by simp; omega]
    exact (runs_effect h hi).trans htail

theorem runs_nop {h : Handle} {target : Option Handle}
    (hs : s.Stands pc (⟨h, .nop, target⟩ :: code)) :
    Runs alu base s ⟨pc, stack⟩ ⟨pc + 1, stack⟩ := runs_effect hs rfl

theorem runs_jmp {h target : Handle} {there : Nat}
    (hs : s.Stands pc (⟨h, .jump .jmp, some target⟩ :: code))
    (ht : s.indexOf? target = some there) :
    Runs alu base s ⟨pc, stack⟩ ⟨there, stack⟩ := by
  refine .head ?_ (.refl _)
  simp [step?, hs.get, landing?, ht]

theorem popInt?_append {n : Int32} : popInt? (stack ++ [.int n]) = some (stack, n) := by
  simp [popInt?, splitTop?_append (show (1 : Int) = ([.int n] : List Cell).length from rfl)]

theorem runs_jz {h target : Handle} {there : Nat} {n : Int32}
    (hs : s.Stands pc (⟨h, .jump .jz, some target⟩ :: code)) (ht : s.indexOf? target = some there) :
    Runs alu base s ⟨pc, stack ++ [.int n]⟩ ⟨if n = 0 then there else pc + 1, stack⟩ := by
  refine .head ?_ (.refl _)
  by_cases hn : n = 0 <;> simp [step?, hs.get, branch?, popInt?_append, landing?, ht, hn]

theorem runs_jnz {h target : Handle} {there : Nat} {n : Int32}
    (hs : s.Stands pc (⟨h, .jump .jnz, some target⟩ :: code))
    (ht : s.indexOf? target = some there) :
    Runs alu base s ⟨pc, stack ++ [.int n]⟩ ⟨if n = 0 then pc + 1 else there, stack⟩ := by
  refine .head ?_ (.refl _)
  by_cases hn : n = 0 <;> simp [step?, hs.get, branch?, popInt?_append, landing?, ht, hn]

end Runs

end Stream

end NwScript
