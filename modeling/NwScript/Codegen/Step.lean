-- The steps that code generation is made of. Whatever a step has done stays done when a later one
-- fails.
import NwScript.Storage.Scope
import NwScript.Machine.Stream

namespace NwScript

/-- What a compilation has brought forth so far. -/
structure Emission where
  stream : Stream := {}
  events : List Event := []

/-- Runs a step on a part of a state. What it has done to the part stays done if it fails. -/
def focus {ε σ τ α : Type} (part : σ → τ) (withPart : σ → τ → σ) (step : EStateM ε τ α) :
    EStateM ε σ α := fun s =>
  match step (part s) with
  | .ok a t => .ok a (withPart s t)
  | .error e t => .error e (withPart s t)

namespace Codegen

structure State where
  out : Emission
  scope : Scope
  /-- The script functions that some call in the code refers to. -/
  marks : List Name := []

end Codegen

/-- A step of code generation. -/
abbrev Gen := EStateM Failure Codegen.State

namespace Codegen

/-! ## Failing -/

def lift {α : Type} : Except Failure α → Gen α
  | .ok a => pure a
  | .error e => throw e

def mistake {α : Type} (m : Mistake) : Gen α := throw (.semantic m)

/-! ## Emitting -/

/-- Changes the stream. -/
def edit {α : Type} (e : Edit α) : Gen α :=
  focus (·.out.stream) (fun s stream => { s with out := { s.out with stream } }) e

/-- A new instruction at the end. -/
def add (op : Op) : Gen Handle := edit (Stream.add op)

def emit (op : Op) : Gen Unit := do
  let _ ← add op

def emitAll : List Op → Gen Unit
  | [] => return
  | op :: rest => do
    emit op
    emitAll rest

/-- A new jump at the end. -/
def jump (code : JumpCode) (target : Handle) : Gen Unit := do
  let _ ← edit (Stream.add (.jump code) target)

/-- A new instruction that gets its place later. -/
def detached (op : Op) : Gen Instruction := edit (Stream.detached op)

/-- A new place to jump to. -/
def label : Gen Instruction := detached .nop

def place (i : Instruction) : Gen Unit := do
  let _ ← edit (Stream.push i)

/-! ## Reporting -/

def report (e : Event) : Gen Unit :=
  modify fun s => { s with out := { s.out with events := s.out.events ++ [e] } }

def markCalled (name : Name) : Gen Unit :=
  modify fun s => { s with marks := s.marks.insert name }

/-! ## The scope -/

def scope : Gen Scope := return (← get).scope

def setBlock (b : Block) : Gen Unit :=
  modify fun s => { s with scope := { s.scope with block := b } }

/-- Counts slots that were pushed onto the stack, or popped from it if negative. -/
def grow (slots : Int) : Gen Unit := do
  let b := (← scope).block
  setBlock { b with temps := ← lift (Count.checked (b.temps + slots)) }

/-- Runs a step in a new block inside the current one, which stays as it is. -/
def within {α : Type} (b : Block) (step : Gen α) : Gen α := fun s =>
  match step { s with scope := s.scope.child b } with
  | .ok a t => .ok a { t with scope := s.scope }
  | .error e t => .error e { t with scope := s.scope }

def sizeOf (env : Env) (ty : Ty) : Gen Nat := lift (env.sizeOf ty)

/-- Pops slots. -/
def pop (size : Int) : Gen Unit := do
  emit (.moveSp (← lift (Count.checked (-size))))

end Codegen

end NwScript
