-- Instruction streams that are edited while they grow. Instructions are referred to by handles, so
-- a jump may be written before its destination has a place, and inserts move nothing out of reach.
import NwScript.Report.Error
import NwScript.Machine.Op

namespace NwScript

structure Instruction where
  handle : Handle
  op : Op
  /-- The destination, of a jump. -/
  target : Option Handle := none
deriving DecidableEq

structure Stream where
  code : List Instruction := []
  /-- The handle that the next instruction gets. -/
  next : Handle := 0
deriving DecidableEq

/-- An edit of a stream. -/
abbrev Edit := EStateM Failure Stream

namespace Stream

/-! ## Growing -/

/-- A new handle. -/
def allocate : Edit Handle := do
  let s ← get
  if s.next < Handle.limit then
    set { s with next := s.next + 1 }
    return s.next
  else throw (.panic .overflow)

/-- A new instruction that has no place yet, such as a label that is jumped to before it is
placed. -/
def detached (op : Op) (target : Option Handle := none) : Edit Instruction := do
  let handle ← allocate
  return ⟨handle, op, target⟩

/-- Places an instruction at the end. -/
def push (i : Instruction) : Edit Handle := do
  modify fun s => { s with code := s.code ++ [i] }
  return i.handle

/-- A new instruction at the end. -/
def add (op : Op) (target : Option Handle := none) : Edit Handle := do
  let i ← detached op target
  push i

/-- A new instruction before the one at an index, or at the end if it is the length. -/
def insert (index : Nat) (op : Op) (target : Option Handle := none) : Edit Handle := do
  let i ← detached op target
  let s ← get
  if index ≤ s.code.length then
    set { s with code := s.code.take index ++ i :: s.code.drop index }
    return i.handle
  else throw (.panic .beyondEnd)

/-! ## Finding -/

/-- Where the instruction of a handle stands, the first one if there are several. -/
def indexOf? (s : Stream) (h : Handle) : Option Nat := s.code.findIdx? (·.handle == h)

/-- Where the jump of an instruction lands. -/
def landing? (s : Stream) (i : Instruction) : Option Nat := i.target.bind s.indexOf?

/-! ## Forks -/

/-- An empty stream that hands out the same handles from here on, for code that is spliced back
in later. -/
def fork (s : Stream) : Stream := ⟨[], s.next⟩

/-- Puts the code of another stream right after a marker. -/
def spliceAfter (marker : Handle) (other : Stream) : Edit Unit := do
  let s ← get
  match s.indexOf? marker with
  | some index => set {
      code := s.code.take (index + 1) ++ other.code ++ s.code.drop (index + 1)
      next := max s.next other.next : Stream }
  | none => throw (.internal (.spliceMarkerMissing marker))

/-- Sets the destination of an instruction. -/
def setTarget (h target : Handle) : Edit Unit := do
  let s ← get
  match s.indexOf? h with
  | some index => set { s with
      code := s.code.modify index fun i => { i with target := some target } }
  | none => throw (.internal (.instructionMissing h))

/-! ## Comparing -/

/-- Equality of streams, with numbers compared as numbers. -/
def equals (s t : Stream) : Bool :=
  s.next == t.next && s.code.length == t.code.length &&
    (s.code.zip t.code).all fun (i, j) =>
      i.handle == j.handle && i.op.equals j.op && i.target == j.target

end Stream

end NwScript
