-- Structs and their layouts. The members of a struct are of types that were known before it, so a
-- layout is fixed once and for all when the struct is defined.
import NwScript.Report.Event
import NwScript.Machine.Count
import NwScript.Machine.Op
import NwScript.Script.Item

namespace NwScript

/-- A member at its place in the struct. -/
structure Member where
  name : Name
  ty : Ty
  /-- The slots of the members before it. -/
  offset : Nat
deriving DecidableEq

/-- Where the members of a struct stand, in the order of their declaration. -/
structure Layout where
  name : Name
  members : List Member
  size : Nat
deriving DecidableEq

namespace Layout

def memberNames (l : Layout) : List Name := l.members.map (·.name)

def member (l : Layout) (name : Name) : Except Failure Member :=
  match l.members.find? (·.name == name) with
  | some m => .ok m
  | none => .error (.semantic (.unknownMember (Ty.struct l.name).text name l.memberNames))

end Layout

/-- The structs of a script, the newest first. -/
structure Structs where
  layouts : List Layout := []
deriving DecidableEq

namespace Structs

/-! ## Looking up -/

def find? (s : Structs) (name : Name) : Option Layout := s.layouts.find? (·.name == name)

def contains (s : Structs) (name : Name) : Bool := (s.find? name).isSome

/-- Refuses a struct type that was never defined. -/
def check (s : Structs) : Ty → Except Failure Unit
  | .struct name => if s.contains name then .ok () else .error (.semantic (.unknownStruct name))
  | _ => .ok ()

def size (s : Structs) (name : Name) : Except Failure Nat :=
  match s.find? name with
  | some l => .ok l.size
  | none => .error (.internal (.sizeOfUndefinedStruct name))

/-- How many slots a value of a type takes. -/
def sizeOf (s : Structs) : Ty → Except Failure Nat
  | .struct name => s.size name
  | ty => .ok (ty.builtinSize.getD 0)

def layout (s : Structs) (name : Name) : Except Failure Layout :=
  match s.find? name with
  | some l => .ok l
  | none => .error (.semantic (.unknownStruct name))

def memberOffset (s : Structs) (struct member : Name) : Except Failure Nat := do
  return (← (← s.layout struct).member member).offset

def memberType (s : Structs) (struct member : Name) : Except Failure Ty := do
  return (← (← s.layout struct).member member).ty

/-! ## Defining -/

/-- Places fields one after another behind the members that are already there. -/
def place (s : Structs) (struct : Name) :
    List Member → Nat → List Field → Except Failure Layout
  | members, offset, [] => .ok ⟨struct, members, offset⟩
  | members, offset, field :: rest => do
    unless field.ty.storable do throw (.semantic (.unstorable field.name field.ty))
    if members.any (·.name == field.name) then
      throw (.semantic (.duplicateMember struct field.name))
    s.check field.ty
    let size ← s.sizeOf field.ty
    s.place struct (members ++ [⟨field.name, field.ty, offset⟩]) (← Count.sum offset size) rest

/-- The layout of a new struct. -/
def layOut (s : Structs) (d : StructDef) : Except Failure Layout := do
  if d.fields.isEmpty then throw (.semantic (.emptyStruct d.name))
  if s.contains d.name then throw (.semantic (.duplicateStruct d.name))
  s.place d.name [] 0 d.fields

/-- Adds a struct, and reports its size. -/
def define (d : StructDef) : EStateM Failure Structs Event := do
  let s ← get
  match s.layOut d with
  | .ok l =>
    set (⟨l :: s.layouts⟩ : Structs)
    return .structDefined l.name l.size
  | .error e => throw e

/-! ## Reserving -/

/-- The slots of a type, lowest first, where `struct` gives those of a struct. -/
def slotsWith (struct : Name → Except Failure (List SlotKind)) :
    Ty → Except Failure (List SlotKind)
  | .struct name => struct name
  | ty => .ok (ty.builtinSlots.getD [])

/-- The slots of a struct: those of its members in a row. The members of a struct are looked up
among the structs that are older than itself. -/
def structSlots : List Layout → Name → Except Failure (List SlotKind)
  | [], name => .error (.internal (.initializingUndefinedStruct name))
  | l :: older, name =>
    if l.name = name then do
      let slots ← l.members.mapM fun m => slotsWith (fun n => structSlots older n) m.ty
      return slots.flatten
    else structSlots older name

/-- The slots of a type, lowest first. -/
def slots (s : Structs) (ty : Ty) : Except Failure (List SlotKind) :=
  slotsWith (structSlots s.layouts) ty

/-- The instructions that push a zeroed struct. -/
def zeroed (s : Structs) (name : Name) : Except Failure (List Op) := do
  return (← structSlots s.layouts name).map .reserve

/-- The instructions that push a zeroed value of a type. -/
def reserve (s : Structs) (ty : Ty) : Except Failure (List Op) := do
  return (← s.slots ty).map .reserve

end Structs

end NwScript
