-- A stream as text, one instruction a line. Jumps show where they land, and whatever is jumped to
-- is marked.
import NwScript.Machine.Mnemonic
import NwScript.Machine.Stream

namespace NwScript

namespace Listing

/-- Fills up with blanks on the right. -/
def padded (width : Nat) (s : String) : String :=
  s ++ String.ofList (List.replicate (width - s.length) ' ')

/-- A position in at least four digits. -/
def position (n : Nat) : String :=
  let digits := decimalDigits n
  String.ofList (List.replicate (4 - digits.length) '0' ++ digits)

/-- The operands of an instruction, if it has any. -/
def operands : Op → Option String
  | .constI n | .constO n => some (toString n.toInt)
  | .constF x => some x.text
  | .constS s => some (Text.quoted s)
  | .copyDown _ offset size | .copyTop _ offset size => some s!"{offset}, {size}"
  | .moveSp n | .step _ _ n | .equalTT n | .notEqualTT n => some (toString n)
  | .action routine argc => some s!"{routine.toNat}, {argc.toNat}"
  | .storeState globals locals => some s!"{globals}, {locals}"
  | _ => none

/-- Where the instruction of a handle stands, the last one if there are several. -/
def place? (s : Stream) (h : Handle) : Option Nat :=
  (s.code.zipIdx.reverse.find? (·.1.handle == h)).map (·.2)

/-- The positions that some instruction jumps to. -/
def destinations (s : Stream) : List Nat :=
  s.code.filterMap fun i => i.target.bind (place? s)

/-- One instruction at its position. -/
def instruction (s : Stream) (index : Nat) (i : Instruction) : String :=
  let name := i.op.mnemonic
  if i.op.isJump then
    match i.target.bind (place? s) with
    | some place =>
      let arrow := if place ≤ index then "↑" else "↓"
      s!"{padded 11 name} {position place} {arrow}"
    | none => s!"{padded 11 name} ????"
  else match operands i.op with
    | some text => s!"{padded 11 name} {text}"
    | none => name

/-- The line that stands above whatever is jumped to. -/
def rule : String := "      ┌──────────────────────────────────\n"

/-- The line of an instruction, with a rule above it and a mark in front if it is jumped to. -/
def line (s : Stream) (marked : List Nat) (index : Nat) (i : Instruction) : String :=
  if marked.contains index then
    rule ++ s!"{position index} ► {instruction s index i}\n"
  else s!"{position index}   {instruction s index i}\n"

def header (s : Stream) : String := s!"=== NCS ({s.code.length} instructions) ===\n"

end Listing

/-- The whole stream as text. -/
def Stream.listing (s : Stream) : String :=
  let marked := Listing.destinations s
  let lines := s.code.zipIdx.map fun (i, index) => Listing.line s marked index i
  String.join (Listing.header s :: lines)

end NwScript
