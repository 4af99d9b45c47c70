-- The byte format in which finished streams are handed on: numbers seven bits to a byte, signed
-- numbers folded onto the natural ones, texts and lists after their length, choices as tags.

namespace NwScript.Wire

/-! ## Reading -/

/-- Why bytes cannot be read. -/
inductive DecodeError where
  | unexpectedEnd
  | badVarint
  | badBool
  | badOption
  | badUtf8
  /-- A tag that stands for nothing. -/
  | badTag
deriving DecidableEq

def DecodeError.message : DecodeError → String
  | .unexpectedEnd => "Hit the end of buffer, expected more data"
  | .badVarint => "Found a varint that didn't terminate. Is the usize too big for this platform?"
  | .badBool => "Found a bool that wasn't 0 or 1"
  | .badOption => "Found an Option discriminant that wasn't 0 or 1"
  | .badUtf8 => "Tried to parse invalid utf-8"
  | .badTag => "Serde Deserialization Error"

/-- A reader takes what it needs from the front of the bytes and leaves the rest. -/
abbrev Reader := StateT (List UInt8) (Except DecodeError)

/-- What a reader makes of the front of some bytes. Bytes that are left over do not matter. -/
def Reader.decode {α : Type} (r : Reader α) (bytes : List UInt8) : Except DecodeError α :=
  (r.run bytes).map (·.1)

/-- The next byte. -/
def byte : Reader UInt8 := fun
  | b :: rest => .ok (b, rest)
  | [] => .error .unexpectedEnd

/-- The next `n` bytes. -/
def bytes (n : Nat) : Reader (List UInt8) := fun input =>
  if n ≤ input.length then .ok (input.splitAt n) else .error .unexpectedEnd

/-! ## Numbers -/

/-- Seven bits to a byte, lowest first; the top bit says that more follow. -/
def writeNat (n : Nat) : List UInt8 :=
  if n < 128 then [n.toUInt8] else (n % 128 + 128).toUInt8 :: writeNat (n / 128)
termination_by n

/-- How far a number may reach: how many bytes, and what the last of them stays below. -/
structure Width where
  bytes : Nat
  lastBelow : Nat

namespace Width

def word16 : Width := ⟨3, 4⟩

def word32 : Width := ⟨5, 16⟩

def word64 : Width := ⟨10, 2⟩

end Width

/-- Reads a number of at most `more` bytes. -/
def readGroups (lastBelow : Nat) : Nat → Reader Nat
  | 0 => throw .badVarint
  | more + 1 => do
    let b ← byte
    if b.toNat < 128 then
      if more = 0 ∧ lastBelow ≤ b.toNat then throw .badVarint else return b.toNat
    else
      return b.toNat - 128 + 128 * (← readGroups lastBelow more)

/-- Reads a number. Needless zeros at its upper end are accepted as far as the width goes. -/
def readNat (width : Width) : Reader Nat := readGroups width.lastBelow width.bytes

/-- The signed numbers in the order 0, -1, 1, -2, 2 and so on. -/
def fold : Int → Nat
  | .ofNat n => 2 * n
  | .negSucc n => 2 * n + 1

def unfold (n : Nat) : Int := if n % 2 = 0 then .ofNat (n / 2) else .negSucc (n / 2)

theorem unfold_fold (n : Int) : unfold (fold n) = n := by
  cases n with
  | ofNat n => simp [fold, unfold]
  | negSucc n =>
    have h : (2 * n + 1) % 2 = 1 := by omega
    have h' : (2 * n + 1) / 2 = n := by omega
    simp [fold, unfold, h, h']

def writeInt (n : Int) : List UInt8 := writeNat (fold n)

def readInt : Reader Int := unfold <$> readNat .word32

/-- Four bytes, lowest first. -/
def writeWord (w : UInt32) : List UInt8 :=
  [w.toUInt8, (w >>> 8).toUInt8, (w >>> 16).toUInt8, (w >>> 24).toUInt8]

def readWord : Reader UInt32 := fun
  | a :: b :: c :: d :: rest =>
    .ok (a.toUInt32 ||| b.toUInt32 <<< 8 ||| c.toUInt32 <<< 16 ||| d.toUInt32 <<< 24, rest)
  | _ => .error .unexpectedEnd

/-! ## Choices, texts and lists -/

def writeBool (b : Bool) : List UInt8 := [if b then 1 else 0]

def readBool : Reader Bool := do
  match ← byte with
  | 0 => return false
  | 1 => return true
  | _ => throw .badBool

def writeOption {α : Type} (write : α → List UInt8) : Option α → List UInt8
  | none => [0]
  | some a => 1 :: write a

def readOption {α : Type} (read : Reader α) : Reader (Option α) := do
  match ← byte with
  | 0 => return none
  | 1 => return some (← read)
  | _ => throw .badOption

def writeText (s : String) : List UInt8 :=
  let utf8 := s.toUTF8.data.toList
  writeNat utf8.length ++ utf8

def readText : Reader String := do
  let utf8 ← bytes (← readNat .word64)
  match String.fromUTF8? ⟨utf8.toArray⟩ with
  | some s => return s
  | none => throw .badUtf8

def writeList {α : Type} (write : α → List UInt8) (xs : List α) : List UInt8 :=
  writeNat xs.length ++ xs.flatMap write

/-- Reads `n` elements in a row. -/
def readMany {α : Type} (read : Reader α) : Nat → Reader (List α)
  | 0 => return []
  | n + 1 => do
    let x ← read
    let xs ← readMany read n
    return x :: xs

def readList {α : Type} (read : Reader α) : Reader (List α) := do
  readMany read (← readNat .word64)

end NwScript.Wire
