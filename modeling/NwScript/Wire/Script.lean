-- Types, values and options as bytes.
import NwScript.Host.Options
import NwScript.Script.Value
import NwScript.Wire.Basic

namespace NwScript

open Wire

namespace Ty

/-- The tag of a type. -/
def tag : Ty → Nat
  | .int => 0
  | .float => 1
  | .string => 2
  | .object => 3
  | .vector => 4
  | .void => 5
  | .event => 6
  | .talent => 7
  | .location => 8
  | .effect => 9
  | .action => 10
  | .struct _ => 11

def encode (ty : Ty) : List UInt8 :=
  writeNat ty.tag ++ match ty with
    | .struct name => writeText name
    | _ => []

def reader : Reader Ty := do
  match ← readNat .word32 with
  | 0 => return .int
  | 1 => return .float
  | 2 => return .string
  | 3 => return .object
  | 4 => return .vector
  | 5 => return .void
  | 6 => return .event
  | 7 => return .talent
  | 8 => return .location
  | 9 => return .effect
  | 10 => return .action
  | 11 => return .struct (← readText)
  | _ => throw .badTag

end Ty

namespace Binary32

def encode (x : Binary32) : List UInt8 := writeWord x.bits

def reader : Reader Binary32 := Binary32.mk <$> readWord

end Binary32

namespace Value

def encode : Value → List UInt8
  | .int n => writeNat 0 ++ writeInt n.toInt
  | .float x => writeNat 1 ++ x.encode
  | .string s => writeNat 2 ++ writeText s
  | .object handle => writeNat 3 ++ writeInt handle.toInt
  | .vector x y z => writeNat 4 ++ x.encode ++ y.encode ++ z.encode

def reader : Reader Value := do
  match ← readNat .word32 with
  | 0 => return .int (.ofInt (← readInt))
  | 1 => return .float (← Binary32.reader)
  | 2 => return .string (← readText)
  | 3 => return .object (.ofInt (← readInt))
  | 4 => return .vector (← Binary32.reader) (← Binary32.reader) (← Binary32.reader)
  | _ => throw .badTag

end Value

namespace Options

/-- All fields are written, also those that have their usual value. -/
def encode (o : Options) : List UInt8 :=
  writeList writeText o.lookup ++ writeText o.extension ++ writeBool o.lowercaseNames ++
    writeBool o.traceListing

def reader : Reader Options := do
  let lookup ← readList readText
  let extension ← readText
  let lowercaseNames ← readBool
  let traceListing ← readBool
  return { lookup, extension, lowercaseNames, traceListing }

end Options

end NwScript
