-- Literal values: what a script can write down and the machine can push.
import NwScript.Number.Text
import NwScript.Text.Quoted
import NwScript.Script.Ty

namespace NwScript

/-- A constant that can be pushed onto the stack. -/
inductive Value where
  | int (n : Int32)
  | float (x : Binary32)
  | string (s : String)
  | object (handle : Int32)
  | vector (x y z : Binary32)
deriving DecidableEq

namespace Value

def ty : Value → Ty
  | .int _ => .int
  | .float _ => .float
  | .string _ => .string
  | .object _ => .object
  | .vector _ _ _ => .vector

/-- Equality of values, numbers compared as numbers: no value with a NaN in it equals itself. -/
def equals : Value → Value → Bool
  | .int a, .int b => a == b
  | .float a, .float b => a.equals b
  | .string a, .string b => a == b
  | .object a, .object b => a == b
  | .vector a b c, .vector x y z => a.equals x && b.equals y && c.equals z
  | _, _ => false

/-- The value as a script would write it. -/
def text : Value → String
  | .int n => toString n.toInt
  | .float x => x.text ++ "f"
  | .string s => Text.quoted s
  | .object handle => "object(" ++ toString handle.toInt ++ ")"
  | .vector x y z => "[" ++ x.text ++ ", " ++ y.text ++ ", " ++ z.text ++ "]"

end Value

end NwScript
