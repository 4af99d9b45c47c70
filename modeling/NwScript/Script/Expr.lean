-- Expressions: every expression leaves exactly one value on the stack, of no slots at all for a
-- call that returns nothing.
import NwScript.Script.Value

namespace NwScript

/-! ## Operators -/

inductive BinaryOp where
  | add
  | sub
  | mul
  | div
  | mod
  | eq
  | notEq
  | gt
  | lt
  | gtEq
  | ltEq
  /-- Both sides are always evaluated. -/
  | and
  /-- Both sides are always evaluated. -/
  | or
  | bitAnd
  | bitOr
  | bitXor
  | shl
  | shr
  /-- The shift that fills with zeros. -/
  | ushr
deriving DecidableEq

namespace BinaryOp

def all : List BinaryOp :=
  [.add, .sub, .mul, .div, .mod, .eq, .notEq, .gt, .lt, .gtEq, .ltEq, .and, .or, .bitAnd, .bitOr,
   .bitXor, .shl, .shr, .ushr]

def symbol : BinaryOp → String
  | .add => "+"
  | .sub => "-"
  | .mul => "*"
  | .div => "/"
  | .mod => "%"
  | .eq => "=="
  | .notEq => "!="
  | .gt => ">"
  | .lt => "<"
  | .gtEq => ">="
  | .ltEq => "<="
  | .and => "&&"
  | .or => "||"
  | .bitAnd => "&"
  | .bitOr => "|"
  | .bitXor => "^"
  | .shl => "<<"
  | .shr => ">>"
  | .ushr => ">>>"

/-- The operator that is written with a symbol. -/
def ofSymbol? (s : String) : Option BinaryOp := all.find? (·.symbol == s)

end BinaryOp

inductive UnaryOp where
  | neg
  | not
  | bitNot
deriving DecidableEq

namespace UnaryOp

def all : List UnaryOp := [.neg, .not, .bitNot]

def symbol : UnaryOp → String
  | .neg => "-"
  | .not => "!"
  | .bitNot => "~"

/-- The operator that is written with a symbol. -/
def ofSymbol? (s : String) : Option UnaryOp := all.find? (·.symbol == s)

end UnaryOp

/-- How an assignment combines the old value with the new one. -/
inductive AssignOp where
  | set
  | add
  | sub
  | mul
  | div
deriving DecidableEq

namespace AssignOp

def all : List AssignOp := [.set, .add, .sub, .mul, .div]

def symbol : AssignOp → String
  | .set => "="
  | .add => "+="
  | .sub => "-="
  | .mul => "*="
  | .div => "/="

/-- The operator that is written with a symbol. -/
def ofSymbol? (s : String) : Option AssignOp := all.find? (·.symbol == s)

/-- The operator that a compound assignment applies. -/
def arithmetic : AssignOp → Option BinaryOp
  | .set => none
  | .add => some .add
  | .sub => some .sub
  | .mul => some .mul
  | .div => some .div

end AssignOp

/-- A step of one up or down. -/
inductive StepOp where
  | inc
  | dec
deriving DecidableEq

namespace StepOp

def symbol : StepOp → String
  | .inc => "++"
  | .dec => "--"

/-- The operator that is written with a symbol. -/
def ofSymbol? (s : String) : Option StepOp := [inc, dec].find? (·.symbol == s)

end StepOp

/-- Whether a stepped variable is read after the step or before it. -/
inductive Fix where
  | pre
  | post
deriving DecidableEq

/-! ## Member chains -/

/-- A variable with the members taken of it: `a`, `a.b.c`, `v.x`. -/
structure Access where
  head : Name
  members : List Name := []
deriving DecidableEq

namespace Access

/-- The bare name, if no member is taken. -/
def identifier? (a : Access) : Option Name := if a.members.isEmpty then some a.head else none

def text (a : Access) : String := ".".intercalate (a.head :: a.members)

end Access

/-! ## Expressions -/

inductive Expr where
  | literal (value : Value)
  /-- A vector made of three floats. -/
  | vector (x y z : Expr)
  | access (path : Access)
  | assign (op : AssignOp) (target : Access) (value : Expr)
  | binary (op : BinaryOp) (lhs rhs : Expr)
  | unary (op : UnaryOp) (operand : Expr)
  | step (op : StepOp) (fix : Fix) (target : Access)
  /-- A call of a script function or of an engine routine. -/
  | call (name : Name) (args : List Expr)

end NwScript
