-- The items of a script file.
import NwScript.Script.Stmt

namespace NwScript

structure Param where
  ty : Ty
  name : Name
  /-- The value of an argument that is left out. -/
  default : Option Expr := none

structure Signature where
  returnType : Ty
  name : Name
  params : List Param

structure FunctionDef where
  signature : Signature
  body : List Stmt

structure Field where
  ty : Ty
  name : Name

structure StructDef where
  name : Name
  fields : List Field

structure GlobalDef where
  const : Bool
  ty : Ty
  name : Name
  init : Option Expr := none

inductive Item where
  /-- A directive that asks for the items of another file. -/
  | include (name : String)
  | global (g : GlobalDef)
  | struct (s : StructDef)
  /-- A function that is announced without its body. -/
  | prototype (s : Signature)
  | function (f : FunctionDef)

/-- A script file. -/
abbrev Script := List Item

end NwScript
