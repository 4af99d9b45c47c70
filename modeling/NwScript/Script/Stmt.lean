-- Statements of a function body.
import NwScript.Script.Expr

namespace NwScript

/-- A variable of a declaration, with the expression that gives its first value. -/
structure Declarator where
  name : Name
  init : Option Expr := none

/-- What selects an arm of a switch. -/
inductive SwitchLabel where
  | case (value : Expr)
  | default

inductive Stmt where
  /-- An expression whose value is dropped. -/
  | expr (e : Expr)
  | declare (ty : Ty) (declarators : List Declarator)
  | block (body : List Stmt)
  | ifElse (condition : Expr) (onTrue : List Stmt) (onFalse : Option (List Stmt))
  | whileLoop (condition : Expr) (body : List Stmt)
  | doWhile (body : List Stmt) (condition : Expr)
  | forLoop (init condition step : Option Expr) (body : List Stmt)
  /-- Each arm has labels and the statements that they select; control falls through into the next
  arm. -/
  | switch (value : Expr) (arms : List (List SwitchLabel × List Stmt))
  | breakOut
  | continueLoop
  | ret (value : Option Expr)

end NwScript
