-- What statements mean: a statement leads from a store to an outcome and a store. Blocks have their
-- own variables, which are gone when the block is left, in whatever way that happens.
import NwScript.Proofs.Meaning.Expr

namespace NwScript

/-! ## Outcomes -/

/-- How a statement ends. -/
inductive Outcome where
  | normal
  | broke
  | continued
  | returned (value : Option Datum)

namespace Outcome

/-- Whether a loop goes on after its body has ended so. -/
def goesOn : Outcome → Bool
  | .normal | .continued => true
  | .broke | .returned _ => false

/-- How a loop or a switch ends that is left with the outcome of its body. -/
def leaving : Outcome → Outcome
  | .broke => .normal
  | o => o

end Outcome

/-- What is executed: a statement, statements one after another, the arms of a switch from the
selected one on, or a loop from its condition on. -/
inductive Fragment where
  | stmt (s : Stmt)
  | seq (body : List Stmt)
  | arms (bodies : List (List Stmt))
  | loop (condition step : Option Expr) (body : List Stmt)

/-! ## Stores -/

namespace Store

def enter (σ : Store Datum) : Store Datum := { σ with blocks := [] :: σ.blocks }

def leave (σ : Store Datum) : Store Datum := { σ with blocks := σ.blocks.tail }

/-- A new variable in the innermost block. -/
def declare (σ : Store Datum) (name : Name) (d : Datum) : Store Datum :=
  match σ.blocks with
  | [] => σ
  | vs :: outer => { σ with blocks := ((name, d) :: vs) :: outer }

end Store

/-- A value is zero if every cell of it is. -/
def Datum.Zero (d : Datum) : Prop := ∀ c ∈ d.cells, c = .zero c.kind

/-- Whether an int is other than zero. -/
def Datum.truth? : Datum → Option Bool
  | .cell (.int n) => some (n != 0)
  | _ => none

/-! ## Expressions in statements -/

section Meaning

variable (alu : Alu) (engine : Engine) (structs : Structs)

/-- An expression whose value is dropped. -/
def dropped (e : Option Expr) (σ : Store Datum) : Option (Store Datum) :=
  match e with
  | none => some σ
  | some e => (eval alu engine e σ).map (·.2)

/-- A condition, which holds if it is an int other than zero. A condition that is left out holds. -/
def tested (e : Option Expr) (σ : Store Datum) : Option (Bool × Store Datum) :=
  match e with
  | none => some (true, σ)
  | some e => do
    let (v, σ) ← eval alu engine e σ
    let holds ← v.truth?
    return (holds, σ)

/-- The labels of a switch, each with the number of its arm. -/
def armLabels : List (List SwitchLabel × List Stmt) → Nat → List (SwitchLabel × Nat)
  | [], _ => []
  | (labels, _) :: rest, arm => labels.map (·, arm) ++ armLabels rest (arm + 1)

/-- The arm that a value selects: the first one with a label equal to it, or else the default. The
labels are evaluated in order, and only up to the first that is equal. -/
def selected {γ : Type} (v : Datum) :
    List (SwitchLabel × γ) → Option γ → Store Datum → Option (Option γ × Store Datum)
  | [], default, σ => some (default, σ)
  | (.default, arm) :: rest, _, σ => selected v rest (some arm) σ
  | (.case e, arm) :: rest, default, σ => do
    let (w, σ) ← eval alu engine e σ
    let equal ← (← alu.binary? .eq v w).truth?
    if equal then return (some arm, σ) else selected v rest default σ

/-- Variables that are declared one after another. Each is zero until its first value is known,
which may use the variable itself. -/
inductive Initializes (ty : Ty) : Store Datum → List Declarator → Store Datum → Prop
  | nil {σ : Store Datum} : Initializes ty σ [] σ
  | plain {σ τ : Store Datum} {d : Declarator} {rest : List Declarator} {zero : Datum} :
      d.init = none → Datum.Fits structs ty zero → zero.Zero →
      Initializes ty (σ.declare d.name zero) rest τ → Initializes ty σ (d :: rest) τ
  | initialized {σ σ₁ σ₂ τ : Store Datum} {d : Declarator} {rest : List Declarator} {e : Expr}
      {zero v : Datum} :
      d.init = some e → Datum.Fits structs ty zero → zero.Zero →
      eval alu engine e (σ.declare d.name zero) = some (v, σ₁) → σ₁.put? d.name v = some σ₂ →
      Initializes ty σ₂ rest τ → Initializes ty σ (d :: rest) τ

/-! ## Execution -/

/-- `Exec σ fragment o τ`: executed in the store `σ`, the fragment ends with the outcome `o` in the
store `τ`. -/
inductive Exec : Store Datum → Fragment → Outcome → Store Datum → Prop
  | expr {σ τ : Store Datum} {e : Expr} :
      dropped alu engine (some e) σ = some τ → Exec σ (.stmt (.expr e)) .normal τ
  | declare {σ τ : Store Datum} {ty : Ty} {ds : List Declarator} :
      Initializes alu engine structs ty σ ds τ → Exec σ (.stmt (.declare ty ds)) .normal τ
  | block {σ τ : Store Datum} {body : List Stmt} {o : Outcome} :
      Exec σ.enter (.seq body) o τ → Exec σ (.stmt (.block body)) o τ.leave
  | ifTrue {σ σ₁ τ : Store Datum} {e : Expr} {onTrue : List Stmt} {onFalse : Option (List Stmt)}
      {o : Outcome} :
      tested alu engine (some e) σ = some (true, σ₁) → Exec σ₁.enter (.seq onTrue) o τ →
      Exec σ (.stmt (.ifElse e onTrue onFalse)) o τ.leave
  | ifFalse {σ σ₁ τ : Store Datum} {e : Expr} {onTrue onFalse : List Stmt} {o : Outcome} :
      tested alu engine (some e) σ = some (false, σ₁) → Exec σ₁.enter (.seq onFalse) o τ →
      Exec σ (.stmt (.ifElse e onTrue (some onFalse))) o τ.leave
  | ifNone {σ τ : Store Datum} {e : Expr} {onTrue : List Stmt} :
      tested alu engine (some e) σ = some (false, τ) →
      Exec σ (.stmt (.ifElse e onTrue none)) .normal τ
  | whileLoop {σ τ : Store Datum} {e : Expr} {body : List Stmt} {o : Outcome} :
      Exec σ (.loop (some e) none body) o τ → Exec σ (.stmt (.whileLoop e body)) o τ
  | forLoop {σ σ₁ τ : Store Datum} {init e step : Option Expr} {body : List Stmt} {o : Outcome} :
      dropped alu engine init σ = some σ₁ → Exec σ₁ (.loop e step body) o τ →
      Exec σ (.stmt (.forLoop init e step body)) o τ
  | loopDone {σ τ : Store Datum} {e step : Option Expr} {body : List Stmt} :
      tested alu engine e σ = some (false, τ) → Exec σ (.loop e step body) .normal τ
  | loopNext {σ σ₁ σ₂ σ₃ τ : Store Datum} {e step : Option Expr} {body : List Stmt}
      {o₁ o : Outcome} :
      tested alu engine e σ = some (true, σ₁) → Exec σ₁.enter (.seq body) o₁ σ₂ →
      o₁.goesOn = true → dropped alu engine step σ₂.leave = some σ₃ →
      Exec σ₃ (.loop e step body) o τ → Exec σ (.loop e step body) o τ
  | loopLeft {σ σ₁ τ : Store Datum} {e step : Option Expr} {body : List Stmt} {o : Outcome} :
      tested alu engine e σ = some (true, σ₁) → Exec σ₁.enter (.seq body) o τ →
      o.goesOn = false → Exec σ (.loop e step body) o.leaving τ.leave
  | doNext {σ σ₁ σ₂ τ : Store Datum} {body : List Stmt} {e : Expr} {o₁ o : Outcome} :
      Exec σ.enter (.seq body) o₁ σ₁ → o₁.goesOn = true →
      tested alu engine (some e) σ₁.leave = some (true, σ₂) →
      Exec σ₂ (.stmt (.doWhile body e)) o τ → Exec σ (.stmt (.doWhile body e)) o τ
  | doDone {σ σ₁ τ : Store Datum} {body : List Stmt} {e : Expr} {o₁ : Outcome} :
      Exec σ.enter (.seq body) o₁ σ₁ → o₁.goesOn = true →
      tested alu engine (some e) σ₁.leave = some (false, τ) →
      Exec σ (.stmt (.doWhile body e)) .normal τ
  | doLeft {σ τ : Store Datum} {body : List Stmt} {e : Expr} {o : Outcome} :
      Exec σ.enter (.seq body) o τ → o.goesOn = false →
      Exec σ (.stmt (.doWhile body e)) o.leaving τ.leave
  | switch {σ σ₁ σ₂ τ : Store Datum} {e : Expr} {v : Datum} {arm : Nat}
      {cases : List (List SwitchLabel × List Stmt)} {o : Outcome} :
      eval alu engine e σ = some (v, σ₁) →
      selected alu engine v (armLabels cases 0) none σ₁ = some (some arm, σ₂) →
      Exec σ₂.enter (.arms ((cases.drop arm).map (·.2))) o τ →
      Exec σ (.stmt (.switch e cases)) o.leaving τ.leave
  | switchNone {σ σ₁ τ : Store Datum} {e : Expr} {v : Datum}
      {cases : List (List SwitchLabel × List Stmt)} :
      eval alu engine e σ = some (v, σ₁) →
      selected alu engine v (armLabels cases 0) none σ₁ = some (none, τ) →
      Exec σ (.stmt (.switch e cases)) .normal τ
  | breakOut {σ : Store Datum} : Exec σ (.stmt .breakOut) .broke σ
  | continueLoop {σ : Store Datum} : Exec σ (.stmt .continueLoop) .continued σ
  | exit {σ : Store Datum} : Exec σ (.stmt (.ret none)) (.returned none) σ
  | exitWith {σ τ : Store Datum} {e : Expr} {v : Datum} :
      eval alu engine e σ = some (v, τ) → Exec σ (.stmt (.ret (some e))) (.returned (some v)) τ
  | seqEnd {σ : Store Datum} : Exec σ (.seq []) .normal σ
  | seqNext {σ σ₁ τ : Store Datum} {s : Stmt} {rest : List Stmt} {o : Outcome} :
      Exec σ (.stmt s) .normal σ₁ → Exec σ₁ (.seq rest) o τ → Exec σ (.seq (s :: rest)) o τ
  | seqLeft {σ τ : Store Datum} {s : Stmt} {rest : List Stmt} {o : Outcome} :
      Exec σ (.stmt s) o τ → o ≠ .normal → Exec σ (.seq (s :: rest)) o τ
  | armsEnd {σ : Store Datum} : Exec σ (.arms []) .normal σ
  | armsNext {σ σ₁ τ : Store Datum} {body : List Stmt} {rest : List (List Stmt)} {o : Outcome} :
      Exec σ (.seq body) .normal σ₁ → Exec σ₁ (.arms rest) o τ → Exec σ (.arms (body :: rest)) o τ
  | armsLeft {σ τ : Store Datum} {body : List Stmt} {rest : List (List Stmt)} {o : Outcome} :
      Exec σ (.seq body) o τ → o ≠ .normal → Exec σ (.arms (body :: rest)) o τ

end Meaning

end NwScript
