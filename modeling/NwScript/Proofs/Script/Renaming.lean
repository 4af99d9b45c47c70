-- Scripts whose variables go by other names. Only variables are renamed: the names of functions,
-- structs and members stay.
import NwScript.Proofs.Codegen.Lays

namespace NwScript

/-! ## Expressions -/

def Access.renamed (ρ : Name → Name) (a : Access) : Access := { a with head := ρ a.head }

namespace Expr

mutual

/-- The expression with other names for its variables. -/
def renamed (ρ : Name → Name) : Expr → Expr
  | .literal value => .literal value
  | .vector x y z => .vector (x.renamed ρ) (y.renamed ρ) (z.renamed ρ)
  | .access path => .access (path.renamed ρ)
  | .assign op target value => .assign op (target.renamed ρ) (value.renamed ρ)
  | .binary op lhs rhs => .binary op (lhs.renamed ρ) (rhs.renamed ρ)
  | .unary op operand => .unary op (operand.renamed ρ)
  | .step op fix target => .step op fix (target.renamed ρ)
  | .call name args => .call name (renamedAll ρ args)

def renamedAll (ρ : Name → Name) : List Expr → List Expr
  | [] => []
  | e :: rest => e.renamed ρ :: renamedAll ρ rest

end

mutual

/-- The names of the variables of an expression, in the order in which they are used. -/
def names : Expr → List Name
  | .literal _ => []
  | .vector x y z => x.names ++ y.names ++ z.names
  | .access path => [path.head]
  | .assign _ target value => target.head :: value.names
  | .binary _ lhs rhs => lhs.names ++ rhs.names
  | .unary _ operand => operand.names
  | .step _ _ target => [target.head]
  | .call _ args => namesOfAll args

def namesOfAll : List Expr → List Name
  | [] => []
  | e :: rest => e.names ++ namesOfAll rest

end

variable {ρ σ : Name → Name}

@[simp] theorem renamedAll_eq (args : List Expr) : renamedAll ρ args = args.map (renamed ρ) := by
  induction args with
  | nil => rfl
  | cons e rest ih => rw [renamedAll, ih, List.map_cons]

@[simp] theorem namesOfAll_eq (args : List Expr) :
    namesOfAll args = args.flatMap names := by
  induction args with
  | nil => rfl
  | cons e rest ih => rw [namesOfAll, ih, List.flatMap_cons]

theorem renamed_congr {e : Expr} (h : ∀ n ∈ e.names, ρ n = σ n) :
    e.renamed ρ = e.renamed σ := by
  induction e using Expr.inductOn with
  | literal v => rfl
  | vector x y z hx hy hz =>
    simp only [names, List.mem_append] at h
    simp only [renamed, hx fun n hn => h n (.inl (.inl hn)), hy fun n hn => h n (.inl (.inr hn)),
      hz fun n hn => h n (.inr hn)]
  | access path => simp [renamed, Access.renamed, h path.head (by simp [names])]
  | assign op target e he =>
    simp only [names, List.mem_cons] at h
    simp only [renamed, Access.renamed, h _ (.inl rfl), he fun n hn => h n (.inr hn)]
  | binary op l r hl hr =>
    simp only [names, List.mem_append] at h
    simp only [renamed, hl fun n hn => h n (.inl hn), hr fun n hn => h n (.inr hn)]
  | unary op e he => simp only [renamed, he h]
  | step op fix target => simp [renamed, Access.renamed, h target.head (by simp [names])]
  | call name args hargs =>
    simp only [names, namesOfAll_eq, List.mem_flatMap] at h
    simp only [renamed, renamedAll_eq, Expr.call.injEq, true_and]
    exact List.map_congr_left fun a ha => hargs a ha fun n hn => h n ⟨a, ha, hn⟩

@[simp] theorem renamed_id (e : Expr) : e.renamed id = e := by
  induction e using Expr.inductOn with
  | call name args hargs =>
    simp only [renamed, renamedAll_eq, Expr.call.injEq, true_and]
    exact (List.map_congr_left hargs).trans args.map_id
  | _ => simp_all [renamed, Access.renamed]

/-- Names that stay leave the expression as it is. -/
theorem renamed_eq_self {e : Expr} (h : ∀ n ∈ e.names, ρ n = n) : e.renamed ρ = e :=
  (renamed_congr h).trans e.renamed_id

/-- The same of an expression that may be missing. -/
theorem renamed_congr? {e : Option Expr} (h : ∀ n ∈ e.toList.flatMap names, ρ n = σ n) :
    e.map (renamed ρ) = e.map (renamed σ) := by
  cases e with
  | none => rfl
  | some e => exact congrArg some (renamed_congr (by simpa using h))

@[simp] theorem map_renamed_id (e : Option Expr) : e.map (renamed id) = e := by
  cases e with
  | none => rfl
  | some e => exact congrArg some e.renamed_id

end Expr

/-! ## Statements -/

def Declarator.renamed (ρ : Name → Name) (d : Declarator) : Declarator :=
  ⟨ρ d.name, d.init.map (·.renamed ρ)⟩

def Declarator.names (d : Declarator) : List Name :=
  d.name :: d.init.toList.flatMap Expr.names

def SwitchLabel.renamed (ρ : Name → Name) : SwitchLabel → SwitchLabel
  | .case value => .case (value.renamed ρ)
  | .default => .default

def SwitchLabel.names : SwitchLabel → List Name
  | .case value => value.names
  | .default => []

section Parts

variable {ρ σ : Name → Name}

theorem Declarator.renamed_congr {d : Declarator} (h : ∀ n ∈ d.names, ρ n = σ n) :
    d.renamed ρ = d.renamed σ := by
  simp only [names, List.mem_cons] at h
  simp only [renamed, h _ (.inl rfl), Expr.renamed_congr? fun n hn => h n (.inr hn)]

@[simp] theorem Declarator.renamed_id (d : Declarator) : d.renamed id = d := by simp [renamed]

theorem SwitchLabel.renamed_congr {l : SwitchLabel} (h : ∀ n ∈ l.names, ρ n = σ n) :
    l.renamed ρ = l.renamed σ := by
  cases l with
  | case value => exact congrArg SwitchLabel.case (Expr.renamed_congr h)
  | default => rfl

@[simp] theorem SwitchLabel.renamed_id (l : SwitchLabel) : l.renamed id = l := by
  cases l with
  | case value => exact congrArg SwitchLabel.case value.renamed_id
  | default => rfl

end Parts

namespace Stmt

mutual

/-- The statement with other names for its variables. -/
def renamed (ρ : Name → Name) : Stmt → Stmt
  | .expr e => .expr (e.renamed ρ)
  | .declare ty declarators => .declare ty (declarators.map (·.renamed ρ))
  | .block body => .block (renamedAll ρ body)
  | .ifElse e onTrue onFalse => .ifElse (e.renamed ρ) (renamedAll ρ onTrue) (renamed? ρ onFalse)
  | .whileLoop e body => .whileLoop (e.renamed ρ) (renamedAll ρ body)
  | .doWhile body e => .doWhile (renamedAll ρ body) (e.renamed ρ)
  | .forLoop init e step body =>
    .forLoop (init.map (·.renamed ρ)) (e.map (·.renamed ρ)) (step.map (·.renamed ρ))
      (renamedAll ρ body)
  | .switch e arms => .switch (e.renamed ρ) (renamedArms ρ arms)
  | .breakOut => .breakOut
  | .continueLoop => .continueLoop
  | .ret value => .ret (value.map (·.renamed ρ))

def renamedAll (ρ : Name → Name) : List Stmt → List Stmt
  | [] => []
  | s :: rest => s.renamed ρ :: renamedAll ρ rest

def renamed? (ρ : Name → Name) : Option (List Stmt) → Option (List Stmt)
  | none => none
  | some body => some (renamedAll ρ body)

def renamedArms (ρ : Name → Name) :
    List (List SwitchLabel × List Stmt) → List (List SwitchLabel × List Stmt)
  | [] => []
  | (labels, body) :: rest =>
    (labels.map (·.renamed ρ), renamedAll ρ body) :: renamedArms ρ rest

end

mutual

/-- The names of the variables of a statement, in the order in which they are used. -/
def names : Stmt → List Name
  | .expr e => e.names
  | .declare _ declarators => declarators.flatMap (·.names)
  | .block body => namesOfAll body
  | .ifElse e onTrue onFalse => e.names ++ namesOfAll onTrue ++ namesOf? onFalse
  | .whileLoop e body => e.names ++ namesOfAll body
  | .doWhile body e => namesOfAll body ++ e.names
  | .forLoop init e step body =>
    (init.toList ++ e.toList ++ step.toList).flatMap Expr.names ++ namesOfAll body
  | .switch e arms => e.names ++ namesOfArms arms
  | .breakOut | .continueLoop => []
  | .ret value => value.toList.flatMap Expr.names

def namesOfAll : List Stmt → List Name
  | [] => []
  | s :: rest => s.names ++ namesOfAll rest

def namesOf? : Option (List Stmt) → List Name
  | none => []
  | some body => namesOfAll body

def namesOfArms : List (List SwitchLabel × List Stmt) → List Name
  | [] => []
  | (labels, body) :: rest =>
    labels.flatMap (·.names) ++ namesOfAll body ++ namesOfArms rest

end

variable {ρ σ : Name → Name}

@[simp] theorem renamedAll_eq (body : List Stmt) : renamedAll ρ body = body.map (renamed ρ) := by
  induction body with
  | nil => rfl
  | cons s rest ih => rw [renamedAll, ih, List.map_cons]

@[simp] theorem renamedArms_eq (arms : List (List SwitchLabel × List Stmt)) :
    renamedArms ρ arms =
      arms.map fun a => (a.1.map (·.renamed ρ), a.2.map (renamed ρ)) := by
  induction arms with
  | nil => rfl
  | cons a rest ih => rw [renamedArms, ih, List.map_cons, renamedAll_eq]

@[simp] theorem renamed?_eq (body : Option (List Stmt)) :
    renamed? ρ body = body.map (·.map (renamed ρ)) := by
  cases body with
  | none => rfl
  | some body => rw [renamed?, renamedAll_eq, Option.map_some]

@[simp] theorem namesOfAll_eq (body : List Stmt) :
    namesOfAll body = body.flatMap names := by
  induction body with
  | nil => rfl
  | cons s rest ih => rw [namesOfAll, ih, List.flatMap_cons]

@[simp] theorem namesOf?_eq (body : Option (List Stmt)) :
    namesOf? body = body.toList.flatMap (·.flatMap names) := by
  cases body with
  | none => rfl
  | some body => simp [namesOf?]

@[simp] theorem namesOfArms_eq (arms : List (List SwitchLabel × List Stmt)) :
    namesOfArms arms =
      arms.flatMap fun a => a.1.flatMap (·.names) ++ a.2.flatMap names := by
  induction arms with
  | nil => rfl
  | cons a rest ih => rw [namesOfArms, ih, List.flatMap_cons, namesOfAll_eq]

theorem renamed_congr {s : Stmt} (h : ∀ n ∈ s.names, ρ n = σ n) :
    s.renamed ρ = s.renamed σ := by
  -- what holds of each statement of a body holds of the body
  have hall {body : List Stmt}
      (hb : ∀ s ∈ body, (∀ n ∈ s.names, ρ n = σ n) → s.renamed ρ = s.renamed σ)
      (hn : ∀ n ∈ body.flatMap names, ρ n = σ n) :
      body.map (renamed ρ) = body.map (renamed σ) :=
    List.map_congr_left fun s hs => hb s hs fun n hns => hn n (List.mem_flatMap.mpr ⟨s, hs, hns⟩)
  induction s using Stmt.inductOn with
  | expr e => simp only [renamed, Expr.renamed_congr h]
  | declare ty ds =>
    simp only [names, List.mem_flatMap] at h
    simp only [renamed, Stmt.declare.injEq, true_and]
    exact List.map_congr_left fun d hd => Declarator.renamed_congr fun n hn => h n ⟨d, hd, hn⟩
  | block body hb =>
    simp only [names, namesOfAll_eq] at h
    simp only [renamed, renamedAll_eq, hall hb h]
  | ifElse e onTrue onFalse hTrue hFalse =>
    simp only [names, namesOfAll_eq, namesOf?_eq, List.mem_append] at h
    have he := Expr.renamed_congr fun n hn => h n (.inl (.inl hn))
    have ht := hall hTrue fun n hn => h n (.inl (.inr hn))
    cases onFalse with
    | none => simp only [renamed, renamedAll_eq, renamed?_eq, he, ht, Option.map_none]
    | some body =>
      have hf := hall (hFalse body rfl) fun n hn => h n (.inr (by simpa using hn))
      simp only [renamed, renamedAll_eq, renamed?_eq, he, ht, hf, Option.map_some]
  | whileLoop e body hb =>
    simp only [names, namesOfAll_eq, List.mem_append] at h
    simp only [renamed, renamedAll_eq, Expr.renamed_congr fun n hn => h n (.inl hn),
      hall hb fun n hn => h n (.inr hn)]
  | doWhile body e hb =>
    simp only [names, namesOfAll_eq, List.mem_append] at h
    simp only [renamed, renamedAll_eq, Expr.renamed_congr fun n hn => h n (.inr hn),
      hall hb fun n hn => h n (.inl hn)]
  | forLoop init e step body hb =>
    simp only [names, namesOfAll_eq, List.flatMap_append, List.mem_append] at h
    simp only [renamed, renamedAll_eq, hall hb fun n hn => h n (.inr hn),
      Expr.renamed_congr? fun n hn => h n (.inl (.inl (.inl hn))),
      Expr.renamed_congr? fun n hn => h n (.inl (.inl (.inr hn))),
      Expr.renamed_congr? fun n hn => h n (.inl (.inr hn))]
  | switch e arms hb =>
    simp only [names, namesOfArms_eq, List.mem_append, List.mem_flatMap] at h
    simp only [renamed, renamedArms_eq, Expr.renamed_congr fun n hn => h n (.inl hn),
      Stmt.switch.injEq, true_and]
    refine List.map_congr_left fun a ha => ?_
    have hlabels : a.1.map (·.renamed ρ) = a.1.map (·.renamed σ) :=
      List.map_congr_left fun l hl => SwitchLabel.renamed_congr fun n hn =>
        h n (.inr ⟨a, ha, .inl ⟨l, hl, hn⟩⟩)
    rw [hlabels, hall (hb a ha) fun n hn => h n (.inr ⟨a, ha, .inr (List.mem_flatMap.mp hn)⟩)]
  | breakOut => rfl
  | continueLoop => rfl
  | ret value => simp only [renamed, Expr.renamed_congr? h]

@[simp] theorem renamed_id (s : Stmt) : s.renamed id = s := by
  have hall {body : List Stmt} (hb : ∀ s ∈ body, s.renamed id = s) :
      body.map (renamed id) = body := (List.map_congr_left hb).trans body.map_id
  induction s using Stmt.inductOn with
  | expr e => simp [renamed]
  | declare ty ds =>
    simp only [renamed, Declarator.renamed_id, List.map_id']
  | block body hb => simp only [renamed, renamedAll_eq, hall hb]
  | ifElse e onTrue onFalse hTrue hFalse =>
    cases onFalse with
    | none =>
      simp only [renamed, renamedAll_eq, renamed?_eq, Expr.renamed_id, hall hTrue, Option.map_none]
    | some body =>
      simp only [renamed, renamedAll_eq, renamed?_eq, Expr.renamed_id, hall hTrue,
        hall (hFalse body rfl), Option.map_some]
  | whileLoop e body hb => simp only [renamed, renamedAll_eq, Expr.renamed_id, hall hb]
  | doWhile body e hb => simp only [renamed, renamedAll_eq, Expr.renamed_id, hall hb]
  | forLoop init e step body hb =>
    simp only [renamed, renamedAll_eq, Expr.map_renamed_id, hall hb]
  | switch e arms hb =>
    have harms : arms.map (fun a => (a.1.map (·.renamed id), a.2.map (renamed id))) = arms.map id :=
      List.map_congr_left fun a ha => by simp [hall (hb a ha)]
    simp only [renamed, renamedArms_eq, Expr.renamed_id, harms, List.map_id]
  | breakOut => rfl
  | continueLoop => rfl
  | ret value => simp only [renamed, Expr.map_renamed_id]

end Stmt

/-! ## Items -/

def Param.renamed (ρ : Name → Name) (p : Param) : Param :=
  { p with name := ρ p.name, default := p.default.map (·.renamed ρ) }

def Param.names (p : Param) : List Name := p.name :: p.default.toList.flatMap Expr.names

def Signature.renamed (ρ : Name → Name) (s : Signature) : Signature :=
  { s with params := s.params.map (·.renamed ρ) }

def Signature.names (s : Signature) : List Name := s.params.flatMap Param.names

def FunctionDef.renamed (ρ : Name → Name) (f : FunctionDef) : FunctionDef :=
  ⟨f.signature.renamed ρ, f.body.map (·.renamed ρ)⟩

def GlobalDef.renamed (ρ : Name → Name) (g : GlobalDef) : GlobalDef :=
  { g with name := ρ g.name, init := g.init.map (·.renamed ρ) }

namespace Item

/-- The item with other names for its parameters, locals and globals. -/
def renamed (ρ : Name → Name) : Item → Item
  | .include name => .include name
  | .global g => .global (g.renamed ρ)
  | .struct d => .struct d
  | .prototype s => .prototype (s.renamed ρ)
  | .function f => .function (f.renamed ρ)

def names : Item → List Name
  | .include _ | .struct _ => []
  | .global g => g.name :: g.init.toList.flatMap Expr.names
  | .prototype s => s.names
  | .function f => f.signature.names ++ f.body.flatMap Stmt.names

end Item

section Items

variable {ρ σ : Name → Name}

theorem Param.renamed_congr {p : Param} (h : ∀ n ∈ p.names, ρ n = σ n) :
    p.renamed ρ = p.renamed σ := by
  simp only [names, List.mem_cons] at h
  simp only [renamed, h _ (.inl rfl), Expr.renamed_congr? fun n hn => h n (.inr hn)]

theorem Signature.renamed_congr {s : Signature} (h : ∀ n ∈ s.names, ρ n = σ n) :
    s.renamed ρ = s.renamed σ := by
  simp only [names, List.mem_flatMap] at h
  simp only [renamed, Signature.mk.injEq, true_and]
  exact List.map_congr_left fun p hp => Param.renamed_congr fun n hn => h n ⟨p, hp, hn⟩

theorem Item.renamed_congr {item : Item} (h : ∀ n ∈ item.names, ρ n = σ n) :
    item.renamed ρ = item.renamed σ := by
  cases item with
  | «include» name => rfl
  | global g =>
    simp only [names, List.mem_cons] at h
    simp only [renamed, GlobalDef.renamed, h _ (.inl rfl),
      Expr.renamed_congr? fun n hn => h n (.inr hn)]
  | struct d => rfl
  | prototype s => exact congrArg Item.prototype (Signature.renamed_congr h)
  | function f =>
    simp only [names, List.mem_append, List.mem_flatMap] at h
    have hbody : f.body.map (·.renamed ρ) = f.body.map (·.renamed σ) :=
      List.map_congr_left fun s hs => Stmt.renamed_congr fun n hn => h n (.inr ⟨s, hs, hn⟩)
    have hsignature := Signature.renamed_congr fun n hn => h n (.inl hn)
    simp only [renamed, FunctionDef.renamed, hbody, hsignature]

@[simp] theorem Param.renamed_id (p : Param) : p.renamed id = p := by simp [renamed]

@[simp] theorem Signature.renamed_id (s : Signature) : s.renamed id = s := by simp [renamed]

@[simp] theorem Item.renamed_id (item : Item) : item.renamed id = item := by
  cases item <;> simp [renamed, GlobalDef.renamed, FunctionDef.renamed]

end Items

namespace Script

/-- The script with other names for its parameters, locals and globals. -/
def renamed (ρ : Name → Name) (items : Script) : Script := items.map (·.renamed ρ)

def names (items : Script) : List Name := items.flatMap Item.names

variable {ρ σ : Name → Name}

theorem renamed_congr {items : Script} (h : ∀ n ∈ items.names, ρ n = σ n) :
    items.renamed ρ = items.renamed σ :=
  List.map_congr_left fun item hitem => Item.renamed_congr fun n hn =>
    h n (List.mem_flatMap.mpr ⟨item, hitem, hn⟩)

@[simp] theorem renamed_id (items : Script) : items.renamed id = items := by simp [renamed]

end Script

end NwScript
