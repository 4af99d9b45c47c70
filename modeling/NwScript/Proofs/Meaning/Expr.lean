-- What expressions mean, and that their code does what they mean: it leaves the stack as it was, up
-- to the variables that are assigned, with the value on top.
import NwScript.Proofs.Meaning.Place
import NwScript.Proofs.Codegen.Emits

namespace NwScript

/-! ## Meaning -/

namespace Alu

/-- An operator of two operands. What it means depends on their types; `&&` and `||` are operators
like the others. -/
def overloaded? (alu : Alu) : BinaryOp → Datum → Datum → Option Datum
  | .add, .int x, .int y => some (.ofOperand (alu.binary .addII x y))
  | .add, .int x, .float y => some (.ofOperand (alu.binary .addIF x y))
  | .add, .float x, .int y => some (.ofOperand (alu.binary .addFI x y))
  | .add, .float x, .float y => some (.ofOperand (alu.binary .addFF x y))
  | .add, .vector x y z, .vector x' y' z' =>
    some (.ofOperand (alu.binary .addVV (x, y, z) (x', y', z')))
  | .add, .string x, .string y => some (.ofOperand (alu.binary .addSS x y))
  | .sub, .int x, .int y => some (.ofOperand (alu.binary .subII x y))
  | .sub, .int x, .float y => some (.ofOperand (alu.binary .subIF x y))
  | .sub, .float x, .int y => some (.ofOperand (alu.binary .subFI x y))
  | .sub, .float x, .float y => some (.ofOperand (alu.binary .subFF x y))
  | .sub, .vector x y z, .vector x' y' z' =>
    some (.ofOperand (alu.binary .subVV (x, y, z) (x', y', z')))
  | .mul, .int x, .int y => some (.ofOperand (alu.binary .mulII x y))
  | .mul, .int x, .float y => some (.ofOperand (alu.binary .mulIF x y))
  | .mul, .float x, .int y => some (.ofOperand (alu.binary .mulFI x y))
  | .mul, .float x, .float y => some (.ofOperand (alu.binary .mulFF x y))
  | .mul, .vector x y z, .float k => some (.ofOperand (alu.binary .mulVF (x, y, z) k))
  | .mul, .float k, .vector x y z => some (.ofOperand (alu.binary .mulFV k (x, y, z)))
  | .div, .int x, .int y => some (.ofOperand (alu.binary .divII x y))
  | .div, .int x, .float y => some (.ofOperand (alu.binary .divIF x y))
  | .div, .float x, .int y => some (.ofOperand (alu.binary .divFI x y))
  | .div, .float x, .float y => some (.ofOperand (alu.binary .divFF x y))
  | .div, .vector x y z, .float k => some (.ofOperand (alu.binary .divVF (x, y, z) k))
  | .mod, .int x, .int y => some (.ofOperand (alu.binary .modII x y))
  | .eq, .int x, .int y => some (.ofOperand (alu.binary .equalII x y))
  | .eq, .float x, .float y => some (.ofOperand (alu.binary .equalFF x y))
  | .eq, .string x, .string y => some (.ofOperand (alu.binary .equalSS x y))
  | .eq, .object x, .object y => some (.ofOperand (alu.binary .equalOO x y))
  | .notEq, .int x, .int y => some (.ofOperand (alu.binary .notEqualII x y))
  | .notEq, .float x, .float y => some (.ofOperand (alu.binary .notEqualFF x y))
  | .notEq, .string x, .string y => some (.ofOperand (alu.binary .notEqualSS x y))
  | .notEq, .object x, .object y => some (.ofOperand (alu.binary .notEqualOO x y))
  | .gt, .int x, .int y => some (.ofOperand (alu.binary .gtII x y))
  | .gt, .float x, .float y => some (.ofOperand (alu.binary .gtFF x y))
  | .lt, .int x, .int y => some (.ofOperand (alu.binary .ltII x y))
  | .lt, .float x, .float y => some (.ofOperand (alu.binary .ltFF x y))
  | .gtEq, .int x, .int y => some (.ofOperand (alu.binary .geqII x y))
  | .gtEq, .float x, .float y => some (.ofOperand (alu.binary .geqFF x y))
  | .ltEq, .int x, .int y => some (.ofOperand (alu.binary .leqII x y))
  | .ltEq, .float x, .float y => some (.ofOperand (alu.binary .leqFF x y))
  | .and, .int x, .int y => some (.ofOperand (alu.binary .logAndII x y))
  | .or, .int x, .int y => some (.ofOperand (alu.binary .logOrII x y))
  | .bitAnd, .int x, .int y => some (.ofOperand (alu.binary .boolAndII x y))
  | .bitOr, .int x, .int y => some (.ofOperand (alu.binary .inclOrII x y))
  | .bitXor, .int x, .int y => some (.ofOperand (alu.binary .exclOrII x y))
  | .shl, .int x, .int y => some (.ofOperand (alu.binary .shLeftII x y))
  | .shr, .int x, .int y => some (.ofOperand (alu.binary .shRightII x y))
  | .ushr, .int x, .int y => some (.ofOperand (alu.binary .ushRightII x y))
  | _, _, _ => none

/-- An operator of two operands. Values of one composite type can be compared as a whole. -/
def binary? (alu : Alu) (op : BinaryOp) (a b : Datum) : Option Datum :=
  if a.ty.composite ∧ a.ty = b.ty ∧ op = .eq then some (.cell (.int (alu.equal a.cells b.cells)))
  else if a.ty.composite ∧ a.ty = b.ty ∧ op = .notEq then
    some (.cell (.int (alu.notEqual a.cells b.cells)))
  else alu.overloaded? op a b

/-- An operator of one operand. -/
def unary? (alu : Alu) : UnaryOp → Datum → Option Datum
  | .neg, .int x => some (.ofOperand (alu.unary .negI x))
  | .neg, .float x => some (.ofOperand (alu.unary .negF x))
  | .not, .int x => some (.ofOperand (alu.unary .notI x))
  | .bitNot, .int x => some (.ofOperand (alu.unary .compI x))
  | _, _ => none

/-- What a compound assignment makes of the old value and its operand. -/
def combined? (alu : Alu) : AssignOp → Datum → Datum → Option Datum
  | .set, _, new => some new
  | .add, old, operand => alu.binary? .add old operand
  | .sub, old, operand => alu.binary? .sub old operand
  | .mul, old, operand => alu.binary? .mul old operand
  | .div, old, operand => alu.binary? .div old operand

end Alu

/-- A vector of three floats. -/
def Datum.ofComponents? : Datum → Datum → Datum → Option Datum
  | .float x, .float y, .float z => some (.vector x y z)
  | _, _, _ => none

/-- A step of a variable: the value of the expression, and the new value of the variable. -/
def Datum.stepped? (alu : Alu) (op : StepOp) (fix : Fix) : Datum → Option (Datum × Datum)
  | .int n =>
    let new := .int (alu.step op n)
    some (match fix with | .pre => new | .post => .int n, new)
  | _ => none

/-- The value of an expression without calls, and the store after it. Operands are evaluated from
left to right; the target of a compound assignment is read before the operand. -/
def eval (alu : Alu) (engine : Engine) : Expr → Store Datum → Option (Datum × Store Datum)
  | .literal v, σ => some (.ofValue v, σ)
  | .vector x y z, σ => do
    let (a, σ) ← eval alu engine x σ
    let (b, σ) ← eval alu engine y σ
    let (c, σ) ← eval alu engine z σ
    let v ← Datum.ofComponents? a b c
    return (v, σ)
  | .access path, σ => match path.identifier?.bind engine.constant? with
    | some c => some (.ofValue c.value, σ)
    | none => (σ.read? path).map (·, σ)
  | .assign op target e, σ => match op with
    | .set => do
      let (v, σ) ← eval alu engine e σ
      let σ ← σ.write? target v
      return (v, σ)
    | .add | .sub | .mul | .div => do
      let old ← σ.read? target
      let (operand, σ) ← eval alu engine e σ
      let v ← alu.combined? op old operand
      let σ ← σ.write? target v
      return (v, σ)
  | .binary op l r, σ => do
    let (a, σ) ← eval alu engine l σ
    let (b, σ) ← eval alu engine r σ
    let v ← alu.binary? op a b
    return (v, σ)
  | .unary op e, σ => do
    let (a, σ) ← eval alu engine e σ
    let v ← alu.unary? op a
    return (v, σ)
  | .step op fix target, σ => do
    let old ← σ.read? target
    let (v, new) ← old.stepped? alu op fix
    let σ ← σ.write? target new
    return (v, σ)
  | .call _ _, _ => none

/-- Whether an expression contains no call. -/
def Expr.callFree : Expr → Bool
  | .literal _ | .access _ | .step _ _ _ => true
  | .vector x y z => x.callFree && y.callFree && z.callFree
  | .assign _ _ e | .unary _ e => e.callFree
  | .binary _ l r => l.callFree && r.callFree
  | .call _ _ => false

/-! ## Operators -/

section Operators

variable (alu : Alu) {structs : Structs} {left right ty : Ty} {a b : Datum} (base : Nat)
  (stack : List Cell)

/-- The instructions of an operator are those of its meaning. -/
theorem overloaded_code {op : BinaryOp} {c : BinaryCode} (hc : c ∈ op.codes) (x : Operand c.lhs)
    (y : Operand c.rhs) :
    alu.overloaded? op (.ofOperand x) (.ofOperand y) = some (.ofOperand (alu.binary c x y)) := by
  revert c
  cases op <;> simp only [BinaryOp.codes, List.forall_mem_cons, List.not_mem_nil, false_implies,
    implies_true, and_true] <;> and_intros <;> intros <;> rfl

theorem unary_code {op : UnaryOp} {c : UnaryCode} (hc : c ∈ op.codes) (x : Operand c.operand) :
    alu.unary? op (.ofOperand x) = some (.ofOperand (alu.unary c x)) := by
  cases op <;> cases c <;> first | rfl | exact absurd hc (by decide)

/-- An overloaded operator is carried out by its instruction. -/
theorem overloaded_runs {op : BinaryOp} {c : BinaryCode} (hc : op.code? left right = some c)
    (ha : Datum.Fits structs left a) (hb : Datum.Fits structs right b) :
    ∃ v, alu.overloaded? op a b = some v ∧ Datum.Fits structs c.result v ∧
      Op.effect alu base (stack ++ a.cells ++ b.cells) (.binary c) = some (stack ++ v.cells) := by
  obtain ⟨rfl, rfl⟩ := code_types hc
  obtain ⟨x, rfl⟩ := ha.operand c.lhs_mem
  obtain ⟨y, rfl⟩ := hb.operand c.rhs_mem
  refine ⟨.ofOperand (alu.binary c x y), overloaded_code alu (List.mem_of_find?_eq_some hc) x y,
    Datum.fits_ofOperand _, ?_⟩
  simp only [Datum.cells_ofOperand, effect_binary]

theorem unary_runs {op : UnaryOp} {c : UnaryCode} (hc : op.code? ty = some c)
    (ha : Datum.Fits structs ty a) :
    ∃ v, alu.unary? op a = some v ∧ Datum.Fits structs ty v ∧
      Op.effect alu base (stack ++ a.cells) (.unary c) = some (stack ++ v.cells) := by
  cases operand_type hc
  obtain ⟨x, rfl⟩ := ha.operand c.operand_mem
  refine ⟨.ofOperand (alu.unary c x), unary_code alu (List.mem_of_find?_eq_some hc) x,
    Datum.fits_ofOperand _, ?_⟩
  simp only [Datum.cells_ofOperand, effect_unary]

/-- A comparison of composite values is carried out slot by slot. -/
theorem composite_runs {op : BinaryOp} {c : Op} (hs : Structs.Laid structs.layouts)
    (hc : op.composite? left right a.cells.length = some c)
    (ha : Datum.Fits structs left a) (hb : Datum.Fits structs right b) :
    ∃ v, alu.binary? op a b = some v ∧ Datum.Fits structs .int v ∧
      Op.effect alu base (stack ++ a.cells ++ b.cells) c = some (stack ++ v.cells) := by
  unfold BinaryOp.composite? at hc
  split at hc
  · rename_i hcond
    simp only [Bool.and_eq_true, beq_iff_eq] at hcond
    obtain ⟨hcomp, rfl⟩ := hcond
    have hlen : (a.cells.length : Int) = b.cells.length := by
      have := ha.size hs
      rw [hb.size hs] at this
      exact congrArg Nat.cast (Except.ok.inj this).symm
    split at hc
    · cases hc
      refine ⟨.cell (.int (alu.equal a.cells b.cells)), ?_, rfl, ?_⟩
      · simp [Alu.binary?, ha.ty_eq, hb.ty_eq, hcomp]
      · simp only [Op.effect, splitTop?_append hlen, splitTop?_append rfl, Option.bind_eq_bind,
          Option.bind_some]
        rfl
    · cases hc
      refine ⟨.cell (.int (alu.notEqual a.cells b.cells)), ?_, rfl, ?_⟩
      · simp [Alu.binary?, ha.ty_eq, hb.ty_eq, hcomp]
      · simp only [Op.effect, splitTop?_append hlen, splitTop?_append rfl, Option.bind_eq_bind,
          Option.bind_some]
        rfl
    · cases hc
  · cases hc

/-- Where no composite values are compared, the instruction decides. -/
theorem binary_of_composite {op : BinaryOp} {k : Int} (hc : op.composite? left right k = none)
    (ha : Datum.Fits structs left a) (hb : Datum.Fits structs right b) :
    alu.binary? op a b = alu.overloaded? op a b := by
  unfold BinaryOp.composite? at hc
  unfold Alu.binary?
  rw [ha.ty_eq, hb.ty_eq]
  split at hc
  · split at hc <;> simp_all
  · rename_i hcond
    simp only [Bool.and_eq_true, beq_iff_eq] at hcond
    rw [if_neg, if_neg]
    · rintro ⟨h₁, h₂, _⟩
      exact hcond ⟨h₁, h₂⟩
    · rintro ⟨h₁, h₂, _⟩
      exact hcond ⟨h₁, h₂⟩

/-- A plain assignment does not combine anything. -/
theorem eval_set {engine : Engine} {op : AssignOp} {target : Access} {e : Expr} {σ : Store Datum}
    (h : op.arithmetic = none) : eval alu engine (.assign op target e) σ =
      (eval alu engine e σ).bind fun (v, τ) => (τ.write? target v).map (v, ·) := by
  cases op with
  | set =>
    simp only [eval, Option.bind_eq_bind, Option.pure_def]
    refine Option.bind_congr fun r _ => ?_
    cases r.2.write? target r.1 <;> rfl
  | _ => cases h

/-- A compound assignment combines by the operator that it is named for. -/
theorem eval_combine {engine : Engine} {op : AssignOp} {arithmetic : BinaryOp} {target : Access}
    {e : Expr} {σ τ υ : Store Datum} {old operand v : Datum} (h : op.arithmetic = some arithmetic)
    (hold : σ.read? target = some old) (he : eval alu engine e σ = some (operand, τ))
    (hv : alu.overloaded? arithmetic old operand = some v) (hw : τ.write? target v = some υ) :
    eval alu engine (.assign op target e) σ = some (v, υ) := by
  have hcombined : alu.combined? op old operand = some v := by
    cases op <;> cases h <;> simpa [Alu.combined?, Alu.binary?] using hv
  cases op with
  | set => cases h
  | _ => simp [eval, hold, he, hcombined, hw]

end Operators

/-! ## Code does what its expression means -/

/-- Run in the scope, the code evaluates the expression. -/
def Computes (alu : Alu) (env : Env) (s : Scope) (low mid : List Cell) (base : Nat) (e : Expr)
    (ty : Ty) (code : List Instruction) : Prop :=
  ∀ temps σ, Held env s low mid base temps σ → ∃ v τ, eval alu env.engine e σ = some (v, τ) ∧
    Datum.Fits env.structs ty v ∧ Held env s low mid base temps τ ∧
    Op.effects alu base (code.map (·.op)) (σ.stack low mid temps) =
      some (τ.stack low mid temps ++ v.cells)

section Code

variable (alu : Alu) {env : Env} {s : Scope} {low mid : List Cell} {base : Nat}
  {temps : List (List Cell)} {σ : Store Datum} {e : Expr} {ty : Ty} {code : List Instruction}

@[simp] theorem Codegen.numbered_ops (n : Handle) (ops : List Op) :
    (Codegen.numbered n ops).map (·.op) = ops := by
  induction ops generalizing n with
  | nil => rfl
  | cons op rest ih => simp [Codegen.numbered, ih]

variable {alu} in
/-- Code for the scope with more temporaries runs on top of them. -/
theorem Computes.onTop {k : Int} (cs : List Cell)
    (h : Computes alu env (s.grown k) low mid base e ty code)
    (hheld : Held env s low mid base temps σ) (hk : k = cs.length) :
    ∃ v τ, eval alu env.engine e σ = some (v, τ) ∧ Datum.Fits env.structs ty v ∧
      Held env s low mid base temps τ ∧
      Op.effects alu base (code.map (·.op)) (σ.stack low mid temps ++ cs) =
        some (τ.stack low mid temps ++ cs ++ v.cells) := by
  obtain ⟨v, τ, heval, hv, hτ, heff⟩ := h _ _ (hheld.push hk)
  have hpop := hτ.pop hk hheld.temps_ne
  rw [hheld.stack_push, hpop.stack_push] at heff
  exact ⟨v, τ, heval, hv, hpop, heff⟩

/-- Loading a variable pushes its value. -/
theorem load_runs {path : Access} {r : Resolved} {k : Nat} (hs : Structs.Laid env.structs.layouts)
    (hheld : Held env s low mid base temps σ) (hr : Codegen.resolveAccess env s path = .ok r)
    (hk : env.sizeOf r.ty = .ok k) :
    ∃ d, σ.read? path = some d ∧ Datum.Fits env.structs r.ty d ∧ k = d.cells.length ∧
      Op.effect alu base (σ.stack low mid temps) (r.load k) =
        some (σ.stack low mid temps ++ d.cells) := by
  obtain ⟨d, before, after, hread, hd, hstack, hpos, _⟩ := access_lies hs hheld hr
  have hlen : k = d.cells.length := by
    have := hd.size hs
    rw [show env.structs.sizeOf r.ty = env.sizeOf r.ty from rfl, hk] at this
    exact Except.ok.inj this
  exact ⟨d, hread, hd, hlen, effect_copyTop hstack hpos (by rw [hlen])⟩

/-- Storing the topmost value, which stays there, assigns it to the variable. -/
theorem store_runs {path : Access} {r : Resolved} {v : Datum} {k : Nat}
    (hs : Structs.Laid env.structs.layouts) (hheld : Held env s low mid base temps σ)
    (hr : Codegen.resolveAccess env (s.grown k) path = .ok r)
    (hv : Datum.Fits env.structs r.ty v) (hk : env.sizeOf r.ty = .ok k) :
    ∃ τ, σ.write? path v = some τ ∧ Held env s low mid base temps τ ∧
      Op.effect alu base (σ.stack low mid temps ++ v.cells) (r.store k) =
        some (τ.stack low mid temps ++ v.cells) := by
  have hlen : (k : Int) = v.cells.length := by
    have := hv.size hs
    rw [show env.structs.sizeOf r.ty = env.sizeOf r.ty from rfl, hk] at this
    exact congrArg Nat.cast (Except.ok.inj this)
  obtain ⟨d, before, after, hread, hd, hstack, hpos, hput⟩ := access_lies hs (hheld.push hlen) hr
  obtain ⟨τ, hwrite, hτ, (hstack' : τ.stack low mid (pushTemps v.cells temps) = _)⟩ := hput v hv
  have hpop := hτ.pop hlen hheld.temps_ne
  refine ⟨τ, hwrite, hpop, ?_⟩
  have hover : overwrite? (σ.stack low mid temps ++ v.cells)
      (r.anchor.position base (σ.stack low mid temps ++ v.cells) + r.offset) v.cells =
        some (τ.stack low mid temps ++ v.cells) := by
    rw [← hpop.stack_push, ← hheld.stack_push, hstack']
    refine overwrite?_append hstack hpos ?_
    have := hd.size hs
    rw [hv.size hs] at this
    exact (Except.ok.inj this).symm
  simp [Op.effect, Resolved.store, splitTop?_append hlen, hover]

/-- A variable has one type, however many temporaries are above it. -/
theorem resolve_ty {path : Access} {r r' : Resolved} {cs : List Cell} {k : Int}
    (hs : Structs.Laid env.structs.layouts) (hheld : Held env s low mid base temps σ)
    (hk : k = cs.length) (hr : Codegen.resolveAccess env s path = .ok r)
    (hr' : Codegen.resolveAccess env (s.grown k) path = .ok r') : r'.ty = r.ty := by
  obtain ⟨d, _, _, hread, hd, _⟩ := access_lies hs hheld hr
  obtain ⟨d', _, _, hread', hd', _⟩ := access_lies hs (hheld.push hk) hr'
  rw [hread] at hread'
  cases hread'
  exact hd'.ty_eq.symm.trans hd.ty_eq

/-- A step of a variable, which is loaded after it or before it. -/
theorem step_runs (op : StepOp) {path : Access} {r : Resolved}
    (hs : Structs.Laid env.structs.layouts) (hheld : Held env s low mid base temps σ)
    (hr : Codegen.resolveAccess env s path = .ok r) (hty : r.ty = .int) :
    ∃ n τ, σ.read? path = some (.cell (.int n)) ∧
      σ.write? path (.cell (.int (alu.step op n))) = some τ ∧ Held env s low mid base temps τ ∧
      Op.effect alu base (σ.stack low mid temps) (.step op r.anchor r.offset) =
        some (τ.stack low mid temps) ∧
      Op.effect alu base (τ.stack low mid temps) (r.load 1) =
        some (τ.stack low mid temps ++ [.int (alu.step op n)]) ∧
      Op.effect alu base (σ.stack low mid temps) (r.load 1) =
        some (σ.stack low mid temps ++ [.int n]) ∧
      Op.effect alu base (σ.stack low mid temps ++ [.int n])
          (.step op r.anchor (Codegen.offsetPast r)) =
          some (τ.stack low mid temps ++ [.int n]) := by
  obtain ⟨d, before, after, hread, hd, hstack, hpos, hput⟩ := access_lies hs hheld hr
  rw [hty] at hd hput
  obtain ⟨n, rfl⟩ : ∃ n, d = .cell (.int n) := by
    cases d with
    | cell c => cases c with
      | int n => exact ⟨n, rfl⟩
      | _ => cases hd
    | vector => cases hd
    | struct => cases hd.1
  obtain ⟨τ, hwrite, hτ, (hstack' : τ.stack low mid temps = _)⟩ :=
    hput (.cell (.int (alu.step op n))) rfl
  have hpos₁ : r.anchor.position base (τ.stack low mid temps) + r.offset = before.length := by
    rw [← hpos, hstack, hstack']
    cases r.anchor <;> simp [Anchor.position, Datum.cells]
  refine ⟨n, τ, hread, hwrite, hτ, ?_, effect_copyTop hstack' hpos₁ rfl,
    effect_copyTop hstack hpos rfl, ?_⟩
  · rw [effect_step hstack hpos, hstack']
    rfl
  · have hpos' : r.anchor.position base (σ.stack low mid temps ++ [.int n]) +
        Codegen.offsetPast r = before.length := by
      rcases r with ⟨_, offset, anchor, _⟩
      cases anchor with
      | sp =>
        simp only [Anchor.position, Codegen.offsetPast, List.length_append, List.length_singleton]
          at hpos ⊢
        omega
      | bp => exact hpos
    have hstack₂ : σ.stack low mid temps ++ [.int n] =
        before ++ [.int n] ++ (after ++ [.int n]) := by
      rw [hstack]
      simp [Datum.cells]
    rw [effect_step hstack₂ hpos', hstack']
    simp [Datum.cells]

theorem float_cell {structs : Structs} {d : Datum} (h : Datum.Fits structs .float d) :
    ∃ x, d = .cell (.float x) := by
  cases d with
  | cell c => cases c with
    | float x => exact ⟨x, rfl⟩
    | _ => cases h
  | vector => cases h
  | struct => cases h.1

theorem size_eq {d : Datum} {k : Nat} (hs : Structs.Laid env.structs.layouts)
    (h : Datum.Fits env.structs ty d) (hk : env.sizeOf ty = .ok k) : k = d.cells.length := by
  have := h.size hs
  rw [show env.structs.sizeOf ty = env.sizeOf ty from rfl, hk] at this
  exact Except.ok.inj this

open Codegen in
/-- The code of an expression without calls evaluates it. -/
theorem emits_computes (hs : Structs.Laid env.structs.layouts) (ht : env.engine.Typed)
    {n m : Handle} {phrase : Phrase} {tys : List Ty} (h : Emits env s n phrase tys code m)
    (hp : phrase = .value e) (hty : tys = [ty]) (hf : e.callFree = true) :
    Computes alu env s low mid base e ty code := by
  induction h generalizing e ty with
  | literal =>
    cases hp
    cases hty
    intro temps σ hheld
    exact ⟨_, σ, rfl, Datum.fits_ofValue _, hheld, by simp [Datum.effects_pushing]⟩
  | @constant s n path c k hc _ =>
    cases hp
    cases hty
    intro temps σ hheld
    obtain ⟨name, _, hname⟩ := Option.bind_eq_some_iff.mp hc
    refine ⟨.ofValue c.value, σ, by simp [eval, hc], ?_, hheld, by simp [Datum.effects_pushing]⟩
    rw [ht.found hname]
    exact Datum.fits_ofValue _
  | vector _ _ _ ihx ihy ihz =>
    cases hp
    cases hty
    simp only [Expr.callFree, Bool.and_eq_true] at hf
    intro temps σ hheld
    obtain ⟨a, σ₁, ha, hfa, h₁, ea⟩ := ihx rfl rfl hf.1.1 _ _ hheld
    obtain ⟨x, rfl⟩ := float_cell hfa
    obtain ⟨b, σ₂, hb, hfb, h₂, eb⟩ := (ihy rfl rfl hf.1.2).onTop [.float x] h₁ rfl
    obtain ⟨y, rfl⟩ := float_cell hfb
    obtain ⟨c, σ₃, hc, hfc, h₃, ec⟩ := (ihz rfl rfl hf.2).onTop [.float x, .float y] h₂ rfl
    obtain ⟨z, rfl⟩ := float_cell hfc
    refine ⟨.vector x y z, σ₃, by simp [eval, ha, hb, hc, Datum.ofComponents?], rfl, h₃, ?_⟩
    simp only [Datum.cells, List.append_assoc, List.cons_append, List.nil_append] at ea eb ec ⊢
    rw [List.map_append, List.map_append, Op.effects_append ea, Op.effects_append eb, ec]
  | access hc hr hk =>
    cases hp
    cases hty
    intro temps σ hheld
    obtain ⟨d, hread, hd, rfl, heff⟩ := load_runs alu hs hheld hr hk
    exact ⟨d, σ, by simp [eval, hc, hread], hd, hheld, by simpa [Op.effects_one] using heff⟩
  | assign hop _ hk hr _ ih =>
    cases hp
    cases hty
    simp only [Expr.callFree] at hf
    intro temps σ hheld
    obtain ⟨v, σ₁, hv, hfv, h₁, ev⟩ := ih rfl rfl hf _ _ hheld
    obtain ⟨τ, hwrite, hτ, est⟩ := store_runs alu hs h₁ hr hfv hk
    refine ⟨v, τ, by simp [eval_set alu hop, hv, hwrite], hfv, hτ, ?_⟩
    rw [List.map_append, Op.effects_append ev]
    simpa [Op.effects_one] using est
  | combine hop hr _ hk _ hl hcode hres hr' ih =>
    cases hp
    cases hty
    simp only [Expr.callFree] at hf
    intro temps σ hheld
    obtain ⟨d, hread, hd, rfl, eload⟩ := load_runs alu hs hheld hr hk
    obtain ⟨b, σ₁, hb, hfb, h₁, eb⟩ := (ih rfl rfl hf).onTop d.cells hheld rfl
    obtain ⟨v, hv, hfv, ebin⟩ := overloaded_runs alu base
      (σ₁.stack low mid temps) hcode hd hfb
    rw [hres] at hfv
    have hty' := (resolve_ty hs hheld (show _ = (d.cells.length : Int) from rfl) hr hr').symm
    rw [hty'] at hk hfv
    obtain ⟨τ, hwrite, hτ, est⟩ := store_runs alu hs h₁ hr' hfv hk
    rw [← hty'] at hfv
    refine ⟨v, τ, eval_combine alu hop hread hb hv hwrite, hfv, hτ, ?_⟩
    · simp only [List.map_cons, List.map_append, Op.effects, eload, Option.bind_some]
      rw [Op.effects_append eb]
      simp only [List.map_nil, Op.effects, ebin, est, Option.bind_some]
  | composite _ hk _ hl hc ihl ihr =>
    cases hp
    cases hty
    simp only [Expr.callFree, Bool.and_eq_true] at hf
    intro temps σ hheld
    obtain ⟨a, σ₁, ha, hfa, h₁, ea⟩ := ihl rfl rfl hf.1 _ _ hheld
    cases size_eq hs hfa hk
    obtain ⟨b, σ₂, hb, hfb, h₂, eb⟩ := (ihr rfl rfl hf.2).onTop a.cells h₁ rfl
    obtain ⟨v, hv, hfv, ec⟩ := composite_runs alu base (σ₂.stack low mid temps) hs hc hfa hfb
    refine ⟨v, σ₂, by simp [eval, ha, hb, hv], hfv, h₂, ?_⟩
    rw [List.map_append, List.map_append, Op.effects_append (Op.effects_append ea ▸ eb)]
    simpa [Op.effects_one] using ec
  | binary _ hk _ hl hcomp hc _ ihl ihr =>
    cases hp
    cases hty
    simp only [Expr.callFree, Bool.and_eq_true] at hf
    intro temps σ hheld
    obtain ⟨a, σ₁, ha, hfa, h₁, ea⟩ := ihl rfl rfl hf.1 _ _ hheld
    cases size_eq hs hfa hk
    obtain ⟨b, σ₂, hb, hfb, h₂, eb⟩ := (ihr rfl rfl hf.2).onTop a.cells h₁ rfl
    obtain ⟨v, hv, hfv, ec⟩ := overloaded_runs alu base (σ₂.stack low mid temps) hc hfa hfb
    rw [← binary_of_composite alu hcomp hfa hfb] at hv
    refine ⟨v, σ₂, by simp [eval, ha, hb, hv], hfv, h₂, ?_⟩
    rw [List.map_append, List.map_append, Op.effects_append (Op.effects_append ea ▸ eb)]
    simpa [Op.effects_one] using ec
  | unary _ hc ih =>
    cases hp
    cases hty
    simp only [Expr.callFree] at hf
    intro temps σ hheld
    obtain ⟨a, σ₁, ha, hfa, h₁, ea⟩ := ih rfl rfl hf _ _ hheld
    obtain ⟨v, hv, hfv, ec⟩ := unary_runs alu base (σ₁.stack low mid temps) hc hfa
    refine ⟨v, σ₁, by simp [eval, ha, hv], hfv, h₁, ?_⟩
    rw [List.map_append, Op.effects_append ea]
    simpa [Op.effects_one] using ec
  | @stepPre s n op target r hr _ hint =>
    cases hp
    cases hty
    intro temps σ hheld
    obtain ⟨n, τ, hread, hwrite, hτ, estep, eload, _⟩ := step_runs alu op hs hheld hr hint
    refine ⟨.cell (.int (alu.step op n)), τ, by simp [eval, hread, Datum.stepped?,
      hwrite], rfl, hτ, ?_⟩
    simp [Op.effects, estep, eload, Datum.cells]
  | @stepPost s n op target r hr _ hint =>
    cases hp
    cases hty
    intro temps σ hheld
    obtain ⟨n, τ, hread, hwrite, hτ, _, _, eload, estep⟩ := step_runs alu op hs hheld hr hint
    refine ⟨.cell (.int n), τ, by simp [eval, hread, Datum.stepped?, hwrite], rfl, hτ, ?_⟩
    simp [Op.effects, estep, eload, Datum.cells]
  | callFunction => cases hp; simp [Expr.callFree] at hf
  | callRoutine => cases hp; simp [Expr.callFree] at hf
  | noArguments => cases hp
  | pushed => cases hp
  | deferred => cases hp

/-- If an expression without calls is compiled, its code leaves the stack as it was, with exactly
the variables updated that the expression assigns, and its value on top. The code generator counts
the slots of that value. -/
theorem expression_code_evaluates {st st' : Codegen.State} (hs : env.structs.Built)
    (ht : env.engine.Typed) (hf : e.callFree = true)
    (hheld : Held env st.scope low mid base temps σ) (hc : Codegen.expr env e st = .ok ty st') :
    ∃ code v τ, st'.out.stream.code = st.out.stream.code ++ code ∧
      st'.scope = st.scope.grown v.cells.length ∧
      eval alu env.engine e σ = some (v, τ) ∧ Datum.Fits env.structs ty v ∧
      Held env st.scope low mid base temps τ ∧
      Op.effects alu base (code.map (·.op)) (σ.stack low mid temps) =
        some (τ.stack low mid temps ++ v.cells) := by
  obtain ⟨code, k, hemits, hcode, hk, hscope, _⟩ := Codegen.expr_emitted hc
  obtain ⟨v, τ, heval, hv, hτ, heff⟩ := emits_computes alu hs.laid ht hemits rfl rfl hf _ _ hheld
  cases size_eq hs.laid hv (Codegen.sizeOfAll_one.mp hk)
  exact ⟨code, v, τ, hcode, hscope, heval, hv, hτ, heff⟩

end Code

/-- A struct of an int and a vector in a function that sees one global. -/
def pointEnv : Env where
  structs := ⟨[⟨"point", [⟨"mark", .int, 0⟩, ⟨"place", .vector, 1⟩], 4⟩]⟩
  globals := [⟨"origin", .struct "point", false⟩]
  sealed := true

/-- An inner block with a variable and a temporary, in a block with a struct. -/
def pointScope : Scope where
  block := { values := [⟨"n", .int⟩], temps := 1 }
  outer := [{ values := [⟨"p", .struct "point"⟩] }]

def pointDatum (mark : Int32) : Datum :=
  .struct "point" [("mark", .cell (.int mark)), ("place", .vector ⟨1⟩ ⟨2⟩ ⟨3⟩)]

def pointStore : Store Datum where
  blocks := [[("n", .cell (.int 7))], [("p", pointDatum 5)]]
  globals := [("origin", pointDatum 4)]

/-- `(n += (n = 2)) * p.mark++ == origin.mark` in a chain of blocks with a pending temporary. -/
def pointExpr : Expr :=
  .binary .eq (.binary .mul (.assign .add ⟨"n", []⟩ (.assign .set ⟨"n", []⟩ (.literal (.int 2))))
    (.step .inc .post ⟨"p", ["mark"]⟩)) (.access ⟨"origin", ["mark"]⟩)

theorem point_expression_evaluates :
    ∃ st' code v τ, Codegen.expr pointEnv pointExpr ⟨{}, pointScope, []⟩ = .ok .int st' ∧
      st'.out.stream.code = code ∧ st'.scope = pointScope.grown v.cells.length ∧
      eval default {} pointExpr pointStore = some (v, τ) ∧ Datum.Fits pointEnv.structs .int v ∧
      Held pointEnv pointScope [] [.int 9] 4 [[.string "x"], []] τ ∧
      Op.effects default 4 (code.map (·.op)) (pointStore.stack [] [.int 9] [[.string "x"], []]) =
        some (τ.stack [] [.int 9] [[.string "x"], []] ++ v.cells) := by
  have hpoint (n : Int32) : Datum.Fits pointEnv.structs (.struct "point") (pointDatum n) :=
    ⟨rfl, _, rfl, rfl, rfl, rfl, rfl, trivial⟩
  have hheld : Held pointEnv pointScope [] [.int 9] 4 [[.string "x"], []] pointStore :=
    ⟨.cons (.cons rfl .nil) rfl (.cons (.cons (hpoint 5) .nil) rfl .nil), .cons (hpoint 4) .nil,
      rfl, .inl rfl⟩
  have hbuilt : pointEnv.structs.Built :=
    .define .empty (show Structs.define ⟨"point", [⟨.int, "mark"⟩, ⟨.vector, "place"⟩]⟩ {} =
      .ok _ pointEnv.structs from rfl)
  obtain ⟨st', hst⟩ : ∃ st', Codegen.expr pointEnv pointExpr ⟨{}, pointScope, []⟩ = .ok .int st' :=
    exists_of_gives (by decide +kernel)
  obtain ⟨code, v, τ, hcode, h⟩ := expression_code_evaluates default hbuilt
    (by simp [Engine.Typed, pointEnv]) rfl hheld hst
  exact ⟨st', code, v, τ, hst, hcode, h⟩

end NwScript
