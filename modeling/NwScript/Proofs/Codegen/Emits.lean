-- The code of expressions, told as a relation: from which scope and handle on, an expression gives
-- which instructions. Whatever code generation writes for an expression is related to it, so that
-- the laws of this code can be proved by induction on the relation alone.
import NwScript.Proofs.Codegen.Steps
import NwScript.Proofs.Storage.Unwind
import NwScript.Codegen.Expr

namespace NwScript

/-! ## Induction on expressions -/

/-- The arguments of a call come before the call. -/
theorem Expr.inductOn {P : Expr → Prop} (literal : ∀ v, P (.literal v))
    (vector : ∀ x y z, P x → P y → P z → P (.vector x y z)) (access : ∀ path, P (.access path))
    (assign : ∀ op target e, P e → P (.assign op target e))
    (binary : ∀ op l r, P l → P r → P (.binary op l r)) (unary : ∀ op e, P e → P (.unary op e))
    (step : ∀ op fix target, P (.step op fix target))
    (call : ∀ name args, (∀ a ∈ args, P a) → P (.call name args)) (e : Expr) : P e :=
  @Expr.rec P (fun args => ∀ a ∈ args, P a) literal vector access assign binary unary step call
    (fun _ h => nomatch h)
    (fun _ _ hhead htail _ ha => by
      rcases List.mem_cons.mp ha with rfl | ha
      · exact hhead
      · exact htail _ ha) e

/-! ## Types of operands and constants -/

theorem code_types {op : BinaryOp} {c : BinaryCode} {left right : Ty}
    (h : op.code? left right = some c) : c.lhs = left ∧ c.rhs = right := by
  have := List.find?_some h
  simpa using this

theorem composite_cases {op : BinaryOp} {left right : Ty} {k : Int} {c : Op}
    (h : op.composite? left right k = some c) : c = .equalTT k ∨ c = .notEqualTT k := by
  unfold BinaryOp.composite? at h
  split at h
  · split at h <;> cases h <;> simp
  · cases h

theorem operand_type {op : UnaryOp} {c : UnaryCode} {ty : Ty} (h : op.code? ty = some c) :
    c.operand = ty := by
  have := List.find?_some h
  simpa using this

namespace Engine

theorem lastWith_at {α : Type} {test : α → Bool} {xs : List α} {i : Nat} {x : α}
    (h : lastWith test xs = some (i, x)) : xs[i]? = some x := by
  obtain ⟨⟨y, j⟩, hfound, heq⟩ := Option.map_eq_some_iff.mp h
  cases heq
  have hmem := List.mem_reverse.mp (List.mem_of_find?_eq_some hfound)
  exact List.mem_zipIdx_iff_getElem?.mp hmem

theorem routine_at {engine : Engine} {name : Name} {index : Nat} {routine : Signature}
    (h : engine.routine? name = some (index, routine)) :
    engine.routines[index]? = some routine := lastWith_at h

theorem mem_constants {engine : Engine} {name : Name} {c : EngineConstant}
    (h : engine.constant? name = some c) : c ∈ engine.constants := by
  obtain ⟨⟨i, x⟩, hx, rfl⟩ := Option.map_eq_some_iff.mp h
  exact List.mem_of_getElem? (lastWith_at hx)

/-- Every constant of the engine is declared with the type of its value. -/
def Typed (engine : Engine) : Prop := ∀ c ∈ engine.constants, c.ty = c.value.ty

theorem Typed.found {engine : Engine} {name : Name} {c : EngineConstant} (h : engine.Typed)
    (hc : engine.constant? name = some c) : c.ty = c.value.ty := h c (mem_constants hc)

end Engine

namespace Codegen

/-! ## The relation -/

/-- What is compiled for the values that it pushes: an expression, or the arguments of a call, each
with its parameter. -/
inductive Phrase where
  | value (e : Expr)
  | arguments (bound : List (Param × Expr))

/-- The parameters of a call with what gives their values. A parameter without an argument takes its
default. -/
def bind? : List Param → List Expr → Option (List (Param × Expr))
  | [], [] => some []
  | [], _ :: _ => none
  | p :: params, a :: args => (bind? params args).map ((p, a) :: ·)
  | p :: params, [] => match p.default with
    | some e => (bind? params []).map ((p, e) :: ·)
    | none => none

/-- The instruction that pops a value, if it has slots. -/
def popping (n : Handle) (size : Nat) : List Instruction :=
  if 0 < size then [⟨n, .moveSp (-size), none⟩] else []

/-- The offset of a variable once one more slot has been pushed. -/
def offsetPast (r : Resolved) : Int :=
  match r.anchor with
  | .sp => r.offset - 1
  | .bp => r.offset

/-- `Emits env s n phrase tys code m`: compiled in the scope `s` with handles from `n` up to `m`,
the phrase gives the code, which pushes values of the types. -/
inductive Emits (env : Env) :
    Scope → Handle → Phrase → List Ty → List Instruction → Handle → Prop
  | literal {s : Scope} {n : Handle} {v : Value} :
      Emits env s n (.value (.literal v)) [v.ty] (numbered n (Op.pushing v))
        (n + (Op.pushing v).length)
  | vector {s : Scope} {n n₁ n₂ m : Handle} {x y z : Expr} {cx cy cz : List Instruction} :
      Emits env s n (.value x) [.float] cx n₁ →
      Emits env (s.grown 1) n₁ (.value y) [.float] cy n₂ →
      Emits env (s.grown 2) n₂ (.value z) [.float] cz m →
      Emits env s n (.value (.vector x y z)) [.vector] (cx ++ cy ++ cz) m
  | constant {s : Scope} {n : Handle} {path : Access} {c : EngineConstant} {k : Nat} :
      path.identifier?.bind env.engine.constant? = some c → env.sizeOf c.ty = .ok k →
      Emits env s n (.value (.access path)) [c.ty] (numbered n (Op.pushing c.value))
        (n + (Op.pushing c.value).length)
  | access {s : Scope} {n : Handle} {path : Access} {r : Resolved} {k : Nat} :
      path.identifier?.bind env.engine.constant? = none → resolveAccess env s path = .ok r →
      env.sizeOf r.ty = .ok k →
      Emits env s n (.value (.access path)) [r.ty] [⟨n, r.load k, none⟩] (n + 1)
  | assign {s : Scope} {n n₁ : Handle} {op : AssignOp} {target : Access} {e : Expr} {r : Resolved}
      {k : Nat} {code : List Instruction} :
      op.arithmetic = none → Emits env s n (.value e) [r.ty] code n₁ → env.sizeOf r.ty = .ok k →
      resolveAccess env (s.grown k) target = .ok r → r.const = false →
      Emits env s n (.value (.assign op target e)) [r.ty] (code ++ [⟨n₁, r.store k, none⟩]) (n₁ + 1)
  | combine {s : Scope} {n n₁ : Handle} {op : AssignOp} {arithmetic : BinaryOp} {target : Access}
      {e : Expr} {r r' : Resolved} {actual : Ty} {k l : Nat} {code : List Instruction}
      {c : BinaryCode} :
      op.arithmetic = some arithmetic → resolveAccess env s target = .ok r → r.const = false →
      env.sizeOf r.ty = .ok k → Emits env (s.grown k) (n + 1) (.value e) [actual] code n₁ →
      env.sizeOf actual = .ok l → arithmetic.code? r.ty actual = some c → c.result = r.ty →
      resolveAccess env (s.grown k) target = .ok r' →
      Emits env s n (.value (.assign op target e)) [r.ty]
        (⟨n, r.load k, none⟩ :: (code ++ [⟨n₁, .binary c, none⟩, ⟨n₁ + 1, r'.store k, none⟩]))
        (n₁ + 2)
  | composite {s : Scope} {n n₁ n₂ : Handle} {op : BinaryOp} {lhs rhs : Expr} {left right : Ty}
      {k l : Nat} {cl cr : List Instruction} {c : Op} :
      Emits env s n (.value lhs) [left] cl n₁ → env.sizeOf left = .ok k →
      Emits env (s.grown k) n₁ (.value rhs) [right] cr n₂ → env.sizeOf right = .ok l →
      op.composite? left right k = some c →
      Emits env s n (.value (.binary op lhs rhs)) [.int] (cl ++ cr ++ [⟨n₂, c, none⟩]) (n₂ + 1)
  | binary {s : Scope} {n n₁ n₂ : Handle} {op : BinaryOp} {lhs rhs : Expr} {left right : Ty}
      {k l j : Nat} {cl cr : List Instruction} {c : BinaryCode} :
      Emits env s n (.value lhs) [left] cl n₁ → env.sizeOf left = .ok k →
      Emits env (s.grown k) n₁ (.value rhs) [right] cr n₂ → env.sizeOf right = .ok l →
      op.composite? left right k = none → op.code? left right = some c →
      env.sizeOf c.result = .ok j →
      Emits env s n (.value (.binary op lhs rhs)) [c.result]
        (cl ++ cr ++ [⟨n₂, .binary c, none⟩]) (n₂ + 1)
  | unary {s : Scope} {n n₁ : Handle} {op : UnaryOp} {e : Expr} {ty : Ty}
      {code : List Instruction} {c : UnaryCode} :
      Emits env s n (.value e) [ty] code n₁ → op.code? ty = some c →
      Emits env s n (.value (.unary op e)) [ty] (code ++ [⟨n₁, .unary c, none⟩]) (n₁ + 1)
  | stepPre {s : Scope} {n : Handle} {op : StepOp} {target : Access} {r : Resolved} :
      resolveAccess env s target = .ok r → r.const = false → r.ty = .int →
      Emits env s n (.value (.step op .pre target)) [.int]
        [⟨n, .step op r.anchor r.offset, none⟩, ⟨n + 1, r.load 1, none⟩] (n + 2)
  | stepPost {s : Scope} {n : Handle} {op : StepOp} {target : Access} {r : Resolved} :
      resolveAccess env s target = .ok r → r.const = false → r.ty = .int →
      Emits env s n (.value (.step op .post target)) [.int]
        [⟨n, r.load 1, none⟩,
          ⟨n + 1, .step op r.anchor (offsetPast r), none⟩] (n + 2)
  | callFunction {s : Scope} {n n₁ : Handle} {name : Name} {args : List Expr} {f : Function}
      {bound : List (Param × Expr)} {ks : List SlotKind} {k : Nat} {tys : List Ty}
      {code : List Instruction} :
      env.functions.find? name = some f → bind? f.signature.params args = some bound →
      env.structs.slots f.signature.returnType = .ok ks →
      env.sizeOf f.signature.returnType = .ok k →
      Emits env (s.grown k) (n + ks.length) (.arguments bound) tys code n₁ →
      Emits env s n (.value (.call name args)) [f.signature.returnType]
        (numbered n (ks.map .reserve) ++ code ++ [⟨n₁, .jump .jsr, some f.entry⟩]) (n₁ + 1)
  | callRoutine {s : Scope} {n n₁ : Handle} {name : Name} {args : List Expr} {index : Nat}
      {routine : Signature} {bound : List (Param × Expr)} {k : Nat} {tys : List Ty}
      {code : List Instruction} :
      env.functions.find? name = none → env.engine.routine? name = some (index, routine) →
      bind? routine.params args = some bound →
      Emits env s n (.arguments bound) tys code n₁ → index < 0x10000 →
      routine.params.length < 0x100 → env.sizeOf routine.returnType = .ok k →
      Emits env s n (.value (.call name args)) [routine.returnType]
        (code ++ [⟨n₁, .action index.toUInt16 routine.params.length.toUInt8, none⟩]) (n₁ + 1)
  | noArguments {s : Scope} {n : Handle} : Emits env s n (.arguments []) [] [] n
  | pushed {s : Scope} {n n₁ m : Handle} {p : Param} {e : Expr} {bound : List (Param × Expr)}
      {k : Nat} {tys : List Ty} {code rest : List Instruction} :
      p.ty ≠ .action → Emits env s n (.value e) [p.ty] code n₁ → env.sizeOf p.ty = .ok k →
      Emits env (s.grown k) n₁ (.arguments bound) tys rest m →
      Emits env s n (.arguments ((p, e) :: bound)) (p.ty :: tys) (code ++ rest) m
  | deferred {s : Scope} {n n₁ m : Handle} {p : Param} {e : Expr} {bound : List (Param × Expr)}
      {globals locals : Int} {ty : Ty} {k : Nat} {tys : List Ty} {code rest : List Instruction} :
      p.ty = .action → env.globalSize = .ok globals → s.fullSize env = .ok locals →
      Emits env s (n + 3) (.value e) [ty] code n₁ → env.sizeOf ty = .ok k →
      Emits env s (n₁ + (popping n₁ k).length + 1) (.arguments bound) tys rest m →
      Emits env s n (.arguments ((p, e) :: bound)) tys
        (⟨n, .storeState (-globals) locals, none⟩ :: ⟨n + 2, .jump .jmp, some (n + 1)⟩ ::
          (code ++ popping n₁ k ++ ⟨n₁ + (popping n₁ k).length, .retn, none⟩ ::
            ⟨n + 1, .nop, none⟩ :: rest)) m

/-! ## Single operations -/

section Operations

variable {env : Env} {s t : State}

theorem literal_ok {v : Value} {ty ty' : Ty} (h : literal env v ty s = .ok ty' t) :
    ty' = ty ∧ ∃ k : Nat, env.sizeOf ty = .ok k ∧
      t = (s.wrote (numbered s.next (Op.pushing v)) (s.next + (Op.pushing v).length)).inScope
        (s.scope.grown k) := by
  simp only [literal, bind_ok, emitAll_ok, sizeOf_ok, grow_ok, pure_ok] at h
  obtain ⟨_, _, ⟨-, rfl⟩, k, _, ⟨hk, rfl⟩, _, _, ⟨-, rfl⟩, rfl, rfl⟩ := h
  exact ⟨rfl, k, hk, rfl⟩

theorem locate_ok {path : Access} {r : Resolved} :
    locate env path s = .ok r t ↔ resolveAccess env s.scope path = .ok r ∧ s = t := by
  simp only [locate, bind_ok, scope_ok, lift_ok]
  constructor
  · rintro ⟨_, _, ⟨rfl, rfl⟩, h, rfl⟩
    exact ⟨h, rfl⟩
  · rintro ⟨h, rfl⟩
    exact ⟨_, _, ⟨rfl, rfl⟩, h, rfl⟩

theorem locateMutable_ok {path : Access} {r : Resolved} :
    locateMutable env path s = .ok r t ↔
      resolveAccess env s.scope path = .ok r ∧ r.const = false ∧ s = t := by
  simp only [locateMutable, bind_ok, locate_ok, refuse_mistake_ok, pure_ok]
  constructor
  · rintro ⟨_, _, ⟨hr, rfl⟩, hc, rfl, rfl⟩
    exact ⟨hr, by simpa using hc, rfl⟩
  · rintro ⟨hr, hc, rfl⟩
    exact ⟨r, s, ⟨hr, rfl⟩, by simp [hc], rfl, rfl⟩

theorem access_ok {path : Access} {ty : Ty} (h : access env path s = .ok ty t) :
    (∃ c, path.identifier?.bind env.engine.constant? = some c ∧
      literal env c.value c.ty s = .ok ty t) ∨
    (path.identifier?.bind env.engine.constant? = none ∧
      ∃ r, ∃ k : Nat, resolveAccess env s.scope path = .ok r ∧ env.sizeOf r.ty = .ok k ∧
        ty = r.ty ∧
        t = (s.wrote [⟨s.next, r.load k, none⟩] (s.next + 1)).inScope (s.scope.grown k)) := by
  cases hc : path.identifier?.bind env.engine.constant? with
  | some c =>
    simp only [access, hc] at h
    exact .inl ⟨c, rfl, h⟩
  | none =>
    simp only [access, hc, bind_ok, locate_ok, sizeOf_ok, emit_ok, grow_ok, pure_ok] at h
    obtain ⟨r, _, ⟨hr, rfl⟩, k, _, ⟨hk, rfl⟩, _, _, ⟨-, rfl⟩, _, _, ⟨-, rfl⟩, rfl, rfl⟩ := h
    exact .inr ⟨rfl, r, k, hr, hk, rfl, rfl⟩

theorem assign_ok {target : Access} {actual ty : Ty} (h : assign env target actual s = .ok ty t) :
    ty = actual ∧ ∃ r, ∃ k : Nat, resolveAccess env s.scope target = .ok r ∧ r.const = false ∧
      r.ty = actual ∧ env.sizeOf r.ty = .ok k ∧
      t = s.wrote [⟨s.next, r.store k, none⟩] (s.next + 1) := by
  simp only [assign, bind_ok, locateMutable_ok, refuse_mistake_ok, sizeOf_ok, emit_ok, pure_ok] at h
  obtain ⟨r, _, ⟨hr, hc, rfl⟩, hty, k, _, ⟨hk, rfl⟩, _, _, ⟨-, rfl⟩, rfl, rfl⟩ := h
  exact ⟨rfl, r, k, hr, hc, (Decidable.not_not.mp hty).symm, hk, rfl⟩

theorem loadTarget_ok {target : Access} {ty : Ty} (h : loadTarget env target s = .ok ty t) :
    ∃ r, ∃ k : Nat, resolveAccess env s.scope target = .ok r ∧ r.const = false ∧ ty = r.ty ∧
      env.sizeOf r.ty = .ok k ∧
      t = (s.wrote [⟨s.next, r.load k, none⟩] (s.next + 1)).inScope (s.scope.grown k) := by
  simp only [loadTarget, bind_ok, locateMutable_ok, sizeOf_ok, emit_ok, grow_ok, pure_ok] at h
  obtain ⟨r, _, ⟨hr, hc, rfl⟩, k, _, ⟨hk, rfl⟩, _, _, ⟨-, rfl⟩, _, _, ⟨-, rfl⟩, rfl, rfl⟩ := h
  exact ⟨r, k, hr, hc, rfl, hk, rfl⟩

theorem combine_ok {op : AssignOp} {arithmetic : BinaryOp} {target : Access} {ty actual ty' : Ty}
    (h : combine env op arithmetic target ty actual s = .ok ty' t) :
    ty' = ty ∧ ∃ c r, ∃ k l : Nat, arithmetic.code? ty actual = some c ∧ c.result = ty ∧
      env.sizeOf ty = .ok k ∧ env.sizeOf actual = .ok l ∧
      resolveAccess env (s.scope.grown (-l)) target = .ok r ∧
      t = (s.wrote [⟨s.next, .binary c, none⟩, ⟨s.next + 1, r.store k, none⟩]
        (s.next + 2)).inScope (s.scope.grown (-l)) := by
  cases hc : (arithmetic.code? ty actual).filter (·.result == ty) with
  | none => simp [combine, hc, mistake_ok] at h
  | some c =>
    obtain ⟨hcode, hres⟩ := Option.filter_eq_some_iff.mp hc
    simp only [combine, hc, bind_ok, sizeOf_ok, emit_ok, lift_ok, Count.sum_ok, grow_ok, locate_ok,
      pure_ok] at h
    obtain ⟨k, _, ⟨hk, rfl⟩, _, _, ⟨-, rfl⟩, l, _, ⟨hl, rfl⟩, _, _, ⟨⟨-, rfl⟩, rfl⟩, _, _,
      ⟨-, rfl⟩, _, _, ⟨-, rfl⟩, r, _, ⟨hr, rfl⟩, _, _, ⟨-, rfl⟩, rfl, rfl⟩ := h
    have hgrown : (s.scope.grown (-((k + l : Nat) : Int))).grown k = s.scope.grown (-l) := by
      simp only [Scope.grown_grown]
      congr 1
      omega
    simp only [State.inScope_scope, State.wrote_scope, hgrown] at hr
    refine ⟨rfl, c, r, k, l, hcode, by simpa using hres, hk, hl, hr, ?_⟩
    simp only [← hgrown]
    simp [State.wrote, State.inScope, State.code, State.next]

theorem binary_ok {op : BinaryOp} {left right ty : Ty} (h : binary env op left right s = .ok ty t) :
    ∃ c, ∃ k l j : Nat, env.sizeOf left = .ok k ∧ env.sizeOf right = .ok l ∧
      env.sizeOf ty = .ok j ∧
      ((op.composite? left right k = some c ∧ ty = .int) ∨
        (op.composite? left right k = none ∧
          ∃ b, op.code? left right = some b ∧ c = .binary b ∧ ty = b.result)) ∧
      t = (s.wrote [⟨s.next, c, none⟩] (s.next + 1)).inScope (s.scope.grown (j - (k + l))) := by
  simp only [binary, bind_ok, sizeOf_ok] at h
  obtain ⟨k, _, ⟨hk, rfl⟩, l, _, ⟨hl, rfl⟩, h⟩ := h
  have hgrown (j : Nat) : (s.scope.grown (-((k + l : Nat) : Int))).grown j =
      s.scope.grown (j - (k + l)) := by
    simp only [Scope.grown_grown]
    congr 1
    omega
  cases hcomp : op.composite? left right k with
  | some c =>
    simp only [hcomp, bind_ok, pure_ok, emit_ok, lift_ok, Count.sum_ok, grow_ok, sizeOf_ok] at h
    obtain ⟨_, _, ⟨rfl, rfl⟩, _, _, ⟨-, rfl⟩, _, _, ⟨⟨-, rfl⟩, rfl⟩, _, _, ⟨-, rfl⟩, j, _,
      ⟨hj, rfl⟩, _, _, ⟨-, rfl⟩, rfl, rfl⟩ := h
    refine ⟨c, k, l, j, hk, hl, hj, .inl ⟨hcomp, rfl⟩, ?_⟩
    rw [← hgrown]
    rfl
  | none =>
    cases hb : op.code? left right with
    | none => simp [hcomp, hb, bind_ok, mistake_ok] at h
    | some b =>
      simp only [hcomp, hb, bind_ok, pure_ok, emit_ok, lift_ok, Count.sum_ok, grow_ok,
        sizeOf_ok] at h
      obtain ⟨_, _, ⟨rfl, rfl⟩, _, _, ⟨-, rfl⟩, _, _, ⟨⟨-, rfl⟩, rfl⟩, _, _, ⟨-, rfl⟩, j, _,
        ⟨hj, rfl⟩, _, _, ⟨-, rfl⟩, rfl, rfl⟩ := h
      refine ⟨.binary b, k, l, j, hk, hl, hj, .inr ⟨hcomp, b, rfl, rfl, rfl⟩, ?_⟩
      rw [← hgrown]
      rfl

theorem unary_ok {op : UnaryOp} {ty ty' : Ty} (h : unary op ty s = .ok ty' t) :
    ty' = ty ∧ ∃ c, op.code? ty = some c ∧
      t = s.wrote [⟨s.next, .unary c, none⟩] (s.next + 1) := by
  cases hc : op.code? ty with
  | none => simp [unary, hc, mistake_ok] at h
  | some c =>
    simp only [unary, hc, bind_ok, emit_ok, pure_ok] at h
    obtain ⟨_, _, ⟨-, rfl⟩, rfl, rfl⟩ := h
    exact ⟨rfl, c, rfl, rfl⟩

theorem pastPush_ok {r : Resolved} {offset : Int} (h : pastPush r = .ok offset) :
    offset = offsetPast r := by
  unfold pastPush at h
  unfold offsetPast
  cases hanchor : r.anchor with
  | sp =>
    simp only [hanchor, Count.checked_ok] at h
    exact h.2.symm
  | bp =>
    simp only [hanchor, Except.ok.injEq] at h
    exact h.symm

theorem step_ok {op : StepOp} {fix : Fix} {target : Access} {ty : Ty}
    (h : step env op fix target s = .ok ty t) :
    ty = .int ∧ ∃ code,
      Emits env s.scope s.next (.value (.step op fix target)) [.int] code (s.next + 2) ∧
      (∀ i ∈ code, i.op ≠ .jump .jsr) ∧
      t = (s.wrote code (s.next + 2)).inScope (s.scope.grown 1) := by
  cases fix with
  | pre =>
    simp only [step, bind_ok, locateMutable_ok, refuse_mistake_ok, emit_ok, grow_ok, pure_ok] at h
    obtain ⟨r, _, ⟨hr, hc, rfl⟩, hty, _, _, ⟨-, rfl⟩, _, _, ⟨-, rfl⟩, _, _, ⟨-, rfl⟩, rfl, rfl⟩ := h
    exact ⟨rfl, _, .stepPre hr hc (Decidable.not_not.mp hty), by simp [Resolved.load], by simp⟩
  | post =>
    simp only [step, bind_ok, locateMutable_ok, refuse_mistake_ok, emit_ok, lift_ok, grow_ok,
      pure_ok] at h
    obtain ⟨r, _, ⟨hr, hc, rfl⟩, hty, _, _, ⟨-, rfl⟩, _, _, ⟨hoffset, rfl⟩, _, _, ⟨-, rfl⟩, _, _,
      ⟨-, rfl⟩, rfl, rfl⟩ := h
    cases pastPush_ok hoffset
    exact ⟨rfl, _, .stepPost hr hc (Decidable.not_not.mp hty), by simp [Resolved.load], by simp⟩

/-- A deferred command: what stands before it, the state after it, and what stands behind it. -/
theorem deferred_ok {command : Gen Ty} {u : Unit} (h : deferred env command s = .ok u t) :
    ∃ globals locals ty, ∃ k : Nat, ∃ v e, env.globalSize = .ok globals ∧
      s.scope.fullSize env = .ok locals ∧
      command (s.wrote [⟨s.next, .storeState (-globals) locals, none⟩,
        ⟨s.next + 2, .jump .jmp, some (s.next + 1)⟩] (s.next + 3)) = .ok ty v ∧
      env.sizeOf ty = .ok k ∧
      t = ((v.wrote (popping v.next k ++ [⟨v.next + (popping v.next k).length, .retn, none⟩,
        ⟨s.next + 1, .nop, none⟩]) (v.next + (popping v.next k).length + 1)).inScope
          (v.scope.grown (-k))).reported e := by
  simp only [deferred, bind_ok, lift_ok, Count.checked_ok, scope_ok, emit_ok, label_ok,
    jump_ok] at h
  obtain ⟨globals, _, ⟨hg, rfl⟩, _, _, ⟨⟨-, rfl⟩, rfl⟩, _, _, ⟨rfl, rfl⟩, locals, _, ⟨hl, rfl⟩, _,
    _, ⟨-, rfl⟩, _, _, ⟨-, rfl, rfl⟩, _, _, ⟨-, rfl⟩, ty, v, hc, h⟩ := h
  simp only [sizeOf_ok] at h
  obtain ⟨k, _, ⟨hk, rfl⟩, h⟩ := h
  refine ⟨globals, locals, ty, k, v, .deferredCompiled (-globals) locals, hg, hl, by simpa using hc,
    hk, ?_⟩
  by_cases hpos : 0 < k
  · simp only [hpos, if_true, bind_ok, pop_ok, grow_ok, emit_ok, place_ok, report_ok] at h
    obtain ⟨_, _, ⟨-, rfl⟩, _, _, ⟨-, rfl⟩, _, _, ⟨-, rfl⟩, _, _, rfl, rfl⟩ := h
    simp [popping, hpos, State.wrote, State.inScope, State.reported, State.code, State.next]
  · simp only [hpos, if_false, bind_ok, grow_ok, emit_ok, place_ok, report_ok] at h
    obtain ⟨_, _, ⟨-, rfl⟩, _, _, ⟨-, rfl⟩, _, _, rfl, rfl⟩ := h
    simp [popping, hpos, State.wrote, State.inScope, State.reported, State.code, State.next]

end Operations

/-! ## Whatever is written is related -/

/-- Names that were called stay marked, and every script function that the code calls is marked. -/
def Marks (env : Env) (code : List Instruction) (s t : State) : Prop :=
  (∀ x ∈ s.marks, x ∈ t.marks) ∧
    ∀ i ∈ code, i.op = .jump .jsr → ∃ f, env.functions.find? f.signature.name = some f ∧
      i.target = some f.entry ∧ f.signature.name ∈ t.marks

/-- The code of a phrase was written, and the values that it pushes were counted. -/
def Emitted (env : Env) (phrase : Phrase) (s : State) (tys : List Ty) (t : State) : Prop :=
  ∃ code, ∃ k : Nat, Emits env s.scope s.next phrase tys code t.next ∧ t.code = s.code ++ code ∧
    env.sizeOfAll tys = .ok k ∧ t.scope = s.scope.grown k ∧ Marks env code s t

section Soundness

variable {env : Env} {s t u : State} {code more : List Instruction} {onDefault : Expr → Gen Ty}

theorem marks_of_called (hc : ∀ x ∈ s.marks, x ∈ t.marks)
    (hj : ∀ i ∈ code, i.op ≠ .jump .jsr) : Marks env code s t :=
  ⟨hc, fun i hi h => absurd h (hj i hi)⟩

theorem Marks.append (h : Marks env code s t) (h' : Marks env more t u) :
    Marks env (code ++ more) s u := by
  refine ⟨fun x hx => h'.1 x (h.1 x hx), ?_⟩
  intro i hi hop
  rcases List.mem_append.mp hi with hi | hi
  · obtain ⟨f, hf, ht, hm⟩ := h.2 i hi hop
    exact ⟨f, hf, ht, h'.1 _ hm⟩
  · exact h'.2 i hi hop

theorem numbered_op {n : Handle} {ops : List Op} {i : Instruction} (h : i ∈ numbered n ops) :
    i.op ∈ ops := by
  induction ops generalizing n with
  | nil => simp [numbered] at h
  | cons op rest ih =>
    rcases List.mem_cons.mp h with rfl | h
    · simp
    · exact List.mem_cons_of_mem _ (ih h)

theorem pushing_ne_jump {v : Value} {op : Op} (h : op ∈ Op.pushing v) : op ≠ .jump .jsr := by
  rintro rfl
  cases v <;> simp [Op.pushing] at h

theorem popping_ne_jump {n : Handle} {k : Nat} {i : Instruction} (h : i ∈ popping n k) :
    i.op ≠ .jump .jsr := by
  unfold popping at h
  split at h
  · simp only [List.mem_singleton] at h
    simp [h]
  · simp at h

theorem sizeOfAll_one {ty : Ty} {k : Nat} : env.sizeOfAll [ty] = .ok k ↔ env.sizeOf ty = .ok k := by
  simp only [Env.sizeOfAll, except_bind_ok, except_pure_ok, Except.ok.injEq, exists_eq_left']
  constructor
  · rintro ⟨a, ha, rfl⟩
    exact ha
  · intro h
    exact ⟨k, h, rfl⟩

theorem emitted_literal {v : Value} {ty ty' : Ty} (h : literal env v ty s = .ok ty' t)
    {phrase : Phrase} (he : Emits env s.scope s.next phrase [ty] (numbered s.next (Op.pushing v))
      (s.next + (Op.pushing v).length)) : Emitted env phrase s [ty'] t := by
  obtain ⟨rfl, k, hk, rfl⟩ := literal_ok h
  exact ⟨_, k, he, rfl, sizeOfAll_one.mpr hk, rfl,
    marks_of_called (fun _ hx => hx) fun i hi => pushing_ne_jump (numbered_op hi)⟩

/-- One argument, in front of those that come after it. -/
theorem argument_emitted {function : Name} {p : Param} {e : Expr} {value : Gen Ty}
    {bound : List (Param × Expr)} {pushed size k : Nat} {tys : List Ty}
    (hv : ∀ s ty t, value s = .ok ty t → Emitted env (.value e) s [ty] t)
    (ha : argument env function p pushed value s = .ok size u)
    (hb : Emitted env (.arguments bound) u tys t) (hk : env.sizeOfAll tys = .ok k) :
    ∃ tys' k', Emitted env (.arguments ((p, e) :: bound)) s tys' t ∧
      env.sizeOfAll tys' = .ok k' ∧ size + k = pushed + k' := by
  obtain ⟨rest, k', hrest, hcode', hk', hscope', hmarks'⟩ := hb
  rw [hk] at hk'
  cases hk'
  by_cases hp : p.ty = .action
  · simp only [argument, hp, if_true, bind_ok, pure_ok] at ha
    obtain ⟨_, _, hd, rfl, rfl⟩ := ha
    obtain ⟨globals, locals, ty, j, v, e', hg, hl, hc, hj, rfl⟩ := deferred_ok hd
    obtain ⟨code, j', hcode, hwrote, hj', hscope, hmarks⟩ := hv _ _ _ hc
    rw [sizeOfAll_one, hj] at hj'
    cases hj'
    simp only [State.wrote_scope, State.wrote_next, State.wrote_code, State.reported_scope,
      State.inScope_scope, State.reported_next, State.inScope_next, State.reported_code,
      State.inScope_code, hscope, Scope.grown_grown, Int.add_right_neg, Scope.grown_zero]
      at hcode hrest hwrote hcode' hscope'
    refine ⟨tys, k, ⟨_, k, .deferred hp hg hl hcode hj hrest, ?_, hk, hscope', ?_⟩, hk, rfl⟩
    · simp [hcode', hwrote]
    · have hmid : Marks env (popping v.next j ++ [⟨v.next + (popping v.next j).length, .retn, none⟩,
          ⟨s.next + 1, .nop, none⟩]) v ((v.wrote (popping v.next j ++
          [⟨v.next + (popping v.next j).length, .retn, none⟩, ⟨s.next + 1, .nop, none⟩])
          (v.next + (popping v.next j).length + 1)).inScope
            (v.scope.grown (-j))|>.reported e') := by
        apply marks_of_called (fun _ hx => hx)
        intro i hi
        rcases List.mem_append.mp hi with hi | hi
        · exact popping_ne_jump hi
        · simp only [List.mem_cons, List.not_mem_nil, or_false] at hi
          rcases hi with rfl | rfl <;> simp
      have hstart : Marks env [⟨s.next, .storeState (-globals) locals, none⟩,
          ⟨s.next + 2, .jump .jmp, some (s.next + 1)⟩] s
          (s.wrote [⟨s.next, .storeState (-globals) locals, none⟩,
            ⟨s.next + 2, .jump .jmp, some (s.next + 1)⟩] (s.next + 3)) :=
        marks_of_called (fun _ hx => hx) (by simp)
      simpa [hscope] using ((hstart.append hmarks).append hmid).append hmarks'
  · simp only [argument, hp, if_false, bind_ok, refuse_mistake_ok, sizeOf_ok, lift_ok,
      Count.sum_ok] at ha
    obtain ⟨actual, _, hva, hty, j, _, ⟨hsize, rfl⟩, ⟨-, rfl⟩, rfl⟩ := ha
    cases Decidable.not_not.mp hty
    obtain ⟨code, _, hcode, hwrote, hj, hscope, hmarks⟩ := hv _ _ _ hva
    rw [sizeOfAll_one, hsize] at hj
    cases hj
    rw [hscope] at hrest
    have hall : env.sizeOfAll (p.ty :: tys) = .ok (j + k) := by
      simp [Env.sizeOfAll, hsize, hk, bind, Except.bind, pure, Except.pure]
    refine ⟨p.ty :: tys, j + k, ⟨code ++ rest, j + k, .pushed hp hcode hsize hrest, ?_, hall, ?_,
      hmarks.append hmarks'⟩, hall, Nat.add_assoc _ _ _⟩
    · simp [hcode', hwrote]
    · simp [hscope', hscope]

theorem noArguments_emitted : Emitted env (.arguments []) s [] s :=
  ⟨[], 0, .noArguments, by simp, rfl, by simp, marks_of_called (fun _ hx => hx) (by simp)⟩

theorem defaults_emitted {function : Name} {params : List Param} {pushed size : Nat}
    (hd : ∀ e s ty t, onDefault e s = .ok ty t → Emitted env (.value e) s [ty] t)
    (h : defaults env onDefault function pushed params s = .ok size t) :
    ∃ bound tys k, bind? params [] = some bound ∧ Emitted env (.arguments bound) s tys t ∧
      env.sizeOfAll tys = .ok k ∧ size = pushed + k := by
  induction params generalizing s pushed with
  | nil =>
    simp only [defaults, pure_ok] at h
    obtain ⟨rfl, rfl⟩ := h
    exact ⟨[], [], 0, rfl, noArguments_emitted, rfl, rfl⟩
  | cons p rest ih =>
    cases hp : p.default with
    | none => simp [defaults, hp, throw_ok] at h
    | some e =>
      simp only [defaults, hp, bind_ok] at h
      obtain ⟨_, u, ha, hb⟩ := h
      obtain ⟨bound, tys, k, hbound, hem, hk, rfl⟩ := ih hb
      obtain ⟨tys', k', hem', hk', hsize⟩ := argument_emitted (hd e) ha hem hk
      exact ⟨(p, e) :: bound, tys', k', by simp [bind?, hp, hbound], hem', hk', hsize⟩

theorem argumentsWith_emitted {function : Name} {params : List Param} {args : List Expr}
    {pushed size : Nat}
    (hd : ∀ e s ty t, onDefault e s = .ok ty t → Emitted env (.value e) s [ty] t)
    (he : ∀ a ∈ args, ∀ s ty t, exprWith env onDefault a s = .ok ty t →
      Emitted env (.value a) s [ty] t)
    (hlen : args.length ≤ params.length)
    (h : argumentsWith env onDefault function pushed params args s = .ok size t) :
    ∃ bound tys k, bind? params args = some bound ∧ Emitted env (.arguments bound) s tys t ∧
      env.sizeOfAll tys = .ok k ∧ size = pushed + k := by
  induction args generalizing params s pushed with
  | nil =>
    rw [argumentsWith.eq_def] at h
    exact defaults_emitted hd h
  | cons a args ih =>
    cases params with
    | nil => simp at hlen
    | cons p params =>
      simp only [argumentsWith, bind_ok] at h
      obtain ⟨_, u, hx, hy⟩ := h
      obtain ⟨bound, tys, k, hbound, hem, hk, rfl⟩ :=
        ih (fun a' ha' => he a' (List.mem_cons_of_mem _ ha')) (by simpa using hlen) hy
      obtain ⟨tys', k', hem', hk', hsize⟩ := argument_emitted (he a (by simp)) hx hem hk
      exact ⟨(p, a) :: bound, tys', k', by simp [bind?, hbound], hem', hk', hsize⟩

theorem checkArguments_ok {function : Name} {params : List Param} {count : Nat} {v : Unit}
    (h : checkArguments function params count = .ok v) : count ≤ params.length := by
  by_cases hlt : params.length < count
  · simp [checkArguments, hlt] at h
  · omega

theorem call_emitted {name : Name} {args : List Expr} {ty : Ty}
    (hd : ∀ e s ty t, onDefault e s = .ok ty t → Emitted env (.value e) s [ty] t)
    (he : ∀ a ∈ args, ∀ s ty t, exprWith env onDefault a s = .ok ty t →
      Emitted env (.value a) s [ty] t)
    (h : exprWith env onDefault (.call name args) s = .ok ty t) :
    Emitted env (.value (.call name args)) s [ty] t := by
  cases hf : env.functions.find? name with
  | some f =>
    simp only [exprWith, hf, callFunction, bind_ok, markCalled_ok, lift_ok, emitAll_ok, sizeOf_ok,
      grow_ok, jump_ok, pure_ok] at h
    obtain ⟨_, _, rfl, _, _, ⟨hcheck, rfl⟩, ops, _, ⟨hops, rfl⟩, _, _, ⟨-, rfl⟩, k, _, ⟨hk, rfl⟩, _,
      _, ⟨-, rfl⟩, size, v, hargs, _, _, ⟨-, rfl⟩, _, _, ⟨-, rfl⟩, rfl, rfl⟩ := h
    simp only [Structs.reserve, except_bind_ok, except_pure_ok] at hops
    obtain ⟨ks, hks, rfl⟩ := hops
    obtain ⟨bound, tys, j, hbound, ⟨code, _, hcode, hwrote, hj, hscope, hmarks⟩, hj', rfl⟩ :=
      argumentsWith_emitted hd he (checkArguments_ok hcheck) hargs
    rw [hj'] at hj
    cases hj
    simp only [State.inScope_scope, State.wrote_scope, State.marked_scope, State.inScope_next,
      State.wrote_next, State.marked_next, List.length_map] at hcode hscope
    refine ⟨_, k, .callFunction hf hbound hks hk hcode, ?_, sizeOfAll_one.mpr hk, ?_, ?_⟩
    · simp [hwrote]
    · simp [hscope]
    · have hname := Functions.name_of_find? hf
      refine ⟨fun x hx => hmarks.1 x (by simpa [State.marked] using .inr hx), ?_⟩
      intro i hi hop
      simp only [List.mem_append, List.mem_singleton] at hi
      rcases hi with (hi | hi) | rfl
      · have := numbered_op hi
        simp [hop] at this
      · exact hmarks.2 i hi hop
      · exact ⟨f, by rw [hname]; exact hf, rfl, hmarks.1 _ (by simp [State.marked, hname])⟩
  | none =>
    cases hr : env.engine.routine? name with
    | none => simp [exprWith, hf, hr, mistake_ok] at h
    | some found =>
      obtain ⟨index, routine⟩ := found
      simp only [exprWith, hf, hr, callRoutine, bind_ok, lift_ok, require_ok, sizeOf_ok,
        grow_ok, emit_ok, pure_ok] at h
      obtain ⟨_, _, ⟨hcheck, rfl⟩, size, v, hargs, _, _, ⟨-, rfl⟩, hindex, hargc, _, _, ⟨-, rfl⟩, k,
        _, ⟨hk, rfl⟩, _, _, ⟨-, rfl⟩, rfl, rfl⟩ := h
      obtain ⟨bound, tys, j, hbound, ⟨code, _, hcode, hwrote, hj, hscope, hmarks⟩, hj', rfl⟩ :=
        argumentsWith_emitted hd he (checkArguments_ok hcheck) hargs
      rw [hj'] at hj
      cases hj
      refine ⟨_, k, .callRoutine hf hr hbound hcode hindex hargc hk, ?_, sizeOfAll_one.mpr hk, ?_,
        hmarks.append (marks_of_called (fun _ hx => hx) (by simp))⟩
      · simp [hwrote]
      · simp [hscope]

theorem component_ok {axis : Name} {ty : Ty} {v : Unit} :
    exprWith.component axis ty s = .ok v t ↔ ty = .float ∧ s = t := by
  by_cases hty : ty = .float
  · simp [exprWith.component, hty, pure_ok]
  · simp [exprWith.component, hty, mistake_ok]

/-- Expressions are compiled as the relation says, if default values are. -/
theorem exprWith_emitted {e : Expr} {ty : Ty}
    (hd : ∀ e s ty t, onDefault e s = .ok ty t → Emitted env (.value e) s [ty] t)
    (h : exprWith env onDefault e s = .ok ty t) : Emitted env (.value e) s [ty] t := by
  induction e using Expr.inductOn generalizing s ty t with
  | literal v =>
    simp only [exprWith] at h
    exact emitted_literal h .literal
  | vector x y z hx hy hz =>
    simp only [exprWith, bind_ok, component_ok, pure_ok] at h
    obtain ⟨_, u, h₁, _, _, ⟨rfl, rfl⟩, _, v, h₂, _, _, ⟨rfl, rfl⟩, _, w, h₃, _, _, ⟨rfl, rfl⟩,
      rfl, rfl⟩ := h
    obtain ⟨cx, kx, ex, wx, hkx, sx, mx⟩ := hx h₁
    obtain ⟨cy, ky, ey, wy, hky, sy, my⟩ := hy h₂
    obtain ⟨cz, kz, ez, wz, hkz, sz, mz⟩ := hz h₃
    have hfloat : env.sizeOfAll [.float] = .ok 1 := rfl
    rw [hfloat] at hkx hky hkz
    cases hkx
    cases hky
    cases hkz
    rw [sx] at ey sy
    rw [sy, Scope.grown_grown] at ez
    refine ⟨_, 3, .vector ex ey ez, by simp [wx, wy, wz], rfl, ?_, (mx.append my).append mz⟩
    simp [sz, sy]
  | access path =>
    simp only [exprWith] at h
    rcases access_ok h with ⟨c, hc, hl⟩ | ⟨hc, r, k, hr, hk, rfl, rfl⟩
    · obtain ⟨_, k, hk, _⟩ := literal_ok hl
      exact emitted_literal hl (.constant hc hk)
    · exact ⟨_, k, .access hc hr hk, rfl, sizeOfAll_one.mpr hk, rfl,
        marks_of_called (fun _ hx => hx) (by simp [Resolved.load])⟩
  | assign op target e he =>
    cases hop : op.arithmetic with
    | none =>
      simp only [exprWith, hop, bind_ok] at h
      obtain ⟨actual, u, hu, h⟩ := h
      obtain ⟨code, k, ecode, wcode, hk, su, mu⟩ := he hu
      obtain ⟨rfl, r, k', hr, hc, rfl, hk', rfl⟩ := assign_ok h
      rw [sizeOfAll_one, hk'] at hk
      cases hk
      rw [su] at hr
      refine ⟨_, k, .assign hop ecode hk' hr hc, by simp [wcode], sizeOfAll_one.mpr hk', su,
        mu.append (marks_of_called (fun _ hx => hx) (by simp [Resolved.store]))⟩
    | some arithmetic =>
      simp only [exprWith, hop, bind_ok] at h
      obtain ⟨_, u, hl, actual, v, hv, h⟩ := h
      obtain ⟨r, k, hr, hc, rfl, hk, rfl⟩ := loadTarget_ok hl
      obtain ⟨code, l, ecode, wcode, hl, sv, mv⟩ := he hv
      obtain ⟨rfl, c, r', k', l', hcode, hres, hk', hl', hr', rfl⟩ := combine_ok h
      rw [hk] at hk'
      cases hk'
      rw [sizeOfAll_one, hl'] at hl
      cases hl
      simp only [State.inScope_scope, State.inScope_next, State.wrote_next, State.inScope_code,
        State.wrote_code] at ecode wcode sv
      have hgrown : v.scope.grown (-l) = s.scope.grown k := by
        rw [sv]
        simp
      rw [hgrown] at hr'
      refine ⟨_, k, .combine hop hr hc hk ecode hl' hcode hres hr', by simp [wcode],
        sizeOfAll_one.mpr hk, hgrown, ?_⟩
      have hload : Marks env [⟨s.next, r.load k, none⟩] s
          ((s.wrote [⟨s.next, r.load k, none⟩] (s.next + 1)).inScope (s.scope.grown k)) :=
        marks_of_called (fun _ hx => hx) (by simp [Resolved.load])
      have hstore : Marks env [⟨v.next, .binary c, none⟩, ⟨v.next + 1, r'.store k, none⟩] v
          ((v.wrote [⟨v.next, .binary c, none⟩, ⟨v.next + 1, r'.store k, none⟩]
            (v.next + 2)).inScope (v.scope.grown (-l))) :=
        marks_of_called (fun _ hx => hx) (by simp [Resolved.store])
      simpa using (hload.append mv).append hstore
  | binary op l r hl hr =>
    simp only [exprWith, bind_ok] at h
    obtain ⟨left, u, hu, right, v, hv, h⟩ := h
    obtain ⟨cl, k, el, wl, hk, su, mu⟩ := hl hu
    obtain ⟨cr, l', er, wr, hl', sv, mv⟩ := hr hv
    obtain ⟨c, k', l'', j, hk', hl'', hj, hc, rfl⟩ := binary_ok h
    rw [sizeOfAll_one, hk'] at hk
    cases hk
    rw [sizeOfAll_one, hl''] at hl'
    cases hl'
    rw [su] at er sv
    have hgrown : v.scope.grown (j - (k + l')) = s.scope.grown j := by
      rw [sv]
      simp only [Scope.grown_grown]
      congr 1
      omega
    rcases hc with ⟨hc, rfl⟩ | ⟨hc, b, hb, rfl, rfl⟩
    · refine ⟨_, j, .composite el hk' er hl'' hc, by simp [wl, wr], sizeOfAll_one.mpr hj, hgrown,
        (mu.append mv).append (marks_of_called (fun _ hx => hx) ?_)⟩
      simp only [List.mem_singleton, forall_eq]
      rcases composite_cases hc with rfl | rfl <;> nofun
    · exact ⟨_, j, .binary el hk' er hl'' hc hb hj, by simp [wl, wr], sizeOfAll_one.mpr hj, hgrown,
        (mu.append mv).append (marks_of_called (fun _ hx => hx) (by simp))⟩
  | unary op e he =>
    simp only [exprWith, bind_ok] at h
    obtain ⟨ty', u, hu, h⟩ := h
    obtain ⟨code, k, ecode, wcode, hk, su, mu⟩ := he hu
    obtain ⟨rfl, c, hc, rfl⟩ := unary_ok h
    exact ⟨_, k, .unary ecode hc, by simp [wcode], hk, su,
      mu.append (marks_of_called (fun _ hx => hx) (by simp))⟩
  | step op fix target =>
    simp only [exprWith] at h
    obtain ⟨rfl, code, hcode, hjump, rfl⟩ := step_ok h
    exact ⟨code, 1, hcode, rfl, rfl, rfl, marks_of_called (fun _ hx => hx) hjump⟩
  | call name args hargs => exact call_emitted hd (fun a ha _ _ _ h => hargs a ha h) h

/-- A call of a function of the script is noted. -/
theorem call_noted {name : Name} {args : List Expr} {f : Function} {ty : Ty}
    (hd : ∀ e s ty t, onDefault e s = .ok ty t → Emitted env (.value e) s [ty] t)
    (hf : env.functions.find? name = some f)
    (h : exprWith env onDefault (.call name args) s = .ok ty t) : name ∈ t.marks := by
  simp only [exprWith, hf, callFunction, bind_ok, markCalled_ok, lift_ok, emitAll_ok, sizeOf_ok,
    grow_ok, jump_ok, pure_ok] at h
  obtain ⟨_, _, rfl, _, _, ⟨hcheck, rfl⟩, _, _, ⟨_, rfl⟩, _, _, ⟨-, rfl⟩, _, _, ⟨_, rfl⟩, _, _,
    ⟨-, rfl⟩, _, _, hargs, _, _, ⟨-, rfl⟩, _, _, ⟨-, rfl⟩, rfl, rfl⟩ := h
  obtain ⟨_, _, _, _, ⟨_, _, _, _, _, _, hmarks⟩, _⟩ :=
    argumentsWith_emitted hd (fun _ _ _ _ _ h => exprWith_emitted hd h) (checkArguments_ok hcheck)
      hargs
  exact hmarks.1 _ (by simp [State.marked])

theorem defaultExpr_emitted {depth : Nat} {e : Expr} {ty : Ty}
    (h : defaultExpr env depth e s = .ok ty t) : Emitted env (.value e) s [ty] t := by
  induction depth generalizing e s ty t with
  | zero => cases h
  | succ depth ih => exact exprWith_emitted (fun _ _ _ _ h => ih h) h

/-- Whatever code generation writes for an expression is related to it. -/
theorem expr_emitted {e : Expr} {ty : Ty} (h : expr env e s = .ok ty t) :
    Emitted env (.value e) s [ty] t :=
  exprWith_emitted (fun _ _ _ _ h => defaultExpr_emitted h) h

end Soundness

end Codegen

end NwScript
