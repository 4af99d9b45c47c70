-- The code of statements, told as a relation in the same way as that of expressions. Labels get
-- their handles before the code between the jump and the label, and stand behind it.
import NwScript.Proofs.Codegen.Emits
import NwScript.Codegen.Body

namespace NwScript

/-! ## Induction on statements -/

/-- The statements inside a statement come before it. -/
theorem Stmt.inductOn {P : Stmt → Prop} (expr : ∀ e, P (.expr e))
    (declare : ∀ ty ds, P (.declare ty ds))
    (block : ∀ body, (∀ s ∈ body, P s) → P (.block body))
    (ifElse : ∀ e onTrue onFalse, (∀ s ∈ onTrue, P s) →
      (∀ body, onFalse = some body → ∀ s ∈ body, P s) → P (.ifElse e onTrue onFalse))
    (whileLoop : ∀ e body, (∀ s ∈ body, P s) → P (.whileLoop e body))
    (doWhile : ∀ body e, (∀ s ∈ body, P s) → P (.doWhile body e))
    (forLoop : ∀ init e step body, (∀ s ∈ body, P s) → P (.forLoop init e step body))
    (switch : ∀ e arms, (∀ a ∈ arms, ∀ s ∈ a.2, P s) → P (.switch e arms))
    (breakOut : P .breakOut) (continueLoop : P .continueLoop) (ret : ∀ value, P (.ret value))
    (s : Stmt) : P s :=
  @Stmt.rec P (fun body => ∀ s ∈ body, P s) (fun onFalse => ∀ body, onFalse = some body →
    ∀ s ∈ body, P s) (fun arms => ∀ a ∈ arms, ∀ s ∈ a.2, P s) (fun arm => ∀ s ∈ arm.2, P s)
    expr declare block ifElse whileLoop doWhile forLoop switch breakOut continueLoop ret
    (fun _ h => nomatch h)
    (fun _ _ hhead htail _ hs => by
      rcases List.mem_cons.mp hs with rfl | hs
      · exact hhead
      · exact htail _ hs)
    (fun _ h => nomatch h)
    (fun _ hbody _ h => by
      cases h
      exact hbody)
    (fun _ h => nomatch h)
    (fun _ _ hhead htail _ ha => by
      rcases List.mem_cons.mp ha with rfl | ha
      · exact hhead
      · exact htail _ ha)
    (fun _ _ hbody => hbody) s

/-- The scope after the declaration of a variable of `size` slots. -/
def Scope.declared (s : Scope) (name : Name) (ty : Ty) (size : Nat) : Scope :=
  { s with block := { s.block.push name ty with
    locals := (name, ⟨ty, s.block.cursor⟩) :: s.block.locals
    cursor := s.block.cursor + size } }

namespace Codegen

/-! ## Parts of statements -/

/-- An expression whose value is dropped, if it is there. -/
inductive Discards (env : Env) (s : Scope) :
    Handle → Option Expr → List Instruction → Handle → Prop
  | none {n : Handle} : Discards env s n none [] n
  | some {n n₁ : Handle} {e : Expr} {ty : Ty} {k : Nat} {code : List Instruction} :
      Emits env s n (.value e) [ty] code n₁ → env.sizeOf ty = .ok k →
      Discards env s n (some e) (code ++ popping n₁ k) (n₁ + (popping n₁ k).length)

/-- The condition of a loop, if it is there, which leaves the loop when it is zero. -/
inductive Guards (env : Env) (s : Scope) (done : Handle) :
    Handle → Option Expr → List Instruction → Handle → Prop
  | none {n : Handle} : Guards env s done n none [] n
  | some {n n₁ : Handle} {e : Expr} {code : List Instruction} :
      Emits env s n (.value e) [.int] code n₁ →
      Guards env s done n (some e) (code ++ [⟨n₁, .jump .jz, some done⟩]) (n₁ + 1)

/-- Declared variables, each of which is reserved before its first value is computed. -/
inductive Declares (env : Env) (ty : Ty) :
    Scope → Handle → List Declarator → Scope → List Instruction → Handle → Prop
  | nil {s : Scope} {n : Handle} : Declares env ty s n [] s [] n
  | plain {s s' : Scope} {n m : Handle} {d : Declarator} {rest : List Declarator}
      {ks : List SlotKind} {k : Nat} {code : List Instruction} :
      d.init = none → env.structs.slots ty = .ok ks → env.sizeOf ty = .ok k →
      Declares env ty (s.declared d.name ty k) (n + ks.length) rest s' code m →
      Declares env ty s n (d :: rest) s' (numbered n (ks.map .reserve) ++ code) m
  | initialized {s s' : Scope} {n n₁ m : Handle} {d : Declarator} {rest : List Declarator}
      {ks : List SlotKind} {k : Nat} {e : Expr} {r : Resolved} {value code : List Instruction} :
      d.init = some e → env.structs.slots ty = .ok ks → env.sizeOf ty = .ok k →
      Emits env (s.declared d.name ty k) (n + ks.length) (.value e) [ty] value n₁ →
      ((s.declared d.name ty k).grown k).resolve env d.name = .ok r →
      Declares env ty (s.declared d.name ty k) (n₁ + 2) rest s' code m →
      Declares env ty s n (d :: rest) s'
        (numbered n (ks.map .reserve) ++ value ++
          [⟨n₁, .copyDown .sp r.offset k, none⟩, ⟨n₁ + 1, .moveSp (-k), none⟩] ++ code) m

/-- The comparisons of the value on top of the stack with labels, each of which leads to the arm
beside it. At most one of the labels is the default. -/
inductive Tests (env : Env) (s : Scope) (ty : Ty) (c : BinaryCode) :
    Handle → List (SwitchLabel × Handle) → Option Handle → Option Handle → List Instruction →
      Handle → Prop
  | nil {n : Handle} {default : Option Handle} : Tests env s ty c n [] default default [] n
  | case {n n₁ m arm : Handle} {e : Expr} {rest : List (SwitchLabel × Handle)}
      {default default' : Option Handle} {value code : List Instruction} :
      Emits env (s.grown 1) (n + 1) (.value e) [ty] value n₁ →
      Tests env s ty c (n₁ + 2) rest default default' code m →
      Tests env s ty c n ((.case e, arm) :: rest) default default'
        (⟨n, .copyTop .sp (-1) 1, none⟩ :: (value ++
          [⟨n₁, .binary c, none⟩, ⟨n₁ + 1, .jump .jnz, some arm⟩] ++ code)) m
  | default {n m arm : Handle} {rest : List (SwitchLabel × Handle)} {default' : Option Handle}
      {code : List Instruction} :
      Tests env s ty c n rest (some arm) default' code m →
      Tests env s ty c n ((.default, arm) :: rest) none default' code m

/-- The labels of all arms, each with the handle of its arm. -/
def labelled : List (List SwitchLabel × List Stmt) → List Handle → List (SwitchLabel × Handle)
  | (labels, _) :: rest, arm :: arms => labels.map (·, arm) ++ labelled rest arms
  | _, _ => []

/-- The comparison of a switch on a type. -/
def switchOn? : Ty → Option BinaryCode
  | .int => some .equalII
  | .string => some .equalSS
  | _ => none

/-- The instructions that move a returned value to the slots below the frame, if it has slots. -/
def returning (n : Handle) (height : Int) (size : Nat) : List Instruction :=
  if 0 < size then
    [⟨n, .copyDown .sp (-(height + 2 * size)) size, none⟩, ⟨n + 1, .moveSp (-size), none⟩]
  else []

/-! ## The relation -/

/-- What is compiled in a block: a statement, the rest of a block with its end, the arms of a
switch with their labels, or the rest of an arm. -/
inductive Piece where
  | stmt (s : Stmt)
  | block (body : List Stmt)
  | arms (arms : List (Handle × List Stmt))
  | arm (body : List Stmt)

/-- `Lays env frame s n piece s' flow code m`: compiled in the scope `s` with handles from `n` up to
`m`, the piece gives the code and leaves the scope `s'` behind. -/
inductive Lays (env : Env) (frame : Frame) :
    Scope → Handle → Piece → Scope → Flow → List Instruction → Handle → Prop
  | expr {s : Scope} {n m : Handle} {e : Expr} {code : List Instruction} :
      Discards env s n (some e) code m → Lays env frame s n (.stmt (.expr e)) s .next code m
  | declare {s s' : Scope} {n m : Handle} {ty : Ty} {ds : List Declarator}
      {code : List Instruction} :
      Declares env ty s n ds s' code m →
      Lays env frame s n (.stmt (.declare ty ds)) s' .next code m
  | block {s s' : Scope} {n m : Handle} {body : List Stmt} {flow : Flow}
      {code : List Instruction} :
      Lays env frame (s.child {}) n (.block body) s' flow code m →
      Lays env frame s n (.stmt (.block body)) s flow code m
  | ifThen {s s' : Scope} {n n₁ m : Handle} {e : Expr} {onTrue : List Stmt} {flow : Flow}
      {test code : List Instruction} :
      Emits env s n (.value e) [.int] test n₁ →
      Lays env frame (s.child {}) (n₁ + 2) (.block onTrue) s' flow code m →
      Lays env frame s n (.stmt (.ifElse e onTrue none)) s .next
        (test ++ ⟨n₁ + 1, .jump .jz, some n₁⟩ :: (code ++ [⟨n₁, .nop, none⟩])) m
  | ifElse {s s₁ s₂ : Scope} {n n₁ n₂ m : Handle} {e : Expr} {onTrue onFalse : List Stmt}
      {flow₁ flow₂ : Flow} {test code₁ code₂ : List Instruction} :
      Emits env s n (.value e) [.int] test n₁ →
      Lays env frame (s.child {}) (n₁ + 2) (.block onTrue) s₁ flow₁ code₁ n₂ →
      Lays env frame (s.child {}) (n₂ + 2) (.block onFalse) s₂ flow₂ code₂ m →
      Lays env frame s n (.stmt (.ifElse e onTrue (some onFalse))) s .next
        (test ++ ⟨n₁ + 1, .jump .jz, some n₁⟩ :: (code₁ ++
          ⟨n₂ + 1, .jump .jmp, some n₂⟩ :: ⟨n₁, .nop, none⟩ :: (code₂ ++ [⟨n₂, .nop, none⟩]))) m
  | whileLoop {s s' : Scope} {n n₁ m : Handle} {e : Expr} {body : List Stmt} {flow : Flow}
      {test code : List Instruction} :
      Emits env s (n + 1) (.value e) [.int] test n₁ →
      Lays env frame (s.child { breakTo := some n₁, continueTo := some n }) (n₁ + 2) (.block body)
        s' flow code m →
      Lays env frame s n (.stmt (.whileLoop e body)) s .next
        (⟨n, .nop, none⟩ :: (test ++ ⟨n₁ + 1, .jump .jz, some n₁⟩ :: (code ++
          [⟨m, .jump .jmp, some n⟩, ⟨n₁, .nop, none⟩]))) (m + 1)
  | doWhile {s s' : Scope} {n n₁ m : Handle} {e : Expr} {body : List Stmt} {flow : Flow}
      {code test : List Instruction} :
      Lays env frame (s.child { breakTo := some (n + 1), continueTo := some (n + 2) }) (n + 3)
        (.block body) s' flow code n₁ →
      Emits env s n₁ (.value e) [.int] test m →
      Lays env frame s n (.stmt (.doWhile body e)) s .next
        (⟨n, .nop, none⟩ :: (code ++ ⟨n + 2, .nop, none⟩ :: (test ++
          [⟨m, .jump .jnz, some n⟩, ⟨n + 1, .nop, none⟩]))) (m + 1)
  | forLoop {s s' : Scope} {n n₁ n₂ n₃ m : Handle} {init e step : Option Expr} {body : List Stmt}
      {flow : Flow} {first test code last : List Instruction} :
      Discards env s n init first n₁ → Guards env s (n₁ + 1) (n₁ + 3) e test n₂ →
      Lays env frame (s.child { breakTo := some (n₁ + 1), continueTo := some (n₁ + 2) }) n₂
        (.block body) s' flow code n₃ →
      Discards env s n₃ step last m →
      Lays env frame s n (.stmt (.forLoop init e step body)) s .next
        (first ++ ⟨n₁, .nop, none⟩ :: (test ++ code ++ ⟨n₁ + 2, .nop, none⟩ :: (last ++
          [⟨m, .jump .jmp, some n₁⟩, ⟨n₁ + 1, .nop, none⟩]))) (m + 1)
  | switch {s s' : Scope} {n n₁ n₂ m : Handle} {e : Expr} {ty : Ty} {c : BinaryCode}
      {cases : List (List SwitchLabel × List Stmt)} {default : Option Handle}
      {value tests code : List Instruction} :
      Emits env s n (.value e) [ty] value n₁ → switchOn? ty = some c →
      Tests env (s.grown 1) ty c (n₁ + 1 + cases.length)
        (labelled cases (List.range' (n₁ + 1) cases.length)) none default tests n₂ →
      Lays env frame ((s.grown 1).child { breakTo := some n₁ }) (n₂ + 1)
        (.arms ((List.range' (n₁ + 1) cases.length).zip (cases.map (·.2)))) s' .next code m →
      Lays env frame s n (.stmt (.switch e cases)) s .next
        (value ++ tests ++ ⟨n₂, .jump .jmp, some (default.getD n₁)⟩ :: (code ++
          [⟨n₁, .nop, none⟩, ⟨m, .moveSp (-1), none⟩])) (m + 1)
  | breakOut {s : Scope} {n target : Handle} {size : Int} :
      s.breakTarget env = .ok (some (target, size)) →
      Lays env frame s n (.stmt .breakOut) s .next
        [⟨n, .moveSp (-size), none⟩, ⟨n + 1, .jump .jmp, some target⟩] (n + 2)
  | continueLoop {s : Scope} {n target : Handle} {size : Int} :
      s.continueTarget env = .ok (some (target, size)) →
      Lays env frame s n (.stmt .continueLoop) s .next
        [⟨n, .moveSp (-size), none⟩, ⟨n + 1, .jump .jmp, some target⟩] (n + 2)
  | exit {s : Scope} {n : Handle} {height : Int} :
      frame.returnType = .void → s.fullSize env = .ok height →
      Lays env frame s n (.stmt (.ret none)) s .returned
        [⟨n, .moveSp (-height), none⟩, ⟨n + 1, .jump .jmp, some frame.retn⟩] (n + 2)
  | exitWith {s : Scope} {n n₁ n₂ : Handle} {e : Expr} {k : Nat} {height : Int}
      {value : List Instruction} :
      s.fullSize env = .ok height → Emits env s n (.value e) [frame.returnType] value n₁ →
      env.sizeOf frame.returnType = .ok k → n₂ = n₁ + (returning n₁ height k).length →
      Lays env frame s n (.stmt (.ret (some e))) s .returned
        (value ++ returning n₁ height k ++ [⟨n₂, .moveSp (-height), none⟩,
          ⟨n₂ + 1, .jump .jmp, some frame.retn⟩]) (n₂ + 2)
  | blockEnd {s : Scope} {n : Handle} {k : Nat} :
      s.block.size env = .ok k → s.block.temps = 0 →
      Lays env frame s n (.block []) s .next [⟨n, .moveSp (-k), none⟩] (n + 1)
  | blockNext {s s₁ s₂ : Scope} {n n₁ m : Handle} {stmt : Stmt} {rest : List Stmt} {flow : Flow}
      {code more : List Instruction} :
      Lays env frame s n (.stmt stmt) s₁ .next code n₁ →
      Lays env frame s₁ n₁ (.block rest) s₂ flow more m →
      Lays env frame s n (.block (stmt :: rest)) s₂ flow (code ++ more) m
  | blockReturned {s s₁ : Scope} {n m : Handle} {stmt : Stmt} {rest : List Stmt}
      {code : List Instruction} :
      Lays env frame s n (.stmt stmt) s₁ .returned code m →
      Lays env frame s n (.block (stmt :: rest)) s₁ .returned code m
  | noArms {s : Scope} {n : Handle} : Lays env frame s n (.arms []) s .next [] n
  | arms {s : Scope} {n n₁ m label : Handle} {body : List Stmt} {rest : List (Handle × List Stmt)}
      {flow : Flow} {code more : List Instruction} :
      Lays env frame s n (.arm body) s flow code n₁ →
      Lays env frame s n₁ (.arms rest) s .next more m →
      Lays env frame s n (.arms ((label, body) :: rest)) s .next
        (⟨label, .nop, none⟩ :: (code ++ more)) m
  | armEnd {s : Scope} {n : Handle} : Lays env frame s n (.arm []) s .next [] n
  | armNext {s : Scope} {n n₁ m : Handle} {stmt : Stmt} {rest : List Stmt} {flow : Flow}
      {code more : List Instruction} :
      Lays env frame s n (.stmt stmt) s .next code n₁ →
      Lays env frame s n₁ (.arm rest) s flow more m →
      Lays env frame s n (.arm (stmt :: rest)) s flow (code ++ more) m
  | armReturned {s : Scope} {n m : Handle} {stmt : Stmt} {rest : List Stmt}
      {code : List Instruction} :
      Lays env frame s n (.stmt stmt) s .returned code m →
      Lays env frame s n (.arm (stmt :: rest)) s .returned code m

/-! ## Parts that are written are related -/

/-- The code was written behind the rest, and the functions that it calls are marked. -/
structure Writes (env : Env) (s t : State) (code : List Instruction) : Prop where
  code_eq : t.code = s.code ++ code
  marks : Marks env code s t

section Parts

variable {env : Env} {s t u : State} {code more : List Instruction}

theorem Writes.append (h : Writes env s t code) (h' : Writes env t u more) :
    Writes env s u (code ++ more) :=
  ⟨by simp [h'.code_eq, h.code_eq], h.marks.append h'.marks⟩

/-- Instructions other than calls. -/
theorem writes_plain {n : Handle} {scope : Scope} (hj : ∀ i ∈ code, i.op ≠ .jump .jsr) :
    Writes env s ((s.wrote code n).inScope scope) code :=
  ⟨rfl, marks_of_called (fun _ hx => hx) hj⟩

theorem writes_only {n : Handle} (hj : ∀ i ∈ code, i.op ≠ .jump .jsr) :
    Writes env s (s.wrote code n) code :=
  ⟨rfl, marks_of_called (fun _ hx => hx) hj⟩

theorem writes_nil : Writes env s s [] := ⟨by simp, marks_of_called (fun _ hx => hx) (by simp)⟩

theorem expr_written {e : Expr} {ty : Ty} (h : expr env e s = .ok ty t) :
    ∃ code, ∃ k : Nat, Emits env s.scope s.next (.value e) [ty] code t.next ∧
      env.sizeOf ty = .ok k ∧ t.scope = s.scope.grown k ∧ Writes env s t code := by
  obtain ⟨code, k, hcode, hwrote, hk, hscope, hmarks⟩ := expr_emitted h
  exact ⟨code, k, hcode, sizeOfAll_one.mp hk, hscope, hwrote, hmarks⟩

theorem discarded_written {e : Expr} {v : Unit} (h : discarded env e s = .ok v t) :
    ∃ code, Discards env s.scope s.next (some e) code t.next ∧ t.scope = s.scope ∧
      Writes env s t code := by
  simp only [discarded, bind_ok, sizeOf_ok] at h
  obtain ⟨ty, w, hw, k, _, ⟨hk, rfl⟩, h⟩ := h
  obtain ⟨code, k', hcode, hk', hscope, hwrites⟩ := expr_written hw
  rw [hk] at hk'
  cases hk'
  have hback : w.scope.grown (-k) = s.scope := by simp [hscope]
  have hpop : t = (w.wrote (popping w.next k) (w.next + (popping w.next k).length)).inScope
      (w.scope.grown (-k)) := by
    by_cases hpos : 0 < k
    · simp only [hpos, if_true, bind_ok, pop_ok, grow_ok] at h
      obtain ⟨_, _, ⟨-, rfl⟩, -, rfl⟩ := h
      simp [popping, hpos]
    · simp only [hpos, if_false, grow_ok] at h
      simp [popping, hpos, h.2]
  rw [hback] at hpop
  subst hpop
  exact ⟨_, .some hcode hk, rfl, hwrites.append (writes_plain fun i hi => popping_ne_jump hi)⟩

theorem discarded?_written {e : Option Expr} {v : Unit} (h : discarded? env e s = .ok v t) :
    ∃ code, Discards env s.scope s.next e code t.next ∧ t.scope = s.scope ∧
      Writes env s t code := by
  cases e with
  | none =>
    simp only [discarded?, pure_ok] at h
    obtain ⟨_, rfl⟩ := h
    exact ⟨[], .none, rfl, writes_nil⟩
  | some e => exact discarded_written h

theorem condition_written {keyword : String} {e : Expr} {v : Unit}
    (h : condition env keyword e s = .ok v t) :
    ∃ code, Emits env s.scope s.next (.value e) [.int] code t.next ∧
      t.scope = s.scope.grown 1 ∧ Writes env s t code := by
  simp only [condition, bind_ok] at h
  obtain ⟨ty, w, hw, h⟩ := h
  by_cases hty : ty = .int
  · subst hty
    simp only [ne_eq, not_true_eq_false, if_false, pure_ok] at h
    obtain ⟨_, rfl⟩ := h
    obtain ⟨code, k, hcode, hk, hscope, hwrites⟩ := expr_written hw
    cases hk
    exact ⟨code, hcode, hscope, hwrites⟩
  · simp [hty, mistake_ok] at h

theorem branch_ok {c : JumpCode} {target : Handle} {v : Unit} :
    branch c target s = .ok v t ↔
      (s.next < Handle.limit ∧ Count.Fits (s.scope.block.temps - 1)) ∧
        t = (s.wrote [⟨s.next, .jump c, some target⟩] (s.next + 1)).inScope
          (s.scope.grown (-1)) := by
  simp only [branch, bind_ok, jump_ok, grow_ok]
  constructor
  · rintro ⟨_, _, ⟨hroom, rfl⟩, hfits, rfl⟩
    exact ⟨⟨hroom, hfits⟩, rfl⟩
  · rintro ⟨⟨hroom, hfits⟩, rfl⟩
    exact ⟨(), _, ⟨hroom, rfl⟩, hfits, rfl⟩

theorem declare_ok {name : Name} {ty : Ty} {b : Block} {s : Scope} :
    s.block.declare env name ty = .ok b ↔
      ∃ k : Nat, env.sizeOf ty = .ok k ∧ Count.Fits (s.block.cursor + k) ∧
        { s with block := b } = s.declared name ty k := by
  simp only [Block.declare, except_bind_ok, Count.sum_ok, except_pure_ok]
  constructor
  · rintro ⟨k, hk, _, ⟨hfits, rfl⟩, rfl⟩
    exact ⟨k, hk, hfits, rfl⟩
  · rintro ⟨k, hk, hfits, hb⟩
    exact ⟨k, hk, _, ⟨hfits, rfl⟩, (congrArg Scope.block hb).symm⟩

theorem initialValue_written {name : Name} {ty : Ty} {e : Expr} {v : Unit}
    (h : initialValue env name ty e s = .ok v t) :
    ∃ value n₁ r, ∃ k : Nat, env.sizeOf ty = .ok k ∧
      Emits env s.scope s.next (.value e) [ty] value n₁ ∧
      (s.scope.grown k).resolve env name = .ok r ∧ t.next = n₁ + 2 ∧ t.scope = s.scope ∧
      Writes env s t (value ++
        [⟨n₁, .copyDown .sp r.offset k, none⟩, ⟨n₁ + 1, .moveSp (-k), none⟩]) := by
  simp only [initialValue, bind_ok, refuse_mistake_ok, sizeOf_ok, scope_ok, lift_ok, emit_ok,
    pop_ok, grow_ok] at h
  obtain ⟨actual, w, hw, hty, k, _, ⟨hk, rfl⟩, _, _, ⟨rfl, rfl⟩, r, _, ⟨hr, rfl⟩, _, _, ⟨-, rfl⟩, _,
    _, ⟨-, rfl⟩, -, rfl⟩ := h
  cases Decidable.not_not.mp hty
  obtain ⟨value, l, hcode, hl, hscope, hwrites⟩ := expr_written hw
  rw [hk] at hl
  cases hl
  rw [hscope] at hr
  refine ⟨value, w.next, r, k, hk, hcode, hr, rfl, by simp [hscope], ?_⟩
  refine hwrites.append ?_
  have hstore : Writes env w ((w.wrote [⟨w.next, .copyDown .sp r.offset k, none⟩,
      ⟨w.next + 1, .moveSp (-k), none⟩] (w.next + 2)).inScope (w.scope.grown (-k))) _ :=
    writes_plain (by simp)
  simpa using hstore

theorem declaration_written {ty : Ty} {ds : List Declarator} {v : Unit}
    (h : declaration env ty ds s = .ok v t) :
    ∃ code, Declares env ty s.scope s.next ds t.scope code t.next ∧ Writes env s t code := by
  induction ds generalizing s with
  | nil =>
    simp only [declaration, pure_ok] at h
    obtain ⟨_, rfl⟩ := h
    exact ⟨[], .nil, writes_nil⟩
  | cons d rest ih =>
    simp only [declaration, bind_ok, require_mistake_ok, lift_ok, scope_ok, refuse_mistake_ok,
      emitAll_ok, setBlock_ok] at h
    obtain ⟨_, _, _, ⟨_, rfl⟩, _, _, ⟨rfl, rfl⟩, _, ops, _, ⟨hops, rfl⟩, _, _, ⟨-, rfl⟩, _, _,
      ⟨rfl, rfl⟩, b, _, ⟨hb, rfl⟩, _, _, rfl, h⟩ := h
    simp only [Structs.reserve, except_bind_ok, except_pure_ok] at hops
    obtain ⟨ks, hks, rfl⟩ := hops
    obtain ⟨k, hk, -, hdeclared⟩ := declare_ok.mp hb
    simp only [State.wrote_scope] at hdeclared
    simp only [State.wrote_scope, hdeclared, List.length_map] at h
    have hreserve : Writes env s ((s.wrote (numbered s.next (ks.map .reserve))
        (s.next + ks.length)).inScope (s.scope.declared d.name ty k))
        (numbered s.next (ks.map .reserve)) := by
      refine writes_plain fun i hi hop => ?_
      have := numbered_op hi
      simp [hop] at this
    cases hi : d.init with
    | none =>
      simp only [hi] at h
      obtain ⟨code, hcode, hwrites⟩ := ih h
      exact ⟨_, .plain hi hks hk hcode, hreserve.append hwrites⟩
    | some e =>
      simp only [hi, bind_ok] at h
      obtain ⟨_, w, hw, h⟩ := h
      obtain ⟨value, n₁, r, k', hk', hvalue, hr, hnext, hscope, hwrites⟩ := initialValue_written hw
      rw [hk] at hk'
      cases hk'
      obtain ⟨code, hcode, hrest⟩ := ih h
      rw [hnext, hscope] at hcode
      refine ⟨_, .initialized hi hks hk hvalue hr hcode, ?_⟩
      simpa using (hreserve.append hwrites).append hrest

theorem leave_ok {keyword : String} {target : Except Failure (Option (Handle × Int))}
    {v : Unit} (h : leave keyword target s = .ok v t) :
    ∃ h size, target = .ok (some (h, size)) ∧
      t = s.wrote [⟨s.next, .moveSp (-size), none⟩, ⟨s.next + 1, .jump .jmp, some h⟩]
        (s.next + 2) := by
  simp only [leave, bind_ok, lift_ok] at h
  obtain ⟨found, _, ⟨hfound, rfl⟩, h⟩ := h
  cases found with
  | none => simp [mistake_ok] at h
  | some found =>
    obtain ⟨target, size⟩ := found
    simp only [bind_ok, pop_ok, jump_ok] at h
    obtain ⟨_, _, ⟨-, rfl⟩, -, rfl⟩ := h
    exact ⟨target, size, hfound, by simp⟩

/-! ### The tests of a switch -/

theorem switchCode_ok {ty : Ty} {c : BinaryCode} (h : switchCode ty s = .ok c t) :
    switchOn? ty = some c ∧ env.sizeOf ty = .ok 1 ∧ s = t := by
  cases ty <;> simp only [switchCode, pure_ok, mistake_ok] at h
  · exact ⟨congrArg some h.1, rfl, h.2⟩
  · exact ⟨congrArg some h.1, rfl, h.2⟩

theorem armLabels_ok {α : Type} {xs : List α} {ls : List Instruction}
    (h : armLabels xs s = .ok ls t) :
    ls = (List.range' s.next xs.length).map (⟨·, .nop, none⟩) ∧
      t = s.wrote [] (s.next + xs.length) := by
  induction xs generalizing s ls with
  | nil =>
    simp only [armLabels, pure_ok] at h
    obtain ⟨rfl, rfl⟩ := h
    simp
  | cons x rest ih =>
    simp only [armLabels, bind_ok, label_ok, pure_ok] at h
    obtain ⟨_, _, ⟨-, rfl, rfl⟩, ls', _, hrest, rfl, rfl⟩ := h
    obtain ⟨rfl, rfl⟩ := ih hrest
    exact ⟨by simp [List.range'_succ], by simp [Nat.add_assoc, Nat.add_comm 1]⟩

theorem Tests.append {scope : Scope} {ty : Ty} {c : BinaryCode} {n n₁ m : Handle}
    {ls ls' : List (SwitchLabel × Handle)} {d d₁ d₂ : Option Handle}
    (h : Tests env scope ty c n ls d d₁ code n₁) (h' : Tests env scope ty c n₁ ls' d₁ d₂ more m) :
    Tests env scope ty c n (ls ++ ls') d d₂ (code ++ more) m := by
  induction h with
  | nil => exact h'
  | case hvalue _ ih => simpa using Tests.case hvalue (ih h')
  | default _ ih => exact .default (ih h')

theorem armTests_written {ty : Ty} {c : BinaryCode} {arm : Handle} {labels : List SwitchLabel}
    {default default' : Option Handle} (hty : env.sizeOf ty = .ok 1)
    (h : armTests env ty c arm labels default s = .ok default' t) :
    ∃ code, Tests env s.scope ty c s.next (labels.map (·, arm)) default default' code t.next ∧
      t.scope = s.scope ∧ Writes env s t code := by
  induction labels generalizing s default with
  | nil =>
    simp only [armTests, pure_ok] at h
    obtain ⟨rfl, rfl⟩ := h
    exact ⟨[], .nil, rfl, writes_nil⟩
  | cons l rest ih =>
    cases l with
    | default =>
      simp only [armTests, refuse_mistake_ok] at h
      obtain ⟨hnone, h⟩ := h
      obtain ⟨code, hcode, hscope, hwrites⟩ := ih h
      cases default with
      | some d => simp at hnone
      | none => exact ⟨code, .default hcode, hscope, hwrites⟩
    | case e =>
      simp only [armTests, bind_ok, emit_ok, grow_ok, refuse_mistake_ok, branch_ok] at h
      obtain ⟨_, _, ⟨-, rfl⟩, _, _, ⟨-, rfl⟩, caseTy, w, hw, hcase, _, _, ⟨-, rfl⟩, _, _, ⟨-, rfl⟩,
        _, _, ⟨-, rfl⟩, h⟩ := h
      cases Decidable.not_not.mp hcase
      obtain ⟨value, k, hvalue, hk, hscope, hwrites⟩ := expr_written hw
      rw [hty] at hk
      cases hk
      have hback : w.scope.grown (-1 + -1) = s.scope := by simp [hscope]
      simp only [State.inScope_scope, State.wrote_scope, State.inScope_next, State.wrote_next,
        Scope.grown_grown, wrote_inScope, wrote_wrote, inScope_inScope, hback] at hvalue hwrites h
      obtain ⟨code, hcode, hscope', hwrites'⟩ := ih h
      have hcopy : Writes env s ((s.wrote [⟨s.next, .copyTop .sp (-1) 1, none⟩]
          (s.next + 1)).inScope (s.scope.grown 1)) _ := writes_plain (by simp)
      refine ⟨_, .case hvalue hcode, hscope', ?_⟩
      simpa using ((hcopy.append hwrites).append (writes_plain (by simp))).append hwrites'

theorem switchTests_written {ty : Ty} {c : BinaryCode}
    {cases : List (List SwitchLabel × List Stmt)} {arms : List Handle}
    {default default' : Option Handle} (hty : env.sizeOf ty = .ok 1)
    (h : switchTests env ty c cases (arms.map (⟨·, .nop, none⟩)) default s = .ok default' t) :
    ∃ code, Tests env s.scope ty c s.next (labelled cases arms) default default' code t.next ∧
      t.scope = s.scope ∧ Writes env s t code := by
  induction cases generalizing arms s default with
  | nil =>
    simp only [switchTests, pure_ok] at h
    obtain ⟨rfl, rfl⟩ := h
    exact ⟨[], .nil, rfl, writes_nil⟩
  | cons one rest ih =>
    cases arms with
    | nil =>
      simp only [List.map_nil, switchTests, pure_ok] at h
      obtain ⟨rfl, rfl⟩ := h
      exact ⟨[], .nil, rfl, writes_nil⟩
    | cons arm arms =>
      simp only [List.map_cons, switchTests, bind_ok] at h
      obtain ⟨d, w, hw, h⟩ := h
      obtain ⟨code, hcode, hscope, hwrites⟩ := armTests_written hty hw
      obtain ⟨more, hmore, hscope', hwrites'⟩ := ih h
      rw [hscope] at hmore hscope'
      exact ⟨_, hcode.append hmore, hscope', hwrites.append hwrites'⟩

theorem resultOffset_ok {height offset : Int} {size : Nat}
    (h : resultOffset height size = .ok offset) : offset = -(height + 2 * size) := by
  simp only [resultOffset, except_bind_ok, Count.checked_ok] at h
  obtain ⟨_, ⟨-, rfl⟩, _, ⟨-, rfl⟩, -, rfl⟩ := h
  rfl

theorem exit_written {frame : Frame} {value : Option Expr} {v : Unit}
    (h : exit env frame value s = .ok v t) :
    ∃ code, Lays env frame s.scope s.next (.stmt (.ret value)) s.scope .returned code t.next ∧
      t.scope = s.scope ∧ Writes env s t code := by
  simp only [exit, bind_ok, scope_ok, lift_ok, refuse_mistake_ok, sizeOf_ok] at h
  obtain ⟨_, _, ⟨rfl, rfl⟩, height, _, ⟨hheight, rfl⟩, ty, w, hw, hty, k, _, ⟨hk, rfl⟩, h⟩ := h
  cases Decidable.not_not.mp hty
  cases value with
  | none =>
    simp only [returned, pure_ok] at hw
    obtain ⟨hvoid, rfl⟩ := hw
    rw [← hvoid] at hk
    cases hk
    have hzero : ¬ 0 < Ty.void.builtinSize.getD 0 := by decide
    simp only [hzero, if_false, bind_ok, pop_ok, jump_ok] at h
    obtain ⟨_, _, ⟨-, rfl⟩, -, rfl⟩ := h
    rw [wrote_wrote]
    exact ⟨_, .exit hvoid.symm hheight, rfl, writes_only (by simp)⟩
  | some e =>
    obtain ⟨code, k', hcode, hk', hscope, hwrites⟩ := expr_written hw
    rw [hk] at hk'
    cases hk'
    have hback : w.scope.grown (-k) = s.scope := by simp [hscope]
    have ht : t = (w.wrote (returning w.next height k ++
        [⟨w.next + (returning w.next height k).length, .moveSp (-height), none⟩,
          ⟨w.next + (returning w.next height k).length + 1, .jump .jmp, some frame.retn⟩])
        (w.next + (returning w.next height k).length + 2)).inScope s.scope := by
      by_cases hpos : 0 < k
      · simp only [hpos, if_true, bind_ok, lift_ok, emit_ok, pop_ok, grow_ok, jump_ok] at h
        obtain ⟨_, _, ⟨hoffset, rfl⟩, _, _, ⟨-, rfl⟩, _, _, ⟨-, rfl⟩, _, _, ⟨-, rfl⟩, _, _,
          ⟨-, rfl⟩, -, rfl⟩ := h
        simp [returning, hpos, hback, resultOffset_ok hoffset]
      · simp only [hpos, if_false, bind_ok, pop_ok, jump_ok] at h
        obtain ⟨_, _, ⟨-, rfl⟩, -, rfl⟩ := h
        obtain rfl : k = 0 := by omega
        have hsame : w.scope = s.scope := by simpa using hscope
        rw [← hsame, wrote_wrote]
        rfl
    subst ht
    refine ⟨_, .exitWith hheight hcode hk rfl, rfl, ?_⟩
    rw [List.append_assoc]
    refine hwrites.append (writes_plain ?_)
    unfold returning
    split <;> simp

end Parts

/-! ## Statements that are written are related -/

/-- The code of a piece was written. -/
def LaidOut (env : Env) (frame : Frame) (piece : Piece) (s : State) (flow : Flow) (t : State) :
    Prop :=
  ∃ code, Lays env frame s.scope s.next piece t.scope flow code t.next ∧ Writes env s t code

section Soundness

variable {env : Env} {frame : Frame} {s t u : State} {code : List Instruction}

theorem Writes.scoped {c d : Scope} (h : Writes env (s.inScope c) t code) :
    Writes env s (t.inScope d) code :=
  ⟨h.code_eq, h.marks⟩

theorem checkBalanced_ok {v : Unit} (h : checkBalanced s = .ok v t) :
    s.scope.block.temps = 0 ∧ s = t := by
  simp only [checkBalanced, bind_ok, scope_ok] at h
  obtain ⟨_, _, ⟨rfl, rfl⟩, h⟩ := h
  by_cases htemps : s.scope.block.temps = 0
  · simp only [htemps, ne_eq, not_true_eq_false, if_false, pure_ok] at h
    exact ⟨htemps, h.2⟩
  · simp [htemps, throw_ok] at h

theorem scope_of_lays {c c' : Scope} {n m : Handle} {st : Stmt} {flow : Flow}
    (h : Lays env frame c n (.stmt st) c' flow code m) (hd : ∀ ty ds, st ≠ .declare ty ds) :
    c' = c := by
  cases h with
  | declare => exact absurd rfl (hd _ _)
  | _ => rfl

theorem scope_of_arms {c c' : Scope} {n m : Handle} {bodies : List (Handle × List Stmt)}
    {flow : Flow} (h : Lays env frame c n (.arms bodies) c' flow code m) : c' = c := by
  cases h <;> rfl

theorem block_laid {body : List Stmt} {flow : Flow}
    (hs : ∀ st ∈ body, ∀ s flow t, stmt env frame st s = .ok flow t →
      LaidOut env frame (.stmt st) s flow t)
    (h : block env frame body s = .ok flow t) : LaidOut env frame (.block body) s flow t := by
  induction body generalizing s with
  | nil =>
    simp only [block, bind_ok, scope_ok, lift_ok, pop_ok, pure_ok] at h
    obtain ⟨_, _, ⟨rfl, rfl⟩, k, _, ⟨hk, rfl⟩, _, _, ⟨-, rfl⟩, _, _, hb, rfl, rfl⟩ := h
    obtain ⟨htemps, rfl⟩ := checkBalanced_ok hb
    exact ⟨_, .blockEnd hk htemps, writes_plain (by simp)⟩
  | cons st rest ih =>
    simp only [block, bind_ok] at h
    obtain ⟨f, w, hw, h⟩ := h
    obtain ⟨code, hcode, hwrites⟩ := hs st (by simp) _ _ _ hw
    cases f with
    | next =>
      obtain ⟨more, hmore, hwrites'⟩ :=
        ih (fun st' hst => hs st' (List.mem_cons_of_mem _ hst)) h
      exact ⟨_, .blockNext hcode hmore, hwrites.append hwrites'⟩
    | returned =>
      by_cases hrest : rest.isEmpty = true
      · simp only [hrest, if_true, bind_ok, pure_ok] at h
        obtain ⟨_, _, hb, rfl, rfl⟩ := h
        obtain ⟨_, rfl⟩ := checkBalanced_ok hb
        exact ⟨code, .blockReturned hcode, hwrites⟩
      · simp only [hrest, Bool.false_eq_true, if_false, bind_ok, report_ok, pure_ok] at h
        obtain ⟨_, _, rfl, _, _, hb, rfl, rfl⟩ := h
        obtain ⟨_, rfl⟩ := checkBalanced_ok hb
        exact ⟨code, .blockReturned hcode, hwrites.code_eq, hwrites.marks⟩

theorem arm_laid {body : List Stmt} {v : Unit}
    (hs : ∀ st ∈ body, ∀ s flow t, stmt env frame st s = .ok flow t →
      LaidOut env frame (.stmt st) s flow t)
    (h : armBody env frame body s = .ok v t) :
    t.scope = s.scope ∧ ∃ flow, LaidOut env frame (.arm body) s flow t := by
  induction body generalizing s with
  | nil =>
    simp only [armBody, pure_ok] at h
    obtain ⟨_, rfl⟩ := h
    exact ⟨rfl, .next, [], .armEnd, writes_nil⟩
  | cons st rest ih =>
    obtain ⟨hd, f, w, hw, hnext, hreturned⟩ : (∀ ty ds, st ≠ .declare ty ds) ∧ ∃ f w,
        stmt env frame st s = .ok f w ∧ (f = .next → armBody env frame rest w = .ok v t) ∧
        (f = .returned → w = t) := by
      cases st <;> simp only [armBody, bind_ok, mistake_ok, false_and, exists_false] at h
      all_goals
        obtain ⟨f, w, hw, h⟩ := h
        refine ⟨fun _ _ => Stmt.noConfusion, f, w, hw, ?_, ?_⟩
        · rintro rfl
          exact h
        · rintro rfl
          exact (pure_ok.mp h).2
    obtain ⟨code, hcode, hwrites⟩ := hs st (by simp) _ _ _ hw
    have hscope := scope_of_lays hcode hd
    rw [hscope] at hcode
    cases f with
    | next =>
      obtain ⟨hscope', flow, more, hmore, hwrites'⟩ :=
        ih (fun st' hst => hs st' (List.mem_cons_of_mem _ hst)) (hnext rfl)
      rw [hscope', hscope] at hmore
      refine ⟨hscope'.trans hscope, flow, _, ?_, hwrites.append hwrites'⟩
      rw [hscope', hscope]
      exact .armNext hcode hmore
    | returned =>
      obtain rfl := hreturned rfl
      refine ⟨hscope, .returned, code, ?_, hwrites⟩
      rw [hscope]
      exact .armReturned hcode

theorem arms_laid {cases : List (List SwitchLabel × List Stmt)} {labels : List Handle} {v : Unit}
    (hs : ∀ a ∈ cases, ∀ st ∈ a.2, ∀ s flow t, stmt env frame st s = .ok flow t →
      LaidOut env frame (.stmt st) s flow t)
    (h : arms env frame cases (labels.map (⟨·, .nop, none⟩)) s = .ok v t) :
    t.scope = s.scope ∧ LaidOut env frame (.arms (labels.zip (cases.map (·.2)))) s .next t := by
  induction cases generalizing labels s with
  | nil =>
    simp only [arms, pure_ok] at h
    obtain ⟨_, rfl⟩ := h
    exact ⟨rfl, [], by simpa using .noArms, writes_nil⟩
  | cons one rest ih =>
    cases labels with
    | nil =>
      simp only [List.map_nil, arms, pure_ok] at h
      obtain ⟨_, rfl⟩ := h
      exact ⟨rfl, [], .noArms, writes_nil⟩
    | cons label labels =>
      simp only [List.map_cons, arms, bind_ok, place_ok] at h
      obtain ⟨_, _, rfl, _, w, hw, h⟩ := h
      obtain ⟨hscope, flow, code, hcode, hwrites⟩ := arm_laid (hs one (by simp)) hw
      obtain ⟨hscope', more, hmore, hwrites'⟩ :=
        ih (fun a ha => hs a (List.mem_cons_of_mem _ ha)) h
      rw [hscope] at hcode hscope' hmore
      rw [hscope'] at hmore
      refine ⟨hscope', _, ?_, ((writes_only (by simp)).append hwrites).append hwrites'⟩
      rw [hscope']
      exact .arms hcode hmore

theorem within_block_laid {b : Block} {body : List Stmt} {flow : Flow}
    (hs : ∀ st ∈ body, ∀ s flow t, stmt env frame st s = .ok flow t →
      LaidOut env frame (.stmt st) s flow t)
    (h : within b (block env frame body) s = .ok flow t) :
    t.scope = s.scope ∧ ∃ s' code, Lays env frame (s.scope.child b) s.next
      (.block body) s' flow code t.next ∧ Writes env s t code := by
  obtain ⟨u, hu, rfl⟩ := within_ok.mp h
  obtain ⟨code, hcode, hwrites⟩ := block_laid hs hu
  exact ⟨rfl, u.scope, code, hcode, hwrites.scoped⟩

theorem laidOut_of {piece : Piece} {flow : Flow} (hscope : t.scope = s.scope)
    (hlays : Lays env frame s.scope s.next piece s.scope flow code t.next)
    (hwrites : Writes env s t code) : LaidOut env frame piece s flow t := by
  refine ⟨code, ?_, hwrites⟩
  rw [hscope]
  exact hlays

theorem if_laid {e : Expr} {onTrue : List Stmt} {onFalse : Option (List Stmt)} {flow : Flow}
    (hTrue : ∀ st ∈ onTrue, ∀ s flow t, stmt env frame st s = .ok flow t →
      LaidOut env frame (.stmt st) s flow t)
    (hFalse : ∀ body, onFalse = some body → ∀ st ∈ body, ∀ s flow t,
      stmt env frame st s = .ok flow t → LaidOut env frame (.stmt st) s flow t)
    (h : stmt env frame (.ifElse e onTrue onFalse) s = .ok flow t) :
    LaidOut env frame (.stmt (.ifElse e onTrue onFalse)) s flow t := by
  -- the two cases unfold to different code, and share what stands before the second block
  obtain ⟨_, u, hc, _, v, hv, h⟩ : ∃ x u, condition env "if" e s = .ok x u ∧ ∃ y v,
      within {} (block env frame onTrue) ((u.wrote [⟨u.next + 1, .jump .jz, some u.next⟩]
        (u.next + 2)).inScope (u.scope.grown (-1))) = .ok y v ∧
      (match onFalse with
        | none => t = v.wrote [⟨u.next, .nop, none⟩] v.next ∧ flow = .next
        | some onFalse => ∃ z w, within {} (block env frame onFalse)
            (v.wrote [⟨v.next + 1, .jump .jmp, some v.next⟩, ⟨u.next, .nop, none⟩] (v.next + 2)) =
              .ok z w ∧ t = w.wrote [⟨v.next, .nop, none⟩] w.next ∧ flow = .next) := by
    cases onFalse with
    | none =>
      simp only [stmt, bind_ok, label_ok, branch_ok, place_ok, pure_ok] at h
      obtain ⟨_, u, hc, _, _, ⟨-, rfl, rfl⟩, _, _, ⟨-, rfl⟩, _, v, hv, _, _, rfl, rfl, rfl⟩ := h
      simp only [wrote_wrote, List.nil_append] at hv
      exact ⟨_, u, hc, _, v, hv, rfl, rfl⟩
    | some onFalse =>
      simp only [stmt, bind_ok, label_ok, branch_ok, jump_ok, place_ok, pure_ok] at h
      obtain ⟨_, u, hc, _, _, ⟨-, rfl, rfl⟩, _, _, ⟨-, rfl⟩, _, v, hv, _, _, ⟨-, rfl, rfl⟩, _, _,
        ⟨-, rfl⟩, _, _, rfl, _, w, hw, _, _, rfl, rfl, rfl⟩ := h
      simp only [wrote_wrote, List.nil_append] at hv hw
      exact ⟨_, u, hc, _, v, hv, _, w, hw, rfl, rfl⟩
  obtain ⟨test, htest, hscope, hwrites⟩ := condition_written hc
  have hback : u.scope.grown (-1) = s.scope := by simp [hscope]
  rw [hback] at hv
  obtain ⟨hscope₁, s₁, code₁, hcode₁, hwrites₁⟩ := within_block_laid hTrue hv
  have hjump : Writes env u ((u.wrote [⟨u.next + 1, .jump .jz, some u.next⟩]
      (u.next + 2)).inScope s.scope) _ := writes_plain (by simp)
  cases onFalse with
  | none =>
    obtain ⟨rfl, rfl⟩ := h
    refine laidOut_of hscope₁ (.ifThen htest hcode₁) ?_
    have hend : Writes env v (v.wrote [⟨u.next, .nop, none⟩] v.next) _ := writes_only (by simp)
    simpa using ((hwrites.append hjump).append hwrites₁).append hend
  | some onFalse =>
    obtain ⟨_, w, hw, rfl, rfl⟩ := h
    obtain ⟨hscope₂, s₂, code₂, hcode₂, hwrites₂⟩ := within_block_laid (hFalse _ rfl) hw
    simp only [State.wrote_scope, hscope₁, State.inScope_scope] at hcode₂ hscope₂
    refine laidOut_of hscope₂ (.ifElse htest hcode₁ hcode₂) ?_
    have hmid : Writes env v (v.wrote [⟨v.next + 1, .jump .jmp, some v.next⟩,
        ⟨u.next, .nop, none⟩] (v.next + 2)) _ := writes_only (by simp)
    have hend : Writes env w (w.wrote [⟨v.next, .nop, none⟩] w.next) _ := writes_only (by simp)
    simpa using ((((hwrites.append hjump).append hwrites₁).append hmid).append hwrites₂).append hend

theorem for_laid {init e step : Option Expr} {body : List Stmt} {flow : Flow}
    (hs : ∀ st ∈ body, ∀ s flow t, stmt env frame st s = .ok flow t →
      LaidOut env frame (.stmt st) s flow t)
    (h : stmt env frame (.forLoop init e step body) s = .ok flow t) :
    LaidOut env frame (.stmt (.forLoop init e step body)) s flow t := by
  simp only [stmt, bind_ok, add_ok, label_ok] at h
  obtain ⟨_, u, hu, _, _, ⟨-, rfl, rfl⟩, _, _, ⟨-, rfl, rfl⟩, _, _, ⟨-, rfl, rfl⟩, h⟩ := h
  simp only [wrote_wrote, List.append_nil, State.wrote_next] at h
  obtain ⟨first, hfirst, hscope, hwrites⟩ := discarded?_written hu
  obtain ⟨test, v, htest, hscopeTest, hwritesTest, h⟩ : ∃ test v,
      Guards env s.scope (u.next + 1) (u.next + 3) e test v.next ∧ v.scope = s.scope ∧
      Writes env (u.wrote [⟨u.next, .nop, none⟩] (u.next + 3)) v test ∧
      ∃ x w, within { breakTo := some (u.next + 1), continueTo := some (u.next + 2) }
          (block env frame body) v = .ok x w ∧
        ∃ y z, discarded? env step (w.wrote [⟨u.next + 2, .nop, none⟩] w.next) = .ok y z ∧
          t = z.wrote [⟨z.next, .jump .jmp, some u.next⟩, ⟨u.next + 1, .nop, none⟩] (z.next + 1) ∧
          flow = .next := by
    cases e with
    | none =>
      simp only [bind_ok, place_ok, jump_ok, pure_ok] at h
      obtain ⟨_, w, hw, _, _, rfl, _, z, hz, _, _, ⟨-, rfl⟩, _, _, rfl, rfl, rfl⟩ := h
      exact ⟨[], u.wrote [⟨u.next, .nop, none⟩] (u.next + 3), .none, hscope, writes_nil, _, w, hw,
        _, z, hz, by simp, rfl⟩
    | some e =>
      simp only [bind_ok, branch_ok, place_ok, jump_ok, pure_ok] at h
      obtain ⟨_, v, hv, _, _, ⟨-, rfl⟩, _, w, hw, _, _, rfl, _, z, hz, _, _, ⟨-, rfl⟩, _, _, rfl,
        rfl, rfl⟩ := h
      obtain ⟨test, htest, hscope', hwrites'⟩ := condition_written hv
      simp only [State.wrote_scope, hscope, State.wrote_next] at htest hscope'
      have hjump : Writes env v ((v.wrote [⟨v.next, .jump .jz, some (u.next + 1)⟩]
          (v.next + 1)).inScope (v.scope.grown (-1))) _ := writes_plain (by simp)
      exact ⟨_, _, .some htest, by simp [hscope'], hwrites'.append hjump, _, w, hw, _, z, hz,
        by simp, rfl⟩
  obtain ⟨_, w, hw, _, z, hz, rfl, rfl⟩ := h
  obtain ⟨hscopeBody, s₁, code, hcode, hwritesBody⟩ := within_block_laid hs hw
  obtain ⟨last, hlast, hscopeLast, hwritesLast⟩ := discarded?_written hz
  simp only [State.wrote_scope, State.wrote_next, hscopeBody, hscopeTest] at hcode hlast hscopeLast
  refine laidOut_of hscopeLast (.forLoop hfirst htest hcode hlast) ?_
  have hstart : Writes env u (u.wrote [⟨u.next, .nop, none⟩] (u.next + 3)) _ :=
    writes_only (by simp)
  have hnext : Writes env w (w.wrote [⟨u.next + 2, .nop, none⟩] w.next) _ := writes_only (by simp)
  have hend : Writes env z (z.wrote [⟨z.next, .jump .jmp, some u.next⟩, ⟨u.next + 1, .nop, none⟩]
      (z.next + 1)) _ := writes_only (by simp)
  simpa using ((((((hwrites.append hstart).append hwritesTest).append hwritesBody).append
    hnext).append hwritesLast).append hend)

theorem switch_laid {e : Expr} {cases : List (List SwitchLabel × List Stmt)} {flow : Flow}
    (hs : ∀ a ∈ cases, ∀ st ∈ a.2, ∀ s flow t, stmt env frame st s = .ok flow t →
      LaidOut env frame (.stmt st) s flow t)
    (h : stmt env frame (.switch e cases) s = .ok flow t) :
    LaidOut env frame (.stmt (.switch e cases)) s flow t := by
  simp only [stmt, bind_ok, label_ok, jump_ok, place_ok, sizeOf_ok, pop_ok, grow_ok, pure_ok,
    within_ok] at h
  obtain ⟨ty, u, hu, c, _, hc, _, _, ⟨-, rfl, rfl⟩, labels, _, hlabels, default, v, hv, _, _,
    ⟨-, rfl⟩, _, _, ⟨w, ⟨_, w', hw, hb⟩, rfl⟩, _, _, rfl, k, _, ⟨hk, rfl⟩, _, _, ⟨-, rfl⟩, _, _,
    ⟨-, rfl⟩, rfl, rfl⟩ := h
  obtain ⟨value, k', hvalue, hk', hscope, hwrites⟩ := expr_written hu
  obtain ⟨hswitch, hone, rfl⟩ := switchCode_ok hc
  rw [hk] at hk'
  cases hk'
  rw [hk] at hone
  cases hone
  obtain ⟨rfl, rfl⟩ := armLabels_ok hlabels
  rw [wrote_wrote, List.append_nil] at hv
  obtain ⟨tests, htests, hscopeTests, hwritesTests⟩ := switchTests_written hk hv
  obtain ⟨_, rfl⟩ := checkBalanced_ok hb
  obtain ⟨hscopeArms, code, hcode, hwritesArms⟩ := arms_laid hs hw
  simp only [State.wrote_scope, State.wrote_next, hscope, hscopeTests, State.inScope_scope,
    State.inScope_next] at htests hcode
  have hback : v.scope.grown (-(1 : Nat)) = s.scope := by simp [hscopeTests, hscope]
  simp only [State.wrote_scope, State.inScope_scope, State.inScope_next, State.wrote_next,
    wrote_inScope, wrote_wrote, inScope_inScope, hback]
  refine laidOut_of rfl (.switch hvalue hswitch htests hcode) ?_
  have hstart : Writes env u (u.wrote [] (u.next + 1 + cases.length)) _ := writes_only (by simp)
  have hjump : Writes env v ((v.wrote [⟨v.next, .jump .jmp, some (default.getD u.next)⟩]
      (v.next + 1)).inScope (v.scope.child { breakTo := some u.next })) _ := writes_plain (by simp)
  have hend : Writes env w' ((w'.wrote [⟨u.next, .nop, none⟩, ⟨w'.next, .moveSp (-1), none⟩]
      (w'.next + 1)).inScope s.scope) _ := writes_plain (by simp)
  simpa using ((((hwrites.append hstart).append hwritesTests).append hjump).append
    hwritesArms).append hend

/-- Whatever code generation writes for a statement is related to it. -/
theorem stmt_laid {st : Stmt} {flow : Flow} (h : stmt env frame st s = .ok flow t) :
    LaidOut env frame (.stmt st) s flow t := by
  induction st using Stmt.inductOn generalizing s flow t with
  | expr e =>
    simp only [stmt, bind_ok, pure_ok] at h
    obtain ⟨_, _, hd, rfl, rfl⟩ := h
    obtain ⟨code, hcode, hscope, hwrites⟩ := discarded_written hd
    refine ⟨code, ?_, hwrites⟩
    rw [hscope]
    exact .expr hcode
  | declare ty ds =>
    simp only [stmt, bind_ok, pure_ok] at h
    obtain ⟨_, _, hd, rfl, rfl⟩ := h
    obtain ⟨code, hcode, hwrites⟩ := declaration_written hd
    exact ⟨code, .declare hcode, hwrites⟩
  | block body ih =>
    simp only [stmt] at h
    obtain ⟨hscope, s', code, hcode, hwrites⟩ :=
      within_block_laid (fun st hst _ _ _ h => ih st hst h) h
    refine ⟨code, ?_, hwrites⟩
    rw [hscope]
    exact .block hcode
  | ifElse e onTrue onFalse ihTrue ihFalse =>
    exact if_laid (fun st hst _ _ _ h => ihTrue st hst h)
      (fun body hb st hst _ _ _ h => ihFalse body hb st hst h) h
  | whileLoop e body ih =>
    simp only [stmt, bind_ok, add_ok, label_ok, branch_ok, jump_ok, place_ok, pure_ok] at h
    obtain ⟨_, _, ⟨-, rfl, rfl⟩, _, u, hc, _, _, ⟨-, rfl, rfl⟩, _, _, ⟨-, rfl⟩, _, v, hv, _, _,
      ⟨-, rfl⟩, _, _, rfl, rfl, rfl⟩ := h
    obtain ⟨test, htest, hscope, hwrites⟩ := condition_written hc
    have hback : u.scope.grown (-1) = s.scope := by simp [hscope]
    simp only [State.wrote_next, State.wrote_scope, wrote_wrote, List.nil_append, hback] at hv
    obtain ⟨hscope₁, s₁, code, hcode, hwrites₁⟩ :=
      within_block_laid (fun st hst _ _ _ h => ih st hst h) hv
    refine laidOut_of hscope₁ (.whileLoop htest hcode) ?_
    have hstart : Writes env s (s.wrote [⟨s.next, .nop, none⟩] (s.next + 1)) _ :=
      writes_only (by simp)
    have hjump : Writes env u ((u.wrote [⟨u.next + 1, .jump .jz, some u.next⟩]
        (u.next + 2)).inScope s.scope) _ := writes_plain (by simp)
    have hend : Writes env v (v.wrote [⟨v.next, .jump .jmp, some s.next⟩, ⟨u.next, .nop, none⟩]
        (v.next + 1)) _ := writes_only (by simp)
    simpa using (((hstart.append hwrites).append hjump).append hwrites₁).append hend
  | doWhile body e ih =>
    simp only [stmt, bind_ok, add_ok, label_ok, branch_ok, place_ok, pure_ok] at h
    obtain ⟨_, _, ⟨-, rfl, rfl⟩, _, _, ⟨-, rfl, rfl⟩, _, _, ⟨-, rfl, rfl⟩, _, u, hu, _, _, rfl, _,
      v, hc, _, _, ⟨-, rfl⟩, _, _, rfl, rfl, rfl⟩ := h
    simp only [State.wrote_next, wrote_wrote, List.append_nil] at hu
    obtain ⟨hscope, s₁, code, hcode, hwrites⟩ :=
      within_block_laid (fun st hst _ _ _ h => ih st hst h) hu
    obtain ⟨test, htest, hscope₁, hwrites₁⟩ := condition_written hc
    simp only [State.wrote_scope, State.wrote_next] at hcode htest hscope hscope₁
    rw [hscope] at htest hscope₁
    have hback : v.scope.grown (-1) = s.scope := by simp [hscope₁]
    refine laidOut_of hback (.doWhile hcode htest) ?_
    have hstart : Writes env s (s.wrote [⟨s.next, .nop, none⟩] (s.next + 3)) _ :=
      writes_only (by simp)
    have hnext : Writes env u (u.wrote [⟨s.next + 2, .nop, none⟩] u.next) _ :=
      writes_only (by simp)
    have hend : Writes env v ((v.wrote [⟨v.next, .jump .jnz, some s.next⟩,
        ⟨s.next + 1, .nop, none⟩] (v.next + 1)).inScope (v.scope.grown (-1))) _ :=
      writes_plain (by simp)
    simpa using (((hstart.append hwrites).append hnext).append hwrites₁).append hend
  | forLoop init e step body ih => exact for_laid (fun st hst _ _ _ h => ih st hst h) h
  | switch e cases ih => exact switch_laid (fun a ha st hst _ _ _ h => ih a ha st hst h) h
  | breakOut =>
    simp only [stmt, bind_ok, scope_ok, pure_ok] at h
    obtain ⟨_, _, ⟨rfl, rfl⟩, _, _, hl, rfl, rfl⟩ := h
    obtain ⟨target, size, htarget, rfl⟩ := leave_ok hl
    exact ⟨_, .breakOut htarget, writes_only (by simp)⟩
  | continueLoop =>
    simp only [stmt, bind_ok, scope_ok, pure_ok] at h
    obtain ⟨_, _, ⟨rfl, rfl⟩, _, _, hl, rfl, rfl⟩ := h
    obtain ⟨target, size, htarget, rfl⟩ := leave_ok hl
    exact ⟨_, .continueLoop htarget, writes_only (by simp)⟩
  | ret value =>
    simp only [stmt, bind_ok, pure_ok] at h
    obtain ⟨_, _, he, rfl, rfl⟩ := h
    obtain ⟨code, hcode, hscope, hwrites⟩ := exit_written he
    refine ⟨code, ?_, hwrites⟩
    rw [hscope]
    exact hcode

/-! ## Bodies -/

/-- Parameters that are declared one after another. -/
inductive Binds (env : Env) : Scope → List Param → Scope → Prop
  | nil {s : Scope} : Binds env s [] s
  | cons {s s' : Scope} {p : Param} {rest : List Param} {k : Nat} :
      env.sizeOf p.ty = .ok k → Binds env (s.declared p.name p.ty k) rest s' →
      Binds env s (p :: rest) s'

theorem parameters_bound {params : List Param} {v : Unit}
    (h : parameters env params s = .ok v t) :
    ∃ c, Binds env s.scope params c ∧ t = s.inScope c := by
  induction params generalizing s with
  | nil =>
    simp only [parameters, pure_ok] at h
    obtain ⟨_, rfl⟩ := h
    exact ⟨s.scope, .nil, rfl⟩
  | cons p rest ih =>
    simp only [parameters, bind_ok, scope_ok, refuse_mistake_ok, lift_ok, setBlock_ok] at h
    obtain ⟨_, _, ⟨rfl, rfl⟩, _, b, _, ⟨hb, rfl⟩, _, _, rfl, h⟩ := h
    obtain ⟨k, hk, -, hdeclared⟩ := declare_ok.mp hb
    rw [hdeclared] at h
    obtain ⟨c, hc, rfl⟩ := ih h
    exact ⟨c, .cons hk hc, rfl⟩

/-- The code of a function body: its block, and the return instruction that got its handle first. -/
theorem body_laid {sig : Signature} {stmts : List Stmt} {v : Unit}
    (h : body env sig stmts s = .ok v t) :
    ∃ s₁ s₂ flow code, Binds env s.scope sig.params s₁ ∧
      Lays env ⟨sig.name, sig.returnType, s.next⟩ s₁ (s.next + 1)
        (.block stmts) s₂ flow code t.next ∧
      Writes env s t (code ++ [⟨s.next, .retn, none⟩]) := by
  simp only [body, bind_ok, detached_ok, place_ok] at h
  obtain ⟨_, _, ⟨-, rfl, rfl⟩, _, u, hu, _, w, hw, rfl⟩ := h
  obtain ⟨c, hc, rfl⟩ := parameters_bound hu
  obtain ⟨code, hcode, hwrites⟩ := block_laid (fun _ _ _ _ _ h => stmt_laid h) hw
  have hstart : Writes env s ((s.wrote [] (s.next + 1)).inScope c) _ := writes_plain (by simp)
  have hend : Writes env w (w.wrote [⟨s.next, .retn, none⟩] w.next) _ := writes_only (by simp)
  exact ⟨c, w.scope, _, code, hc, hcode, (hstart.append hwrites).append hend⟩

end Soundness

end Codegen

/-! ## Scopes that get variables -/

open Codegen

/-- A variable that was just declared is found from the top of the stack. -/
theorem resolve_declared {env : Env} {s : Scope} {name : Name} {ty : Ty} {k : Nat} {j : Int}
    {r : Resolved} (h : ((s.declared name ty k).grown j).resolve env name = .ok r) :
    r.ty = ty ∧ r.anchor = .sp := by
  simp only [Scope.resolve, Scope.resolveFrom, Scope.chain, Scope.grown, Scope.declared, Block.push,
    Scope.resolveIn, Scope.seek, except_bind_ok, if_true, except_pure_ok] at h
  obtain ⟨_, _, _, _, _, _, rfl⟩ := h
  exact ⟨rfl, rfl⟩

/-- The same block with other variables in it. -/
structure Scope.Extends (s t : Scope) : Prop where
  outer : t.outer = s.outer
  breakTo : t.block.breakTo = s.block.breakTo
  continueTo : t.block.continueTo = s.block.continueTo

namespace Scope.Extends

theorem refl (s : Scope) : s.Extends s := ⟨rfl, rfl, rfl⟩

theorem trans {s t u : Scope} (h : s.Extends t) (h' : t.Extends u) : s.Extends u :=
  ⟨h'.outer.trans h.outer, h'.breakTo.trans h.breakTo, h'.continueTo.trans h.continueTo⟩

theorem declared {s : Scope} {name : Name} {ty : Ty} {k : Nat} :
    s.Extends (s.declared name ty k) := ⟨rfl, rfl, rfl⟩

theorem of_declares {env : Env} {ty : Ty} {s t : Scope} {n m : Handle} {ds : List Declarator}
    {code : List Instruction} (h : Declares env ty s n ds t code m) : s.Extends t := by
  induction h with
  | nil => exact refl _
  | plain _ _ _ _ ih => exact declared.trans ih
  | initialized _ _ _ _ _ _ ih => exact declared.trans ih

/-- Whatever is laid out only adds variables to the block that it stands in. -/
theorem of_lays {env : Env} {frame : Frame} {s t : Scope} {n m : Handle} {piece : Piece}
    {flow : Flow} {code : List Instruction} (h : Lays env frame s n piece t flow code m) :
    s.Extends t := by
  induction h with
  | declare hd => exact of_declares hd
  | blockNext _ _ ih ih' => exact ih.trans ih'
  | blockReturned _ ih => exact ih
  | _ => exact refl _

end Scope.Extends

/-- Parameters are the variables of the block, and nothing else changes. -/
theorem block_of_binds {env : Env} {s t : Scope} {params : List Param} (h : Binds env s params t) :
    t.block.values = (params.reverse.map fun p => ⟨p.name, p.ty⟩) ++ s.block.values ∧
      t.block.temps = s.block.temps ∧ s.Extends t := by
  induction h with
  | nil => exact ⟨rfl, rfl, .refl _⟩
  | cons _ _ ih =>
    obtain ⟨hv, ht, he⟩ := ih
    refine ⟨?_, ht, Scope.Extends.declared.trans he⟩
    rw [hv]
    simp [Scope.declared, Block.push]

end NwScript
