-- Statements in other circumstances. A block pops what it has counted, so the temporaries have to
-- be as many as before.
import NwScript.Proofs.Recast.Expr

namespace NwScript

def Recast.frame (c : Recast) (f : Codegen.Frame) : Codegen.Frame :=
  { f with retn := c.handle f.retn }

namespace Codegen

section Parts

variable {α β : Type} {c : Recast} {f : α → β} {env : Env}

/-! ## Blocks -/

theorem setBlock_recasts (hlevel : c.raised = 0) (b : Block) :
    Recasts c id (setBlock b) (setBlock (c.block b)) := by
  refine setBlock_recasts_of fun s => ?_
  simp [Recast.scope, hlevel]

theorem within_eq (b : Block) (x : Gen α) (s : State) :
    within b x s = match x (s.inScope (s.scope.child b)) with
      | .ok a t => .ok a (t.inScope s.scope)
      | .error e t => .error e (t.inScope s.scope) := rfl

theorem within_recasts (hlevel : c.raised = 0) {x : Gen α} {y : Gen β} {b b' : Block}
    (hb : b' = c.block b) (h : Recasts c f x y) : Recasts c f (within b x) (within b' y) := by
  intro ground
  constructor
  · intro s t hst
    have hinside := hst.inScope (s.scope.child b)
    rw [Recast.scope_child hlevel, ← hst.scope, ← hb] at hinside
    have hrun := (h ground).steps _ _ hinside
    have hback {u v : State} (hend : Mirrors c ground u v) :
        Mirrors c ground (u.inScope s.scope) (v.inScope t.scope) := by
      rw [hst.scope]
      exact hend.inScope s.scope
    rw [within_eq b' y]
    generalize y (t.inScope (t.scope.child b')) = r' at hrun ⊢
    generalize hx : x (s.inScope (s.scope.child b)) = r at hrun
    cases hrun with
    | ok hend =>
      rw [within_eq, hx]
      exact .ok (hback hend)
    | error hend =>
      rw [within_eq, hx]
      exact .error ⟨hend.1, hback hend.2⟩
    | early he => exact absurd hlevel he
    | late hl hbeyond =>
      refine .late hl fun a u hu => ?_
      obtain ⟨v, hv, rfl⟩ := within_ok.mp hu
      exact hbeyond a v (hx.symm.trans hv)
  · intro s a t hs ht
    obtain ⟨u, hu, rfl⟩ := within_ok.mp ht
    have hinside : (leeway c ground).beyond (s.inScope (s.scope.child b)) := hs
    have hend : (leeway c ground).beyond u := (h ground).keeps hinside hu
    exact hend

theorem checkBalanced_recasts (hlevel : c.raised = 0) :
    Recasts c id checkBalanced checkBalanced := by
  unfold checkBalanced
  refine scope_recasts.bind fun s => ?_
  rw [Recast.block_scope hlevel]
  exact .ite Iff.rfl (fun _ => throw_recasts (Recast.sameError_refl _)) fun _ => pure_recasts rfl

/-! ## Parts of statements -/

theorem branch_recasts (code : JumpCode) (target : Handle) :
    Recasts c id (branch code target) (branch code (c.handle target)) :=
  (jump_recasts code target).andThen fun _ => grow_recasts _

theorem leave_recasts {target target' : Except Failure (Option (Handle × Int))}
    (keyword : String)
    (h : c.Matches (Option.map fun way => (c.handle way.1, way.2)) target target') :
    Recasts c id (leave keyword target) (leave keyword target') := by
  unfold leave
  refine (lift_recasts h).bind fun way => ?_
  cases way with
  | none => exact mistake_recasts fun _ => rfl
  | some way => exact (pop_recasts way.2).andThen fun _ => jump_recasts .jmp way.1

variable (hengine : c.Respects env.engine)

include hengine

theorem discarded_recasts (e : Expr) :
    Recasts c id (discarded env e) (discarded (c.env env) (e.renamed c.name)) := by
  unfold discarded
  refine (expr_recasts hengine e).andThen fun ty => ?_
  refine (sizeOf_recasts ty).andThen fun size => ?_
  exact .ite Iff.rfl (fun _ => (pop_recasts _).andThen fun _ => grow_recasts _) fun _ =>
    grow_recasts _

theorem discarded?_recasts (e : Option Expr) :
    Recasts c id (discarded? env e) (discarded? (c.env env) (e.map (·.renamed c.name))) := by
  cases e with
  | none => exact pure_recasts rfl
  | some e => exact discarded_recasts hengine e

theorem condition_recasts (keyword : String) (e : Expr) :
    Recasts c id (condition env keyword e) (condition (c.env env) keyword (e.renamed c.name)) := by
  unfold condition
  refine (expr_recasts hengine e).andThen fun ty => ?_
  exact .ite Iff.rfl (fun _ => mistake_recasts fun _ => rfl) fun _ => pure_recasts rfl

theorem returned_recasts (value : Option Expr) :
    Recasts c id (returned env value) (returned (c.env env) (value.map (·.renamed c.name))) := by
  cases value with
  | none => exact pure_recasts rfl
  | some e => exact expr_recasts hengine e

variable (hlevel : c.raised = 0)

include hlevel

theorem initialValue_recasts (name : Name) (ty : Ty) (e : Expr) :
    Recasts c id (initialValue env name ty e)
      (initialValue (c.env env) (c.name name) ty (e.renamed c.name)) := by
  unfold initialValue
  refine (expr_recasts hengine e).andThen fun actual => ?_
  refine refuse_recasts Iff.rfl (fun hname => by rw [hname]; rfl) ?_
  refine (sizeOf_recasts ty).andThen fun size => ?_
  refine scope_recasts.bind fun s => ?_
  refine (lift_recasts (Recast.resolve_recast s name)).bind fun r => ?_
  rw [Recast.under_of_level hlevel]
  refine (emit_recasts (Recast.op_of_level hlevel _).symm).andThen fun _ => ?_
  exact (pop_recasts _).andThen fun _ => grow_recasts _

theorem declaration_recasts (ty : Ty) (ds : List Declarator) :
    Recasts c id (declaration env ty ds)
      (declaration (c.env env) ty (ds.map (·.renamed c.name))) := by
  induction ds with
  | nil => exact pure_recasts rfl
  | cons d rest ih =>
    rw [List.map_cons, declaration, declaration]
    refine require_recasts Iff.rfl (fun hname => by rw [hname]; rfl) ?_
    refine (lift_recasts (Recast.matches_same _)).andThen fun _ => ?_
    refine scope_recasts.bind fun s => ?_
    rw [Recast.block_scope hlevel]
    have hknown : (c.block s.block).local? (d.renamed c.name).name = s.block.local? d.name :=
      Recast.local?_block s.block d.name
    refine refuse_recasts (by rw [hknown]) (fun hname => by rw [hname]; rfl) ?_
    refine reserve_recasts ty ?_
    refine scope_recasts.bind fun s => ?_
    rw [Recast.block_scope hlevel]
    refine (lift_recasts (Recast.declare_block s.block d.name ty)).bind fun b => ?_
    refine (setBlock_recasts hlevel b).andThen fun _ => ?_
    obtain ⟨name, init⟩ := d
    cases init with
    | none => exact ih
    | some e => exact (initialValue_recasts hengine hlevel name ty e).andThen fun _ => ih

theorem exit_recasts (frame : Frame) (value : Option Expr) :
    Recasts c id (exit env frame value)
      (exit (c.env env) (c.frame frame) (value.map (·.renamed c.name))) := by
  unfold exit
  refine scope_recasts.bind fun s => ?_
  refine (lift_recasts (Recast.fullSize_scope s)).bind fun height => ?_
  refine (returned_recasts hengine value).andThen fun ty => ?_
  refine refuse_recasts Iff.rfl (fun _ => rfl) ?_
  refine (sizeOf_recasts ty).andThen fun size => ?_
  rw [hlevel, Int.add_zero]
  have hend : Recasts c id (do pop height; jump .jmp frame.retn)
      (do pop height; jump .jmp (c.frame frame).retn) :=
    (pop_recasts height).andThen fun _ => jump_recasts .jmp frame.retn
  refine .ite Iff.rfl (fun _ => ?_) fun _ => hend
  refine (lift_recasts (Recast.matches_same _)).andThen fun offset => ?_
  refine (emit_recasts (Recast.op_of_level hlevel _).symm).andThen fun _ => ?_
  exact (pop_recasts _).andThen fun _ => (grow_recasts _).andThen fun _ => hend

omit hengine hlevel

/-! ## The tests of a switch -/

theorem switchCode_recasts (ty : Ty) : Recasts c id (switchCode ty) (switchCode ty) := by
  unfold switchCode
  split
  · exact pure_recasts rfl
  · exact pure_recasts rfl
  · exact mistake_recasts fun _ => rfl

theorem armLabels_recasts (g : α → β) (arms : List α) :
    Recasts c (List.map c.instruction) (armLabels arms) (armLabels (arms.map g)) := by
  induction arms with
  | nil => exact pure_recasts rfl
  | cons _ rest ih =>
    rw [List.map_cons, armLabels, armLabels]
    refine label_recasts.bind fun l => ?_
    exact ih.bind fun ls => pure_recasts rfl

include hengine hlevel

theorem armTests_recasts (ty : Ty) (code : BinaryCode) (arm : Handle) (labels : List SwitchLabel)
    (default : Option Handle) :
    Recasts c (Option.map c.handle) (armTests env ty code arm labels default)
      (armTests (c.env env) ty code (c.handle arm) (labels.map (·.renamed c.name))
        (default.map c.handle)) := by
  induction labels generalizing default with
  | nil => exact pure_recasts rfl
  | cons l rest ih =>
    cases l with
    | case e =>
      rw [List.map_cons, SwitchLabel.renamed, armTests, armTests]
      refine (emit_recasts (Recast.op_of_level hlevel _).symm).andThen fun _ => ?_
      refine (grow_recasts _).andThen fun _ => ?_
      refine (expr_recasts hengine e).andThen fun caseTy => ?_
      refine refuse_recasts Iff.rfl (fun _ => rfl) ?_
      refine (emit_recasts rfl).andThen fun _ => ?_
      refine (grow_recasts _).andThen fun _ => ?_
      exact (branch_recasts .jnz arm).andThen fun _ => ih default
    | default =>
      rw [List.map_cons, SwitchLabel.renamed, armTests, armTests]
      exact refuse_recasts (by rw [Option.isSome_map]) (fun _ => rfl) (ih (some arm))

/-- An arm of a switch with other names. -/
def renamedArm (ρ : Name → Name) (a : List SwitchLabel × List Stmt) :
    List SwitchLabel × List Stmt :=
  (a.1.map (·.renamed ρ), a.2.map (·.renamed ρ))

theorem switchTests_recasts (ty : Ty) (code : BinaryCode)
    (arms : List (List SwitchLabel × List Stmt)) (labels : List Instruction)
    (default : Option Handle) :
    Recasts c (Option.map c.handle) (switchTests env ty code arms labels default)
      (switchTests (c.env env) ty code (arms.map (renamedArm c.name))
        (labels.map c.instruction) (default.map c.handle)) := by
  induction arms generalizing labels default with
  | nil => exact pure_recasts rfl
  | cons a arms ih =>
    cases labels with
    | nil => exact pure_recasts rfl
    | cons l labels =>
      rw [List.map_cons, List.map_cons]
      simp only [renamedArm, switchTests]
      refine (armTests_recasts hengine hlevel ty code l.handle a.1 default).bind fun default => ?_
      exact ih labels default

end Parts

/-! ## Statements -/

section Statements

variable {c : Recast} {env : Env} {frame : Frame}

/-- The code of a statement is the same code recast. -/
def StmtRecasts (c : Recast) (env : Env) (frame : Frame) (s : Stmt) : Prop :=
  Recasts c id (stmt env frame s) (stmt (c.env env) (c.frame frame) (s.renamed c.name))

theorem armBody_recasts {body : List Stmt} (h : ∀ s ∈ body, StmtRecasts c env frame s) :
    Recasts c id (armBody env frame body)
      (armBody (c.env env) (c.frame frame) (body.map (·.renamed c.name))) := by
  induction body with
  | nil => exact pure_recasts rfl
  | cons s rest ih =>
    have hstmt := h s (.head _)
    rw [List.map_cons]
    cases s with
    | declare ty ds =>
      simp only [armBody]
      refine mistake_bind_recasts fun hname => ?_
      rw [hname]
      simp
    | _ =>
      simp only [StmtRecasts, Stmt.renamed] at hstmt
      simp only [Stmt.renamed, armBody]
      refine hstmt.andThen fun flow => ?_
      cases flow with
      | next => exact ih fun s hs => h s (.tail _ hs)
      | returned => exact pure_recasts rfl

theorem arms_recasts {arms : List (List SwitchLabel × List Stmt)}
    (h : ∀ a ∈ arms, ∀ s ∈ a.2, StmtRecasts c env frame s) (labels : List Instruction) :
    Recasts c id (Codegen.arms env frame arms labels)
      (Codegen.arms (c.env env) (c.frame frame) (arms.map (renamedArm c.name))
        (labels.map c.instruction)) := by
  induction arms generalizing labels with
  | nil =>
    simp only [List.map_nil, Codegen.arms]
    exact pure_recasts rfl
  | cons a rest ih =>
    cases labels with
    | nil =>
      simp only [List.map_cons, List.map_nil, Codegen.arms]
      exact pure_recasts rfl
    | cons l labels =>
      rw [List.map_cons, List.map_cons]
      simp only [renamedArm, Codegen.arms]
      refine (place_recasts l).andThen fun _ => ?_
      refine (armBody_recasts (h a (.head _))).andThen fun _ => ?_
      exact ih (fun a ha => h a (.tail _ ha)) labels

variable (hlevel : c.raised = 0)

include hlevel

theorem block_recasts {body : List Stmt} (h : ∀ s ∈ body, StmtRecasts c env frame s) :
    Recasts c id (block env frame body)
      (block (c.env env) (c.frame frame) (body.map (·.renamed c.name))) := by
  induction body with
  | nil =>
    rw [List.map_nil, block, block]
    refine scope_recasts.bind fun s => ?_
    rw [Recast.block_scope hlevel, Recast.size_block]
    refine (lift_recasts (Recast.matches_same _)).andThen fun size => ?_
    refine (pop_recasts _).andThen fun _ => ?_
    exact (checkBalanced_recasts hlevel).andThen fun _ => pure_recasts rfl
  | cons s rest ih =>
    rw [List.map_cons, block, block]
    refine (h s (.head _)).andThen fun flow => ?_
    cases flow with
    | next => exact ih fun s hs => h s (.tail _ hs)
    | returned =>
      have hend : Recasts c id (do checkBalanced; return Flow.returned)
          (do checkBalanced; return Flow.returned) :=
        (checkBalanced_recasts hlevel).andThen fun _ => pure_recasts rfl
      refine .ite (by rw [List.isEmpty_map]) (fun _ => hend) fun _ => ?_
      exact (report_recasts _ _).andThen fun _ => hend

/-- A block inside of another. The labels that a loop or a switch passes on to it are recast like
all others. -/
theorem inner_recasts {body : List Stmt} (b : Block) (h : ∀ s ∈ body, StmtRecasts c env frame s) :
    Recasts c id (within b (block env frame body))
      (within (c.block b) (block (c.env env) (c.frame frame) (body.map (·.renamed c.name)))) :=
  within_recasts hlevel rfl (block_recasts hlevel h)

variable (hengine : c.Respects env.engine)

include hengine

theorem ifElse_recasts {onTrue : List Stmt} {onFalse : Option (List Stmt)} (e : Expr)
    (hTrue : ∀ s ∈ onTrue, StmtRecasts c env frame s)
    (hFalse : ∀ body, onFalse = some body → ∀ s ∈ body, StmtRecasts c env frame s) :
    StmtRecasts c env frame (.ifElse e onTrue onFalse) := by
  rw [StmtRecasts, Stmt.renamed, Stmt.renamedAll_eq, Stmt.renamed?_eq, stmt, stmt]
  refine (condition_recasts hengine "if" e).andThen fun _ => ?_
  refine label_recasts.bind fun otherwise => ?_
  refine (branch_recasts .jz otherwise.handle).andThen fun _ => ?_
  refine (inner_recasts hlevel {} hTrue).andThen fun _ => ?_
  cases onFalse with
  | none => exact (place_recasts otherwise).andThen fun _ => pure_recasts rfl
  | some body =>
    refine label_recasts.bind fun done => ?_
    refine (jump_recasts .jmp done.handle).andThen fun _ => ?_
    refine (place_recasts otherwise).andThen fun _ => ?_
    refine (inner_recasts hlevel {} (hFalse body rfl)).andThen fun _ => ?_
    exact (place_recasts done).andThen fun _ => pure_recasts rfl

/-- A `for` loop from its body on, which comes after the condition if there is one. -/
theorem round_recasts {body : List Stmt} (step : Option Expr) (start : Handle)
    (done next : Instruction) (h : ∀ s ∈ body, StmtRecasts c env frame s) :
    Recasts c id
      (do let _ ← within { breakTo := some done.handle, continueTo := some next.handle }
            (block env frame body)
          place next; discarded? env step; jump .jmp start; place done; return Flow.next)
      (do let _ ← within (c.block { breakTo := some done.handle, continueTo := some next.handle })
            (block (c.env env) (c.frame frame) (body.map (·.renamed c.name)))
          place (c.instruction next); discarded? (c.env env) (step.map (·.renamed c.name))
          jump .jmp (c.handle start); place (c.instruction done); return Flow.next) := by
  refine (inner_recasts hlevel _ h).andThen fun _ => ?_
  refine (place_recasts next).andThen fun _ => ?_
  refine (discarded?_recasts hengine step).andThen fun _ => ?_
  refine (jump_recasts .jmp start).andThen fun _ => ?_
  exact (place_recasts done).andThen fun _ => pure_recasts rfl

theorem forLoop_recasts {body : List Stmt} (init e step : Option Expr)
    (h : ∀ s ∈ body, StmtRecasts c env frame s) :
    StmtRecasts c env frame (.forLoop init e step body) := by
  simp only [StmtRecasts, Stmt.renamed, Stmt.renamedAll_eq, stmt]
  refine (discarded?_recasts hengine init).andThen fun _ => ?_
  refine (add_recasts rfl).bind fun start => ?_
  refine label_recasts.bind fun done => label_recasts.bind fun next => ?_
  cases e with
  | none => exact round_recasts hlevel hengine step start done next h
  | some e =>
    refine (condition_recasts hengine "for" e).andThen fun _ => ?_
    refine (branch_recasts .jz done.handle).andThen fun _ => ?_
    exact round_recasts hlevel hengine step start done next h

theorem switch_recasts {arms : List (List SwitchLabel × List Stmt)} (e : Expr)
    (h : ∀ a ∈ arms, ∀ s ∈ a.2, StmtRecasts c env frame s) :
    StmtRecasts c env frame (.switch e arms) := by
  simp only [StmtRecasts, Stmt.renamed, Stmt.renamedArms_eq, stmt]
  refine (expr_recasts hengine e).andThen fun ty => ?_
  refine (switchCode_recasts ty).andThen fun code => ?_
  refine label_recasts.bind fun done => ?_
  refine (armLabels_recasts (renamedArm c.name) arms).bind fun labels => ?_
  refine (switchTests_recasts hengine hlevel ty code arms labels none).bind fun default => ?_
  have htarget : (default.map c.handle).getD (c.instruction done).handle =
      c.handle (default.getD done.handle) := by
    cases default <;> rfl
  rw [htarget]
  refine (jump_recasts .jmp _).andThen fun _ => ?_
  refine (within_recasts (b := { breakTo := some done.handle }) hlevel rfl
    ((arms_recasts h labels).andThen fun _ => checkBalanced_recasts hlevel)).andThen fun _ => ?_
  refine (place_recasts done).andThen fun _ => ?_
  refine (sizeOf_recasts ty).andThen fun size => ?_
  exact (pop_recasts _).andThen fun _ => (grow_recasts _).andThen fun _ => pure_recasts rfl

theorem stmt_recasts (s : Stmt) : StmtRecasts c env frame s := by
  induction s using Stmt.inductOn with
  | expr e =>
    simp only [StmtRecasts, Stmt.renamed, stmt]
    exact (discarded_recasts hengine e).andThen fun _ => pure_recasts rfl
  | declare ty ds =>
    simp only [StmtRecasts, Stmt.renamed, stmt]
    exact (declaration_recasts hengine hlevel ty ds).andThen fun _ => pure_recasts rfl
  | block body hb =>
    simp only [StmtRecasts, Stmt.renamed, Stmt.renamedAll_eq, stmt]
    exact inner_recasts hlevel {} hb
  | ifElse e onTrue onFalse hTrue hFalse => exact ifElse_recasts hlevel hengine e hTrue hFalse
  | whileLoop e body hb =>
    simp only [StmtRecasts, Stmt.renamed, Stmt.renamedAll_eq, stmt]
    refine (add_recasts rfl).bind fun start => ?_
    refine (condition_recasts hengine "while" e).andThen fun _ => ?_
    refine label_recasts.bind fun done => ?_
    refine (branch_recasts .jz done.handle).andThen fun _ => ?_
    refine (inner_recasts hlevel { breakTo := some done.handle, continueTo := some start }
      hb).andThen fun _ => ?_
    refine (jump_recasts .jmp start).andThen fun _ => ?_
    exact (place_recasts done).andThen fun _ => pure_recasts rfl
  | doWhile body e hb =>
    simp only [StmtRecasts, Stmt.renamed, Stmt.renamedAll_eq, stmt]
    refine (add_recasts rfl).bind fun start => ?_
    refine label_recasts.bind fun done => label_recasts.bind fun next => ?_
    refine (inner_recasts hlevel { breakTo := some done.handle, continueTo := some next.handle }
      hb).andThen fun _ => ?_
    refine (place_recasts next).andThen fun _ => ?_
    refine (condition_recasts hengine "do-while" e).andThen fun _ => ?_
    refine (branch_recasts .jnz start).andThen fun _ => ?_
    exact (place_recasts done).andThen fun _ => pure_recasts rfl
  | forLoop init e step body hb => exact forLoop_recasts hlevel hengine init e step hb
  | switch e arms hb => exact switch_recasts hlevel hengine e hb
  | breakOut =>
    simp only [StmtRecasts, Stmt.renamed, stmt]
    refine scope_recasts.bind fun s => ?_
    refine (leave_recasts "break" ?_).andThen fun _ => pure_recasts rfl
    rw [Scope.breakTarget, Scope.breakTarget, Recast.chain_scope hlevel]
    exact Recast.unwind_blocks (fun _ => rfl) s.chain 0
  | continueLoop =>
    simp only [StmtRecasts, Stmt.renamed, stmt]
    refine scope_recasts.bind fun s => ?_
    refine (leave_recasts "continue" ?_).andThen fun _ => pure_recasts rfl
    rw [Scope.continueTarget, Scope.continueTarget, Recast.chain_scope hlevel]
    exact Recast.unwind_blocks (fun _ => rfl) s.chain 0
  | ret value =>
    simp only [StmtRecasts, Stmt.renamed, stmt]
    exact (exit_recasts hengine hlevel frame value).andThen fun _ => pure_recasts rfl

omit hengine

theorem parameters_recasts (params : List Param) :
    Recasts c id (parameters env params)
      (parameters (c.env env) (params.map (·.renamed c.name))) := by
  induction params with
  | nil => exact pure_recasts rfl
  | cons p rest ih =>
    rw [List.map_cons, parameters, parameters]
    refine scope_recasts.bind fun s => ?_
    rw [Recast.block_scope hlevel]
    have hknown : (c.block s.block).local? (p.renamed c.name).name = s.block.local? p.name :=
      Recast.local?_block s.block p.name
    refine refuse_recasts (by rw [hknown]) (fun hname => by rw [hname]; rfl) ?_
    refine (lift_recasts (Recast.declare_block s.block p.name p.ty)).bind fun b => ?_
    exact (setBlock_recasts hlevel b).andThen fun _ => ih

include hengine

/-- The body of a function is the same code recast. -/
theorem body_recasts (s : Signature) (stmts : List Stmt) :
    Recasts c id (body env s stmts)
      (body (c.env env) (s.renamed c.name) (stmts.map (·.renamed c.name))) := by
  unfold body
  refine (detached_recasts rfl).bind fun retn => ?_
  refine (parameters_recasts hlevel s.params).andThen fun _ => ?_
  have hblock := @block_recasts c env ⟨s.name, s.returnType, retn.handle⟩ hlevel stmts
    fun st _ => stmt_recasts hlevel hengine st
  exact hblock.andThen fun _ => place_recasts retn

end Statements

end Codegen

end NwScript
