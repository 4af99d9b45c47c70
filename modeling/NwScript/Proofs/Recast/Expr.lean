-- Expressions in other circumstances: the same instructions, recast.
import Mathlib.Data.List.Forall2
import NwScript.Proofs.Recast.Basic

namespace NwScript

namespace Recast

variable (c : Recast)

/-- Whether it is another number that is counted, of slots or of handles. -/
def Counts : Prop := c.raised ≠ 0 ∨ c.moved ≠ 0

/-- Whether so many handles are too many further on. -/
def Beyond (n : Nat) : Prop := c.raised ≠ 0 ∨ Handle.limit < c.handle n

variable {c}

theorem Beyond.mono {m n : Nat} (h : c.Beyond m) (hmn : m ≤ n) : c.Beyond n :=
  h.imp_right fun hm => Nat.lt_of_lt_of_le hm (Nat.add_le_add_right hmn _)

end Recast

namespace Codegen

/-- What two runs build on. -/
structure Ground where
  /-- The code that the first run has found. -/
  base : List Instruction
  /-- The code that the second run has found. -/
  front : List Instruction
  /-- The first handle of the first run. -/
  first : Nat
  /-- A bound for the handles of the second run. -/
  top : Nat
  room : Handle.limit ≤ top

/-- Behind what there was before, the second state has what the first one has, recast. -/
structure Mirrors (c : Recast) (ground : Ground) (s t : State) : Prop where
  code : ∃ written, s.code = ground.base ++ written ∧
    t.code = ground.front ++ written.map c.instruction
  next : t.next = c.handle s.next
  since : ground.first ≤ s.next
  bound : t.next ≤ ground.top
  marks : t.marks = s.marks
  scope : t.scope = c.scope s.scope

/-- With more temporaries either run may break off, and with handles further on the second one. -/
def leeway (c : Recast) (ground : Ground) : Leeway State where
  early := c.raised ≠ 0
  late t := c.Counts ∧ ground.front <+: t.code
  beyond s := c.Beyond s.next

/-- The second step does what the first one does, recast, also until an error. -/
def Recasts {α β : Type} (c : Recast) (f : α → β) (x : Gen α) (y : Gen β) : Prop :=
  ∀ ground, Coupled (leeway c ground) (Mirrors c ground) (fun _ => Mirrors c ground)
    (fun e e' s t => c.SameError e e' ∧ Mirrors c ground s t) f x y

section Mirrors

variable {c : Recast} {ground : Ground} {s t : State}

theorem Mirrors.kept (h : Mirrors c ground s t) : ground.front <+: t.code := by
  obtain ⟨written, -, ht⟩ := h.code
  exact ⟨_, ht.symm⟩

theorem Mirrors.wrote (h : Mirrors c ground s t) (is : List Instruction) {n : Handle}
    (hle : s.next ≤ n) (hn : c.handle n ≤ ground.top) :
    Mirrors c ground (s.wrote is n) (t.wrote (is.map c.instruction) (c.handle n)) := by
  obtain ⟨written, hs, ht⟩ := h.code
  refine ⟨⟨written ++ is, ?_, ?_⟩, rfl, Nat.le_trans h.since hle, hn, h.marks, h.scope⟩
  · rw [State.wrote_code, hs, List.append_assoc]
  · rw [State.wrote_code, ht, List.append_assoc, List.map_append]

theorem Mirrors.inScope (h : Mirrors c ground s t) (scope : Scope) :
    Mirrors c ground (s.inScope scope) (t.inScope (c.scope scope)) :=
  ⟨h.code, h.next, h.since, h.bound, h.marks, rfl⟩

end Mirrors

section Steps

variable {α β γ δ : Type} {c : Recast} {f : α → β} {g : γ → δ} {x : Gen α} {y : Gen β}

/-! ## Steps in a row -/

theorem Recasts.bind {k : α → Gen γ} {l : β → Gen δ} (hx : Recasts c f x y)
    (hk : ∀ a, Recasts c g (k a) (l (f a))) : Recasts c g (x >>= k) (y >>= l) :=
  fun ground => (hx ground).bind fun a => hk a ground

/-- The same, where both give the same. -/
theorem Recasts.andThen {x y : Gen α} {k : α → Gen γ} {l : α → Gen δ} (hx : Recasts c id x y)
    (hk : ∀ a, Recasts c g (k a) (l a)) : Recasts c g (x >>= k) (y >>= l) := hx.bind hk

theorem Recasts.ite {p p' : Prop} [Decidable p] [Decidable p'] {x' : Gen α} {y' : Gen β}
    (hp : p ↔ p') (h : p → Recasts c f x y) (h' : ¬p → Recasts c f x' y') :
    Recasts c f (if p then x else x') (if p' then y else y') :=
  fun ground => .ite hp (fun hpos => h hpos ground) fun hneg => h' hneg ground

/-- Steps that always succeed and hand out no handle. -/
theorem recasts_of_ok (h : ∀ {ground : Ground} {s t : State},
    Mirrors c ground s t → ∃ a s' t', x s = .ok a s' ∧ y t = .ok (f a) t' ∧
      Mirrors c ground s' t')
    (hnext : ∀ {s a t}, x s = .ok a t → t.next = s.next) : Recasts c f x y := by
  intro ground
  constructor
  · intro s t hst
    obtain ⟨a, s', t', hx, hy, hmirrors⟩ := h hst
    rw [hx, hy]
    exact .ok hmirrors
  · intro s a t hs hx
    change c.Beyond t.next
    rw [hnext hx]
    exact hs

theorem pure_recasts {a : α} {b : β} (h : b = f a) : Recasts c f (pure a) (pure b) := by
  apply recasts_of_ok
  · intro ground s t hst
    exact ⟨a, s, t, rfl, by rw [h]; rfl, hst⟩
  · intro s b t hb
    rw [(pure_ok.mp hb).2]

theorem throw_recasts {e e' : Failure} (h : c.SameError e e') :
    Recasts c f (throw e) (throw e') :=
  fun _ => ⟨fun _ _ hst => .error ⟨h, hst⟩, fun _ ht => (throw_ok.mp ht).elim⟩

theorem mistake_recasts {m m' : Mistake} (h : c.name = id → m' = m) :
    Recasts c f (mistake m) (mistake m') :=
  throw_recasts fun hname => congrArg Failure.semantic (h hname)

/-- A result that is looked at before what comes next. -/
theorem lift_bind_recasts {x : Except Failure α} {y : Except Failure β}
    {k : α → Gen γ} {l : β → Gen δ} (h : c.Matches f x y)
    (hk : ∀ a, x = .ok a → Recasts c g (k a) (l (f a))) :
    Recasts c g (lift x >>= k) (lift y >>= l) := by
  intro ground
  constructor
  · intro s t hst
    cases h with
    | ok => exact (hk _ rfl ground).steps s t hst
    | error he => exact .error ⟨he, hst⟩
    | early he => exact .early he
    | late he => exact .late ⟨.inl he, hst.kept⟩ fun _ _ _ => .inl he
  · intro s b t hs hb
    obtain ⟨a, u, ha, hb⟩ := bind_ok.mp hb
    obtain ⟨hx, rfl⟩ := lift_ok.mp ha
    exact (hk a hx ground).keeps hs hb

theorem lift_recasts {x : Except Failure α} {y : Except Failure β} (h : c.Matches f x y) :
    Recasts c f (lift x) (lift y) := by
  have hlift := lift_bind_recasts h fun a _ => @pure_recasts _ _ c f a _ rfl
  rwa [bind_pure, bind_pure] at hlift

theorem sizeOf_recasts {env : Env} (ty : Ty) :
    Recasts c id (Codegen.sizeOf env ty) (Codegen.sizeOf (c.env env) ty) :=
  lift_recasts (Recast.matches_same _)

theorem throw_bind_recasts {e e' : Failure} {k : γ → Gen α} {l : γ → Gen β}
    (h : c.SameError e e') : Recasts c f (throw e >>= k) (throw e' >>= l) := throw_recasts h

theorem mistake_bind_recasts {m m' : Mistake} {k : γ → Gen α} {l : γ → Gen β}
    (h : c.name = id → m' = m) : Recasts c f (mistake m >>= k) (mistake m' >>= l) :=
  throw_bind_recasts fun hname => congrArg Failure.semantic (h hname)

theorem refuse_recasts {p p' : Prop} [Decidable p] [Decidable p'] {m m' : Mistake}
    {k : γ → Gen α} {l : γ → Gen β} (hp : p ↔ p') (hm : c.name = id → m' = m)
    (h : Recasts c f x y) :
    Recasts c f (if p then mistake m >>= k else x) (if p' then mistake m' >>= l else y) :=
  .ite hp (fun _ => mistake_bind_recasts hm) fun _ => h

theorem require_recasts {p p' : Prop} [Decidable p] [Decidable p'] {m m' : Mistake}
    {k : γ → Gen α} {l : γ → Gen β} (hp : p ↔ p') (hm : c.name = id → m' = m)
    (h : Recasts c f x y) :
    Recasts c f (if p then x else mistake m >>= k) (if p' then y else mistake m' >>= l) :=
  .ite hp (fun _ => h) fun _ => mistake_bind_recasts hm

/-! ## Emitting -/

theorem handle_succ (h : Handle) : c.handle h + 1 = c.handle (h + 1) := Nat.add_right_comm ..

/-- A new instruction. Further on the handles may all be given out, and then so many handles as are
given out here are too many there. -/
theorem new_recasts {op op' : Op} (h : op' = c.op op) (target : Option Handle) :
    Recasts c c.instruction (edit (Stream.detached op target))
      (edit (Stream.detached op' (target.map c.handle))) := by
  intro ground
  constructor
  · intro s t hst
    by_cases hroom : t.next < Handle.limit
    · have hle : s.next ≤ t.next := by
        rw [hst.next]
        exact Nat.le_add_right _ _
      have hx : edit (Stream.detached op target) s =
          .ok ⟨s.next, op, target⟩ (s.wrote [] (s.next + 1)) :=
        edit_ok.mpr ⟨_, Stream.detached_ok.mpr ⟨Nat.lt_of_le_of_lt hle hroom, rfl, rfl⟩,
          by rw [State.wrote, List.append_nil]; rfl⟩
      have hy : edit (Stream.detached op' (target.map c.handle)) t =
          .ok (c.instruction ⟨s.next, op, target⟩) (t.wrote [] (c.handle (s.next + 1))) := by
        refine edit_ok.mpr ⟨_, Stream.detached_ok.mpr ⟨hroom, ?_, rfl⟩, ?_⟩
        · rw [h, Recast.instruction, ← hst.next]
          rfl
        · rw [← handle_succ, ← hst.next, State.wrote, List.append_nil]
          rfl
      rw [hx, hy]
      refine .ok (hst.wrote [] (Nat.le_succ _) ?_)
      rw [← handle_succ, ← hst.next]
      exact Nat.le_trans hroom ground.room
    · have hfull := Nat.le_of_not_lt hroom
      have hy : edit (Stream.detached op' (target.map c.handle)) t = .error (.panic .overflow) t :=
        edit_error (Stream.detached_full hfull)
      rw [hy]
      by_cases hroom' : s.next < Handle.limit
      · refine .late ⟨.inr fun hmoved => ?_, hst.kept⟩ fun i u hu => .inr ?_
        · rw [hst.next, Recast.handle, hmoved] at hfull
          exact Nat.not_le_of_lt hroom' hfull
        · obtain ⟨_, hdetached, rfl⟩ := edit_ok.mp hu
          obtain ⟨-, -, rfl⟩ := Stream.detached_ok.mp hdetached
          change Handle.limit < c.handle (s.next + 1)
          rw [← handle_succ, ← hst.next]
          exact Nat.lt_succ_of_le hfull
      · have hx : edit (Stream.detached op target) s = .error (.panic .overflow) s :=
          edit_error (Stream.detached_full (Nat.le_of_not_lt hroom'))
        rw [hx]
        exact .error ⟨Recast.sameError_refl _, hst⟩
  · intro s i t hs ht
    obtain ⟨_, hdetached, rfl⟩ := edit_ok.mp ht
    obtain ⟨-, -, rfl⟩ := Stream.detached_ok.mp hdetached
    exact Recast.Beyond.mono hs (Nat.le_succ _)

theorem detached_recasts {op op' : Op} (h : op' = c.op op) :
    Recasts c c.instruction (detached op) (detached op') := new_recasts h none

theorem label_recasts : Recasts c c.instruction label label := detached_recasts rfl

theorem push_recasts (i : Instruction) :
    Recasts c c.handle (edit (Stream.push i)) (edit (Stream.push (c.instruction i))) := by
  apply recasts_of_ok
  · intro ground s t hst
    have hx : edit (Stream.push i) s = .ok i.handle (s.wrote [i] s.next) := rfl
    have hy : edit (Stream.push (c.instruction i)) t =
        .ok (c.handle i.handle) (t.wrote [c.instruction i] t.next) := rfl
    refine ⟨_, _, _, hx, hy, ?_⟩
    rw [hst.next]
    exact hst.wrote [i] (Nat.le_refl _) (hst.next ▸ hst.bound)
  · intro s h t ht
    obtain ⟨_, hpush, rfl⟩ := edit_ok.mp ht
    obtain ⟨-, rfl⟩ := Stream.push_ok.mp hpush
    rfl

theorem place_recasts (i : Instruction) : Recasts c id (place i) (place (c.instruction i)) :=
  (push_recasts i).bind fun _ => pure_recasts rfl

/-- Two edits one after another. -/
theorem edit_bind {e : Edit α} {k : α → Edit β} :
    edit (e >>= k) = edit e >>= fun a => edit (k a) :=
  focus_bind (fun _ _ => rfl) fun _ _ _ => rfl

theorem added_recasts {op op' : Op} (h : op' = c.op op) (target : Option Handle) :
    Recasts c c.handle (edit (Stream.add op target))
      (edit (Stream.add op' (target.map c.handle))) := by
  rw [Stream.add, Stream.add, edit_bind, edit_bind]
  exact (new_recasts h target).bind push_recasts

theorem add_recasts {op op' : Op} (h : op' = c.op op) : Recasts c c.handle (add op) (add op') :=
  added_recasts h none

theorem emit_recasts {op op' : Op} (h : op' = c.op op) : Recasts c id (emit op) (emit op') :=
  (add_recasts h).bind fun _ => pure_recasts rfl

theorem jump_recasts (code : JumpCode) (target : Handle) :
    Recasts c id (jump code target) (jump code (c.handle target)) :=
  (added_recasts rfl (some target)).bind fun _ => pure_recasts rfl

theorem pop_recasts (size : Int) : Recasts c id (pop size) (pop size) :=
  (lift_recasts (Recast.matches_same _)).andThen fun _ => emit_recasts rfl

theorem emitAll_recasts {ops : List Op} (h : ∀ op ∈ ops, c.op op = op) :
    Recasts c id (emitAll ops) (emitAll ops) := by
  induction ops with
  | nil => exact pure_recasts rfl
  | cons op rest ih =>
    refine (emit_recasts (h op (.head _)).symm).andThen fun _ => ?_
    exact ih fun op hop => h op (.tail _ hop)

/-! ## Reporting and the scope -/

theorem report_recasts (e e' : Event) : Recasts c id (report e) (report e') := by
  apply recasts_of_ok
  · intro ground s t hst
    exact ⟨(), s.reported e, t.reported e', rfl, rfl, hst.code, hst.next, hst.since, hst.bound,
      hst.marks, hst.scope⟩
  · intro s u t ht
    rw [report_ok.mp ht, State.reported_next]

theorem markCalled_recasts (name : Name) : Recasts c id (markCalled name) (markCalled name) := by
  apply recasts_of_ok
  · intro ground s t hst
    refine ⟨(), s.marked name, t.marked name, rfl, rfl, hst.code, hst.next, hst.since, hst.bound,
      ?_, hst.scope⟩
    simp only [State.marked, hst.marks]
  · intro s u t ht
    rw [markCalled_ok.mp ht, State.marked_next]

theorem scope_recasts : Recasts c c.scope scope scope := by
  apply recasts_of_ok
  · intro ground s t hst
    exact ⟨_, _, _, scope_ok.mpr ⟨rfl, rfl⟩, scope_ok.mpr ⟨hst.scope, rfl⟩, hst⟩
  · intro s b t ht
    rw [(scope_ok.mp ht).2]

theorem setBlock_recasts_of {b b' : Block}
    (h : ∀ s : Scope, ({ c.scope s with block := b' } : Scope) = c.scope { s with block := b }) :
    Recasts c id (setBlock b) (setBlock b') := by
  apply recasts_of_ok
  · intro ground s t hst
    refine ⟨(), _, _, setBlock_ok.mpr rfl, setBlock_ok.mpr rfl, ?_⟩
    rw [hst.scope, h]
    exact hst.inScope _
  · intro s u t ht
    rw [setBlock_ok.mp ht, State.inScope_next]

theorem grow_recasts (k : Int) : Recasts c id (grow k) (grow k) := by
  unfold grow
  refine scope_recasts.bind fun s => ?_
  have htemps : (c.scope s).block.temps + k = s.block.temps + k + c.raised := by
    simp only [Recast.scope, Scope.grown, Recast.block]
    omega
  dsimp only
  rw [htemps]
  refine (lift_recasts (Recast.checked_raised _)).bind fun n => ?_
  exact setBlock_recasts_of fun _ => rfl

end Steps

/-! ## Operations -/

section Operations

variable {c : Recast} {env : Env}

theorem op_pushing (value : Value) : ∀ op ∈ Op.pushing value, c.op op = op := by
  cases value <;> simp [Op.pushing, Recast.op]

theorem op_reserving {ops : List Op} {ty : Ty} (h : env.structs.reserve ty = .ok ops) :
    ∀ op ∈ ops, c.op op = op := by
  simp only [Structs.reserve, except_bind_ok, except_pure_ok] at h
  obtain ⟨slots, -, rfl⟩ := h
  intro op hop
  obtain ⟨kind, -, rfl⟩ := List.mem_map.mp hop
  rfl

/-- Room for a value of a type. -/
theorem reserve_recasts {α β : Type} {f : α → β} {x : Gen α} {y : Gen β} (ty : Ty)
    (h : Recasts c f x y) :
    Recasts c f (do emitAll (← lift (env.structs.reserve ty)); x)
      (do emitAll (← lift ((c.env env).structs.reserve ty)); y) := by
  refine lift_bind_recasts (Recast.matches_same _) fun ops hops => ?_
  exact (emitAll_recasts (op_reserving hops)).andThen fun _ => h

theorem literal_recasts (value : Value) (ty : Ty) :
    Recasts c id (literal env value ty) (literal (c.env env) value ty) := by
  unfold literal
  refine (emitAll_recasts (op_pushing value)).andThen fun _ => ?_
  refine (sizeOf_recasts ty).andThen fun size => ?_
  exact (grow_recasts _).andThen fun _ => pure_recasts rfl

theorem locate_recasts (path : Access) :
    Recasts c (·.under c.raised) (locate env path) (locate (c.env env) (path.renamed c.name)) :=
  scope_recasts.bind fun s => lift_recasts (Recast.access_recast s path)

theorem locateMutable_recasts (path : Access) :
    Recasts c (·.under c.raised) (locateMutable env path)
      (locateMutable (c.env env) (path.renamed c.name)) := by
  unfold locateMutable
  refine (locate_recasts path).bind fun r => ?_
  refine refuse_recasts (by rw [Resolved.under_const]) (fun hname => ?_) (pure_recasts rfl)
  rw [hname]
  rfl

/-- What has been found goes on top of the stack. -/
theorem load_recasts (r : Resolved) :
    Recasts c id
      (do let size ← Codegen.sizeOf env r.ty
          emit (r.load size); grow size; return r.ty)
      (do let size ← Codegen.sizeOf (c.env env) (r.under c.raised).ty
          emit ((r.under c.raised).load size); grow size; return (r.under c.raised).ty) := by
  rw [Resolved.under_ty]
  refine (sizeOf_recasts r.ty).andThen fun size => ?_
  refine (emit_recasts (Recast.op_load r size).symm).andThen fun _ => ?_
  exact (grow_recasts _).andThen fun _ => pure_recasts rfl

theorem identifier?_renamed (path : Access) (ρ : Name → Name) :
    (path.renamed ρ).identifier? = path.identifier?.map ρ := by
  unfold Access.identifier? Access.renamed
  by_cases h : path.members.isEmpty
  · rw [if_pos h, if_pos h, Option.map_some]
  · rw [if_neg h, if_neg h, Option.map_none]

theorem access_recasts (hengine : c.Respects env.engine) (path : Access) :
    Recasts c id (access env path) (access (c.env env) (path.renamed c.name)) := by
  have hconst : (path.renamed c.name).identifier?.bind (c.env env).engine.constant? =
      path.identifier?.bind env.engine.constant? := by
    rw [identifier?_renamed]
    cases path.identifier? with
    | none => rfl
    | some n => exact hengine.constant n
  unfold access
  rw [hconst]
  split
  · exact literal_recasts _ _
  · exact (locate_recasts path).bind load_recasts

theorem loadTarget_recasts (target : Access) :
    Recasts c id (loadTarget env target) (loadTarget (c.env env) (target.renamed c.name)) :=
  (locateMutable_recasts target).bind load_recasts

theorem assign_recasts (target : Access) (actual : Ty) :
    Recasts c id (assign env target actual)
      (assign (c.env env) (target.renamed c.name) actual) := by
  unfold assign
  refine (locateMutable_recasts target).bind fun r => ?_
  rw [Resolved.under_ty]
  refine refuse_recasts Iff.rfl (fun hname => ?_) ?_
  · rw [hname]
    rfl
  · refine (sizeOf_recasts r.ty).andThen fun size => ?_
    exact (emit_recasts (Recast.op_store r size).symm).andThen fun _ => pure_recasts rfl

theorem combine_recasts (op : AssignOp) (arithmetic : BinaryOp) (target : Access)
    (ty actual : Ty) :
    Recasts c id (combine env op arithmetic target ty actual)
      (combine (c.env env) op arithmetic (target.renamed c.name) ty actual) := by
  unfold combine
  split
  · exact mistake_recasts fun _ => rfl
  · refine (sizeOf_recasts ty).andThen fun size => ?_
    refine (emit_recasts rfl).andThen fun _ => ?_
    refine (sizeOf_recasts actual).andThen fun actualSize => ?_
    refine (lift_recasts (Recast.matches_same _)).andThen fun both => ?_
    refine (grow_recasts _).andThen fun _ => ?_
    refine (grow_recasts _).andThen fun _ => ?_
    refine (locate_recasts target).bind fun r => ?_
    exact (emit_recasts (Recast.op_store r size).symm).andThen fun _ => pure_recasts rfl

theorem op_composite {op : BinaryOp} {left right : Ty} {size : Int} {code : Op}
    (h : op.composite? left right size = some code) : c.op code = code := by
  rcases composite_cases h with rfl | rfl <;> rfl

theorem binary_recasts (op : BinaryOp) (left right : Ty) :
    Recasts c id (binary env op left right) (binary (c.env env) op left right) := by
  unfold binary
  refine (sizeOf_recasts left).andThen fun leftSize => ?_
  refine (sizeOf_recasts right).andThen fun rightSize => ?_
  have hjoin {code : Op} (hcode : c.op code = code) (result : Ty) :
      Recasts c id
        (do emit code; grow (-(← lift (Count.sum leftSize rightSize)))
            grow (← Codegen.sizeOf env result); return result)
        (do emit code; grow (-(← lift (Count.sum leftSize rightSize)))
            grow (← Codegen.sizeOf (c.env env) result); return result) := by
    refine (emit_recasts hcode.symm).andThen fun _ => ?_
    refine (lift_recasts (Recast.matches_same _)).andThen fun both => ?_
    refine (grow_recasts _).andThen fun _ => ?_
    refine (sizeOf_recasts result).andThen fun size => ?_
    exact (grow_recasts _).andThen fun _ => pure_recasts rfl
  dsimp only
  split
  · rename_i hcode
    exact hjoin (op_composite hcode) .int
  · split
    · rename_i code _
      exact hjoin rfl code.result
    · exact mistake_bind_recasts fun _ => rfl

theorem unary_recasts (op : UnaryOp) (operand : Ty) :
    Recasts c id (unary op operand) (unary op operand) := by
  unfold unary
  split
  · exact (emit_recasts rfl).andThen fun _ => pure_recasts rfl
  · exact mistake_recasts fun _ => rfl

theorem op_step (op : StepOp) (r : Resolved) :
    c.op (.step op r.anchor r.offset) =
      .step op (r.under c.raised).anchor (r.under c.raised).offset := by
  obtain ⟨_, _, anchor, _⟩ := r
  cases anchor <;> rfl

/-- A step of what has been found, seen from one more slot. -/
theorem pastPush_recasts {α β : Type} {f : α → β} {x : Gen α} {y : Gen β} (op : StepOp)
    (r : Resolved) (h : Recasts c f x y) :
    Recasts c f (do emit (.step op r.anchor (← lift (pastPush r))); x)
      (do emit (.step op (r.under c.raised).anchor (← lift (pastPush (r.under c.raised)))); y) := by
  obtain ⟨_, offset, anchor, _⟩ := r
  cases anchor with
  | sp =>
    have hmove : offset - c.raised - 1 = offset - 1 - c.raised := by omega
    simp only [pastPush, Resolved.under, hmove]
    refine (lift_recasts (Recast.checked_lowered _)).bind fun _ => ?_
    exact (emit_recasts rfl).andThen fun _ => h
  | bp =>
    refine (lift_recasts (Recast.matches_same _)).andThen fun _ => ?_
    exact (emit_recasts rfl).andThen fun _ => h

theorem step_recasts (op : StepOp) (fix : Fix) (target : Access) :
    Recasts c id (step env op fix target) (step (c.env env) op fix (target.renamed c.name)) := by
  unfold step
  refine (locateMutable_recasts target).bind fun r => ?_
  rw [Resolved.under_ty]
  refine refuse_recasts Iff.rfl (fun _ => rfl) ?_
  cases fix with
  | pre =>
    refine (emit_recasts (op_step op r).symm).andThen fun _ => ?_
    refine (emit_recasts (Recast.op_load r 1).symm).andThen fun _ => ?_
    exact (grow_recasts 1).andThen fun _ => pure_recasts rfl
  | post =>
    refine (emit_recasts (Recast.op_load r 1).symm).andThen fun _ => ?_
    exact pastPush_recasts op r ((grow_recasts 1).andThen fun _ => pure_recasts rfl)

end Operations

/-! ## Calls -/

section Calls

variable {c : Recast} {env : Env}

/-- The same parameter but for its name, whose default value is recast. -/
structure SameParam (c : Recast) (p p' : Param) : Prop where
  ty : p'.ty = p.ty
  default : p'.default = p.default.map (·.renamed c.name)
  name : c.name = id → p'.name = p.name

theorem sameParam_renamed (p : Param) : SameParam c p (p.renamed c.name) :=
  ⟨rfl, rfl, fun hname => by rw [hname]; rfl⟩

theorem SameParam.eq {p p' : Param} (h : SameParam c p p') (hname : c.name = id) : p' = p := by
  obtain ⟨ty, name, default⟩ := p
  obtain ⟨ty', name', default'⟩ := p'
  have hdefault := h.default
  rw [hname, Expr.map_renamed_id] at hdefault
  rw [Param.mk.injEq]
  exact ⟨h.ty, h.name hname, hdefault⟩

theorem params_eq {params params' : List Param} (h : List.Forall₂ (SameParam c) params params')
    (hname : c.name = id) : params' = params := by
  induction h with
  | nil => rfl
  | cons hp _ ih => rw [hp.eq hname, ih]

theorem missing_recast {params params' : List Param}
    (h : List.Forall₂ (SameParam c) params params') :
    ((params'.filter (·.default.isNone)).map (·.name)).isEmpty =
      ((params.filter (·.default.isNone)).map (·.name)).isEmpty := by
  induction h with
  | nil => rfl
  | @cons p p' _ _ hp _ ih =>
    have hnone : p'.default.isNone = p.default.isNone := by rw [hp.default, Option.isNone_map]
    rw [List.filter_cons, List.filter_cons, hnone]
    split
    · rfl
    · exact ih

theorem checkArguments_recast {params params' : List Param} (function : Name)
    (h : List.Forall₂ (SameParam c) params params') (count : Nat) :
    c.Matches id (checkArguments function params count)
      (checkArguments function params' count) := by
  unfold checkArguments
  dsimp only
  rw [← h.length_eq, missing_recast (List.forall₂_drop count h)]
  refine .ite Iff.rfl (fun _ => .error fun _ => rfl) fun _ => ?_
  refine .ite Iff.rfl (fun _ => .ok) fun _ => .error fun hname => ?_
  rw [params_eq h hname]

theorem deferred_recasts {command command' : Gen Ty} (h : Recasts c id command command') :
    Recasts c id (deferred env command) (deferred (c.env env) command') := by
  unfold deferred
  rw [Recast.globalSize_env]
  refine (lift_recasts (Recast.matches_same _)).andThen fun reach => ?_
  refine (lift_recasts (Recast.matches_same _)).andThen fun globals => ?_
  refine scope_recasts.bind fun s => ?_
  refine (lift_recasts (Recast.fullSize_scope s)).bind fun locals => ?_
  refine (emit_recasts rfl).andThen fun _ => ?_
  refine label_recasts.bind fun resume => ?_
  refine (jump_recasts .jmp resume.handle).andThen fun _ => ?_
  refine h.andThen fun ty => ?_
  refine (sizeOf_recasts ty).andThen fun size => ?_
  have hend : Recasts c id
      (do grow (-size); emit .retn; place resume; report (.deferredCompiled globals locals))
      (do grow (-size); emit .retn; place (c.instruction resume)
          report (.deferredCompiled globals (locals + c.raised))) := by
    refine (grow_recasts _).andThen fun _ => ?_
    refine (emit_recasts rfl).andThen fun _ => ?_
    exact (place_recasts resume).andThen fun _ => report_recasts _ _
  exact .ite Iff.rfl (fun _ => (pop_recasts size).andThen fun _ => hend) fun _ => hend

theorem argument_recasts {p p' : Param} {value value' : Gen Ty} (function : Name) (pushed : Nat)
    (hp : SameParam c p p') (h : Recasts c id value value') :
    Recasts c id (argument env function p pushed value)
      (argument (c.env env) function p' pushed value') := by
  unfold argument
  rw [hp.ty]
  refine .ite Iff.rfl (fun _ => (deferred_recasts h).andThen fun _ => pure_recasts rfl) fun _ => ?_
  refine h.andThen fun actual => ?_
  refine refuse_recasts Iff.rfl (fun hname => ?_) ?_
  · rw [hp.name hname]
  · exact (sizeOf_recasts actual).andThen fun _ => lift_recasts (Recast.matches_same _)

variable {onDefault onDefault' : Expr → Gen Ty}

theorem defaults_recasts {params params' : List Param} (function : Name) (pushed : Nat)
    (hd : ∀ e, Recasts c id (onDefault e) (onDefault' (e.renamed c.name)))
    (h : List.Forall₂ (SameParam c) params params') :
    Recasts c id (defaults env onDefault function pushed params)
      (defaults (c.env env) onDefault' function pushed params') := by
  induction h generalizing pushed with
  | nil => exact pure_recasts rfl
  | @cons p p' params params' hp _ ih =>
    simp only [defaults, hp.default]
    cases p.default with
    | none =>
      refine throw_recasts fun hname => ?_
      rw [hp.name hname]
    | some e => exact (argument_recasts function pushed hp (hd e)).andThen ih

theorem argumentsWith_recasts {params params' : List Param} {args : List Expr} (function : Name)
    (pushed : Nat) (hd : ∀ e, Recasts c id (onDefault e) (onDefault' (e.renamed c.name)))
    (hargs : ∀ a ∈ args, Recasts c id (exprWith env onDefault a)
      (exprWith (c.env env) onDefault' (a.renamed c.name)))
    (h : List.Forall₂ (SameParam c) params params') :
    Recasts c id (argumentsWith env onDefault function pushed params args)
      (argumentsWith (c.env env) onDefault' function pushed params'
        (args.map (·.renamed c.name))) := by
  induction args generalizing pushed params params' with
  | nil =>
    simp only [List.map_nil, argumentsWith]
    exact defaults_recasts function pushed hd h
  | cons a args ih =>
    rw [List.map_cons]
    cases h with
    | nil =>
      simp only [argumentsWith]
      exact pure_recasts rfl
    | cons hp hrest =>
      simp only [argumentsWith]
      refine (argument_recasts function pushed hp (hargs a (.head _))).andThen fun pushed => ?_
      exact ih pushed (fun a ha => hargs a (.tail _ ha)) hrest

theorem callFunction_recasts {arguments arguments' : Gen Nat} (f : Function)
    (h : Recasts c id arguments arguments') :
    Recasts c id (callFunction env f arguments)
      (callFunction (c.env env) (c.function f) arguments') := by
  unfold callFunction
  refine reserve_recasts f.signature.returnType ?_
  refine (sizeOf_recasts _).andThen fun size => ?_
  refine (grow_recasts _).andThen fun _ => ?_
  refine h.andThen fun taken => ?_
  refine (grow_recasts _).andThen fun _ => ?_
  exact (jump_recasts .jsr f.entry).andThen fun _ => pure_recasts rfl

theorem callRoutine_recasts {arguments arguments' : Gen Nat} (index : Nat) (routine : Signature)
    (h : Recasts c id arguments arguments') :
    Recasts c id (callRoutine env index routine arguments)
      (callRoutine (c.env env) index routine arguments') := by
  unfold callRoutine
  refine h.andThen fun taken => ?_
  refine (grow_recasts _).andThen fun _ => ?_
  refine .ite Iff.rfl (fun _ => ?_) fun _ => throw_bind_recasts (Recast.sameError_refl _)
  refine .ite Iff.rfl (fun _ => ?_) fun _ => throw_bind_recasts (Recast.sameError_refl _)
  refine (emit_recasts rfl).andThen fun _ => ?_
  refine (sizeOf_recasts _).andThen fun size => ?_
  exact (grow_recasts _).andThen fun _ => pure_recasts rfl

theorem call_recasts {name : Name} {args : List Expr} (hengine : c.Respects env.engine)
    (hd : ∀ e, Recasts c id (onDefault e) (onDefault' (e.renamed c.name)))
    (hargs : ∀ a ∈ args, Recasts c id (exprWith env onDefault a)
      (exprWith (c.env env) onDefault' (a.renamed c.name))) :
    Recasts c id (exprWith env onDefault (.call name args))
      (exprWith (c.env env) onDefault' (.call name (args.map (·.renamed c.name)))) := by
  simp only [exprWith]
  rw [show (c.env env).functions = c.functions env.functions from rfl, Recast.find?_functions,
    List.length_map]
  cases env.functions.find? name with
  | some f =>
    have hparams : List.Forall₂ (SameParam c) f.signature.params
        (c.function f).signature.params :=
      List.forall₂_map_right_iff.mpr (List.forall₂_same.mpr fun p _ => sameParam_renamed p)
    refine (markCalled_recasts name).andThen fun _ => ?_
    refine (lift_recasts (checkArguments_recast name hparams args.length)).andThen fun _ => ?_
    exact callFunction_recasts f (argumentsWith_recasts name 0 hd hargs hparams)
  | none =>
    rw [show (c.env env).engine = env.engine from rfl]
    simp only [Option.map_none]
    cases hr : env.engine.routine? name with
    | none => exact mistake_recasts fun _ => rfl
    | some r =>
      obtain ⟨index, routine⟩ := r
      have hmem := List.mem_of_getElem? (Engine.routine_at hr)
      have hparams : List.Forall₂ (SameParam c) routine.params routine.params :=
        List.forall₂_same.mpr fun p hp =>
          ⟨rfl, (hengine.default routine hmem p hp).symm, fun _ => rfl⟩
      refine (lift_recasts (checkArguments_recast name hparams args.length)).andThen fun _ => ?_
      exact callRoutine_recasts index routine (argumentsWith_recasts name 0 hd hargs hparams)

theorem component_recasts (axis : Name) (ty : Ty) :
    Recasts c id (exprWith.component axis ty) (exprWith.component axis ty) :=
  .ite Iff.rfl (fun _ => mistake_recasts fun _ => rfl) fun _ => pure_recasts rfl

/-- Code for an expression is the same code recast. -/
theorem exprWith_recasts (hengine : c.Respects env.engine)
    (hd : ∀ e, Recasts c id (onDefault e) (onDefault' (e.renamed c.name))) (e : Expr) :
    Recasts c id (exprWith env onDefault e)
      (exprWith (c.env env) onDefault' (e.renamed c.name)) := by
  induction e using Expr.inductOn with
  | literal v =>
    simp only [Expr.renamed, exprWith]
    exact literal_recasts v v.ty
  | vector x y z hx hy hz =>
    simp only [Expr.renamed, exprWith]
    refine hx.andThen fun ty => (component_recasts "x" ty).andThen fun _ => ?_
    refine hy.andThen fun ty => (component_recasts "y" ty).andThen fun _ => ?_
    refine hz.andThen fun ty => (component_recasts "z" ty).andThen fun _ => ?_
    exact pure_recasts rfl
  | access path =>
    simp only [Expr.renamed, exprWith]
    exact access_recasts hengine path
  | assign op target e he =>
    simp only [Expr.renamed, exprWith]
    split
    · exact he.andThen fun actual => assign_recasts target actual
    · refine (loadTarget_recasts target).andThen fun ty => ?_
      exact he.andThen fun actual => combine_recasts op _ target ty actual
  | binary op l r hl hr =>
    simp only [Expr.renamed, exprWith]
    exact hl.andThen fun left => hr.andThen fun right => binary_recasts op left right
  | unary op e he =>
    simp only [Expr.renamed, exprWith]
    exact he.andThen fun ty => unary_recasts op ty
  | step op fix target =>
    simp only [Expr.renamed, exprWith]
    exact step_recasts op fix target
  | call name args hargs =>
    simp only [Expr.renamed, Expr.renamedAll_eq]
    exact call_recasts hengine hd hargs

theorem defaultExpr_recasts (hengine : c.Respects env.engine) (depth : Nat) (e : Expr) :
    Recasts c id (defaultExpr env depth e) (defaultExpr (c.env env) depth (e.renamed c.name)) := by
  induction depth generalizing e with
  | zero => exact throw_recasts (Recast.sameError_refl _)
  | succ depth ih => exact exprWith_recasts hengine ih e

theorem defaultValues_env : (c.env env).defaultValues.length = env.defaultValues.length := by
  have hparams (ps : List Param) : ((ps.map (·.renamed c.name)).filterMap (·.default)).length =
      (ps.filterMap (·.default)).length := by
    induction ps with
    | nil => rfl
    | cons p rest ih =>
      rw [List.map_cons, List.filterMap_cons, List.filterMap_cons]
      obtain ⟨_, _, default⟩ := p
      cases default with
      | none => exact ih
      | some e => exact congrArg (· + 1) ih
  simp only [Env.defaultValues, Recast.env, Recast.functions, Functions.all, List.flatMap_append,
    List.length_append, List.map_map, List.length_flatMap, Function.comp_def, Recast.entry,
    Recast.function, Signature.renamed, hparams]

theorem expr_recasts (hengine : c.Respects env.engine) (e : Expr) :
    Recasts c id (expr env e) (expr (c.env env) (e.renamed c.name)) := by
  unfold expr
  rw [defaultValues_env]
  exact exprWith_recasts hengine (defaultExpr_recasts hengine _) e

end Calls

end Codegen

end NwScript
