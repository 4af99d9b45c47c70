-- Whom a snapshot goes to. The machine hands it to the next engine routine that is called. That is
-- the routine whose argument the deferred command is, unless the arguments behind the command call
-- something themselves.
import NwScript.Proofs.Machine.Paths
import NwScript.Proofs.Program.Snapshots

namespace NwScript

/-! ## What is called on the way -/

/-- The expressions that an expression is made of, but for the arguments of calls. -/
def Expr.operands : Expr → List Expr
  | .vector x y z => [x, y, z]
  | .assign _ _ e | .unary _ e => [e]
  | .binary _ l r => [l, r]
  | .literal _ | .access _ | .step _ _ _ | .call _ _ => []

/-- The parameters of what a call of the name calls. -/
def Env.params? (env : Env) (name : Name) : Option (List Param) :=
  match env.functions.find? name with
  | some f => some f.signature.params
  | none => (env.engine.routine? name).map (·.2.params)

namespace Codegen

/-- What is called when the phrase is evaluated, also for arguments that are left out. What a
deferred command calls is called later. -/
inductive Invokes (env : Env) : Phrase → Name → Prop
  | call {name : Name} {args : List Expr} : Invokes env (.value (.call name args)) name
  | within {name x : Name} {args : List Expr} {params : List Param}
      {bound : List (Param × Expr)} :
      env.params? name = some params → bind? params args = some bound →
      Invokes env (.arguments bound) x → Invokes env (.value (.call name args)) x
  | operand {e part : Expr} {x : Name} :
      part ∈ e.operands → Invokes env (.value part) x → Invokes env (.value e) x
  | argument {p : Param} {e : Expr} {bound : List (Param × Expr)} {x : Name} :
      p.ty ≠ .action → Invokes env (.value e) x → Invokes env (.arguments ((p, e) :: bound)) x
  | later {b : Param × Expr} {bound : List (Param × Expr)} {x : Name} :
      Invokes env (.arguments bound) x → Invokes env (.arguments (b :: bound)) x

/-- All that the phrase calls are script functions that call no routine. -/
def Hushes (env : Env) (stream : Stream) (phrase : Phrase) : Prop :=
  ∀ name, Invokes env phrase name →
    ∃ f, env.functions.find? name = some f ∧ stream.Hushed f.entry

section Hushes

variable {env : Env} {stream : Stream} {e : Expr} {p : Param} {bound : List (Param × Expr)}
  {name : Name} {args : List Expr}

theorem params?_function {f : Function} (hf : env.functions.find? name = some f) :
    env.params? name = some f.signature.params := by
  simp only [Env.params?, hf]

theorem params?_routine {index : Nat} {routine : Signature} (hf : env.functions.find? name = none)
    (hr : env.engine.routine? name = some (index, routine)) :
    env.params? name = some routine.params := by
  simp only [Env.params?, hf, hr, Option.map_some]

theorem hushes_operands (h : ∀ name args, e ≠ .call name args) :
    Hushes env stream (.value e) ↔ ∀ part ∈ e.operands, Hushes env stream (.value part) := by
  constructor
  · intro hall part hpart x hx
    exact hall x (.operand hpart hx)
  · intro hall x hx
    cases hx with
    | call => exact absurd rfl (h _ _)
    | within => exact absurd rfl (h _ _)
    | operand hpart hx => exact hall _ hpart x hx

theorem hushes_nil : Hushes env stream (.arguments []) ↔ True := by
  refine iff_true_intro ?_
  intro x hx
  cases hx

theorem hushes_pushed (hp : p.ty ≠ .action) : Hushes env stream (.arguments ((p, e) :: bound)) ↔
    Hushes env stream (.value e) ∧ Hushes env stream (.arguments bound) := by
  constructor
  · intro h
    exact ⟨fun x hx => h x (.argument hp hx), fun x hx => h x (.later hx)⟩
  · rintro ⟨he, hbound⟩ x hx
    cases hx with
    | argument _ hx => exact he x hx
    | later hx => exact hbound x hx

theorem hushes_deferred (hp : p.ty = .action) : Hushes env stream (.arguments ((p, e) :: bound)) ↔
    Hushes env stream (.arguments bound) := by
  constructor
  · intro h x hx
    exact h x (.later hx)
  · intro h x hx
    cases hx with
    | argument hne => exact absurd hp hne
    | later hx => exact h x hx

theorem hushes_call {params : List Param} (hparams : env.params? name = some params)
    (hbound : bind? params args = some bound) : Hushes env stream (.value (.call name args)) ↔
    Hushes env stream (.arguments bound) ∧
      ∃ f, env.functions.find? name = some f ∧ stream.Hushed f.entry := by
  constructor
  · intro h
    exact ⟨fun x hx => h x (.within hparams hbound hx), h name .call⟩
  · rintro ⟨hargs, hname⟩ x hx
    cases hx with
    | call => exact hname
    | within hparams' hbound' hx =>
      cases hparams.symm.trans hparams'
      cases hbound.symm.trans hbound'
      exact hargs x hx
    | operand hpart => cases hpart

end Hushes

/-! ## Walking through the code of a phrase -/

section Walks

variable {env : Env} {stream : Stream} {pc : Nat} {n m : Handle} {code more : List Instruction}
  {i : Instruction} {P Q : Prop}

theorem walks_join (hs : stream.Stands pc (code ++ more)) (h : stream.Walks pc code.length P)
    (h' : stream.Stands (pc + code.length) more → stream.Walks (pc + code.length) more.length Q) :
    stream.Walks pc (code ++ more).length (P ∧ Q) := by
  rw [List.length_append]
  exact h.append (h' hs.right)

/-- Single instructions that only go on make no difference. -/
theorem walks_before (hs : stream.Stands pc (i :: code)) (hop : i.op.goesOn = true)
    (h : stream.Walks (pc + 1) code.length P) : stream.Walks pc (i :: code).length P := by
  have hwalk := (Stream.walks_next hs.get hop).append h
  rw [Nat.add_comm 1] at hwalk
  exact hwalk.congr (by simp)

theorem walks_behind (hs : stream.Stands pc (code ++ more)) (h : stream.Walks pc code.length P)
    (hmore : ∀ i ∈ more, i.op.goesOn = true) : stream.Walks pc (code ++ more).length P :=
  (walks_join hs h fun hs' => Stream.walks_plain hs' hmore).congr (by simp)

theorem forall_numbered {test : Op → Bool} {b : Bool} {ops : List Op}
    (h : ∀ op ∈ ops, test op = b) : ∀ i ∈ numbered n ops, test i.op = b :=
  fun _ hi => h _ (numbered_op hi)

theorem pushing_goesOn {v : Value} : ∀ i ∈ numbered n (Op.pushing v), i.op.goesOn = true := by
  apply forall_numbered
  cases v <;> simp [Op.pushing, Op.goesOn]

theorem reserving_goesOn {ks : List SlotKind} :
    ∀ i ∈ numbered n (ks.map .reserve), i.op.goesOn = true := by
  apply forall_numbered
  simp [Op.goesOn]

theorem composite_goesOn {op : BinaryOp} {left right : Ty} {k : Nat} {c : Op}
    (h : op.composite? left right k = some c) : c.goesOn = true := by
  rcases composite_cases h with rfl | rfl <;> rfl

/-- Behind a deferred command control goes on at the instruction that the jump over it leads to. -/
theorem resumes_at {first jump retn : Instruction} {land : Handle}
    {command rest : List Instruction} (hn : (stream.code.map (·.handle)).Nodup)
    (hs : stream.Stands pc (first :: jump :: (command ++ retn :: ⟨land, .nop, none⟩ :: rest))) :
    stream.indexOf? land = some (pc + command.length + 3) ∧
      stream.Stands (pc + command.length + 3) (⟨land, .nop, none⟩ :: rest) := by
  have hland := hs.tail.tail.right.tail
  rw [show pc + 1 + 1 + command.length + 1 = pc + command.length + 3 by omega] at hland
  exact ⟨hland.index hn, hland⟩

theorem walks_deferred {store jump retn : Instruction} {land : Handle}
    {command rest : List Instruction} (hn : (stream.code.map (·.handle)).Nodup)
    (hs : stream.Stands pc (store :: jump :: (command ++ retn :: ⟨land, .nop, none⟩ :: rest)))
    (hstore : store.op.goesOn = true) (hjump : jump.op = .jump .jmp)
    (htarget : jump.target = some land)
    (h : stream.Stands (pc + command.length + 4) rest →
      stream.Walks (pc + command.length + 4) rest.length P) :
    stream.Walks pc
      (store :: jump :: (command ++ retn :: ⟨land, .nop, none⟩ :: rest)).length P := by
  obtain ⟨hindex, hland⟩ := resumes_at hn hs
  have hlanding : stream.landing? jump = some (pc + command.length + 3) := by
    simp [Stream.landing?, htarget, hindex]
  refine walks_before hs hstore ?_
  have hskip := Stream.walks_jmp hs.tail.get hjump hlanding (by omega)
  have hrest := walks_before hland rfl (h hland.tail)
  rw [show pc + command.length + 3 = pc + 1 + (command.length + 2) by omega] at hskip hrest
  rw [Nat.add_sub_cancel_left] at hskip
  have hsize : (jump :: (command ++ retn :: ⟨land, .nop, none⟩ :: rest)).length =
      command.length + 2 + (Instruction.mk land .nop none :: rest).length := by
    simp
    omega
  rw [hsize]
  exact (hskip.append hrest).congr (by simp)

/-- Control passes the code of a phrase if what it calls is hushed, and otherwise comes to the first
call that is not. -/
theorem emits_walks {s : Scope} {phrase : Phrase} {tys : List Ty}
    (h : Emits env s n phrase tys code m) (hn : (stream.code.map (·.handle)).Nodup)
    (hs : stream.Stands pc code) :
    stream.Walks pc code.length (Hushes env stream phrase) := by
  have hparts {e : Expr} {P : Prop} (hcall : ∀ name args, e ≠ .call name args)
      (hP : P ↔ ∀ part ∈ e.operands, Hushes env stream (.value part)) :
      P ↔ Hushes env stream (.value e) := hP.trans (hushes_operands hcall).symm
  induction h generalizing pc with
  | literal | constant =>
    exact (Stream.walks_plain hs pushing_goesOn).congr
      (hparts (by simp) (by simp [Expr.operands]))
  | vector _ _ _ ihx ihy ihz =>
    exact (walks_join hs (walks_join hs.left (ihx hs.left.left) ihy) ihz).congr
      (hparts (by simp) (by simp [Expr.operands, and_assoc]))
  | access | stepPre | stepPost =>
    exact (Stream.walks_plain hs (by simp [Op.goesOn, Resolved.load])).congr
      (hparts (by simp) (by simp [Expr.operands]))
  | assign _ _ _ _ _ ih =>
    exact (walks_behind hs (ih hs.left) (by simp [Op.goesOn, Resolved.store])).congr
      (hparts (by simp) (by simp [Expr.operands]))
  | combine _ _ _ _ _ _ _ _ _ ih =>
    exact (walks_before hs rfl (walks_behind hs.tail (ih hs.tail.left)
      (by simp [Op.goesOn, Resolved.store]))).congr
      (hparts (by simp) (by simp [Expr.operands]))
  | composite _ _ _ _ hc ihl ihr =>
    exact (walks_behind hs (walks_join hs.left (ihl hs.left.left) ihr)
      (by simp [composite_goesOn hc])).congr
      (hparts (by simp) (by simp [Expr.operands]))
  | binary _ _ _ _ _ _ _ ihl ihr =>
    exact (walks_behind hs (walks_join hs.left (ihl hs.left.left) ihr)
      (by simp [Op.goesOn])).congr
      (hparts (by simp) (by simp [Expr.operands]))
  | unary _ _ ih =>
    exact (walks_behind hs (ih hs.left) (by simp [Op.goesOn])).congr
      (hparts (by simp) (by simp [Expr.operands]))
  | callFunction hf hbound _ _ _ ih =>
    have hargs := walks_join hs.left (Stream.walks_plain hs.left.left reserving_goesOn) ih
    refine (walks_join hs hargs fun hs' => Stream.walks_call hs'.get rfl rfl).congr ?_
    rw [hushes_call (params?_function hf) hbound]
    simp [hf]
  | callRoutine hf hr hbound _ _ _ _ ih =>
    refine (walks_join hs (ih hs.left) fun hs' =>
      Stream.walks_action ⟨_, _, _, hs'.get, rfl⟩).congr ?_
    rw [hushes_call (params?_routine hf hr) hbound]
    simp [hf]
  | noArguments => exact Stream.walks_nil.congr hushes_nil.symm
  | pushed hp _ _ _ ihv ihr =>
    exact (walks_join hs (ihv hs.left) ihr).congr (hushes_pushed hp).symm
  | deferred hp _ _ _ _ _ _ ihr =>
    exact (walks_deferred hn hs rfl rfl rfl ihr).congr (hushes_deferred hp).symm

end Walks

end Codegen

/-! ## Snapshots and the calls that they belong to -/

open Codegen

/-- The snapshot at `k` is followed by the command `e` and a jump over it, to `resume`. From there
on, up to `stop`, the arguments `later` are pushed. -/
structure Stream.Postpones (stream : Stream) (env : Env) (k resume stop : Nat) (e : Expr)
    (later : List (Param × Expr)) : Prop where
  jump : ∃ i, stream.code[k + 1]? = some i ∧ i.op = .jump .jmp ∧ stream.landing? i = some resume
  command : ∃ s n ty code m, Emits env s n (.value e) [ty] code m ∧ stream.Stands (k + 2) code ∧
    k + 2 + code.length < resume
  land : ∃ i, stream.code[resume]? = some i ∧ i.op = .nop
  rest : ∃ s n tys code m, Emits env s n (.arguments later) tys code m ∧
    stream.Stands (resume + 1) code ∧ resume + 1 + code.length = stop

/-- The snapshot at `k` is that of an action argument of a routine. The code of the whole call
stands around it and ends with the call of the routine itself, at `own`. -/
structure Stream.Hands (stream : Stream) (env : Env) (k resume own : Nat)
    (later : List (Param × Expr)) : Prop where
  call : ∃ name args index routine earlier p e, env.functions.find? name = none ∧
    env.engine.routine? name = some (index, routine) ∧
    bind? routine.params args = some (earlier ++ (p, e) :: later) ∧ p.ty = .action ∧
    stream.Postpones env k resume own e later ∧
    (∃ i, stream.code[own]? = some i ∧
      i.op = .action index.toUInt16 routine.params.length.toUInt8) ∧
    ∃ s n ty code m first, Emits env s n (.value (.call name args)) [ty] code m ∧
      stream.Stands first code ∧ first ≤ k ∧ first + code.length = own + 1

/-- No script function takes an action. -/
def Env.Actionless (env : Env) : Prop :=
  ∀ name f, env.functions.find? name = some f → ∀ p ∈ f.signature.params, p.ty ≠ .action

/-- Every snapshot of the code, which stands at `pc`, is as wanted. -/
def Stream.Snaps (stream : Stream) (wanted : Nat → Prop) (pc : Nat) (code : List Instruction) :
    Prop :=
  ∀ k i, pc ≤ k → k < pc + code.length → stream.code[k]? = some i → i.op.snapshots = true →
    wanted k

/-- What is known of a snapshot in the code of a phrase that ends at `stop`. Among the arguments of
a call, the call itself is still to come. -/
def Stream.Settles (stream : Stream) (env : Env) (stop : Nat) : Phrase → Nat → Prop
  | .value _, k => ∃ resume own later, stream.Hands env k resume own later
  | .arguments bound, k => (∃ resume own later, stream.Hands env k resume own later) ∨
    ∃ earlier p e later resume, bound = earlier ++ (p, e) :: later ∧ p.ty = .action ∧
      stream.Postpones env k resume stop e later

section Snaps

variable {env : Env} {stream : Stream} {wanted : Nat → Prop} {pc stop : Nat} {n m : Handle}
  {code more : List Instruction} {i : Instruction}

theorem Stream.Snaps.mono {wanted' : Nat → Prop} (h : stream.Snaps wanted pc code)
    (hmono : ∀ k, wanted k → wanted' k) : stream.Snaps wanted' pc code :=
  fun k i hlow hhigh hi hop => hmono k (h k i hlow hhigh hi hop)

theorem Stream.Snaps.append (h : stream.Snaps wanted pc code)
    (h' : stream.Snaps wanted (pc + code.length) more) :
    stream.Snaps wanted pc (code ++ more) := by
  intro k i hlow hhigh hi hop
  rw [List.length_append] at hhigh
  by_cases hk : k < pc + code.length
  · exact h k i hlow hk hi hop
  · exact h' k i (by omega) (by omega) hi hop

theorem snaps_nil : stream.Snaps wanted pc [] := by
  intro k i hlow hhigh
  simp only [List.length_nil] at hhigh
  omega

theorem snaps_cons (h : wanted pc) (hrest : stream.Snaps wanted (pc + 1) code) :
    stream.Snaps wanted pc (i :: code) := by
  intro k j hlow hhigh hj hop
  by_cases hk : k = pc
  · exact hk ▸ h
  · rw [List.length_cons] at hhigh
    exact hrest k j (by omega) (by omega) hj hop

/-- An instruction that takes no snapshot. -/
theorem snaps_before (hs : stream.Stands pc (i :: code)) (hi : i.op.snapshots = false)
    (h : stream.Snaps wanted (pc + 1) code) : stream.Snaps wanted pc (i :: code) := by
  intro k j hlow hhigh hj hop
  by_cases hk : k = pc
  · subst hk
    cases hs.get.symm.trans hj
    rw [hi] at hop
    cases hop
  · rw [List.length_cons] at hhigh
    exact h k j (by omega) (by omega) hj hop

theorem snaps_plain (hs : stream.Stands pc code) (h : ∀ i ∈ code, i.op.snapshots = false) :
    stream.Snaps wanted pc code := by
  induction code generalizing pc with
  | nil => exact snaps_nil
  | cons i rest ih =>
    rw [List.forall_mem_cons] at h
    exact snaps_before hs h.1 (ih hs.tail h.2)

theorem snaps_behind (hs : stream.Stands pc (code ++ more)) (h : stream.Snaps wanted pc code)
    (hmore : ∀ i ∈ more, i.op.snapshots = false) : stream.Snaps wanted pc (code ++ more) :=
  h.append (snaps_plain hs.right hmore)

theorem pushing_plain {v : Value} :
    ∀ i ∈ numbered n (Op.pushing v), i.op.snapshots = false := by
  apply forall_numbered
  cases v <;> simp [Op.pushing, Op.snapshots]

theorem reserving_plain {ks : List SlotKind} :
    ∀ i ∈ numbered n (ks.map .reserve), i.op.snapshots = false := by
  apply forall_numbered
  simp [Op.snapshots]

theorem popping_plain {k : Nat} : ∀ i ∈ popping n k, i.op.snapshots = false := by
  unfold popping
  split <;> simp [Op.snapshots]

theorem returning_plain {height : Int} {k : Nat} :
    ∀ i ∈ returning n height k, i.op.snapshots = false := by
  unfold returning
  split <;> simp [Op.snapshots]

/-- The arguments of a call of a routine are followed by the call, so all snapshots in them have
found theirs. -/
theorem Stream.Settles.called {s : Scope} {name : Name} {args : List Expr} {index : Nat}
    {routine : Signature} {bound : List (Param × Expr)} {ty : Ty} {k : Nat}
    (hf : env.functions.find? name = none)
    (hr : env.engine.routine? name = some (index, routine))
    (hb : bind? routine.params args = some bound)
    (hcall : Emits env s n (.value (.call name args)) [ty] code m) (hs : stream.Stands pc code)
    (hlow : pc ≤ k) (hstop : pc + code.length = stop + 1)
    (hi : stream.code[stop]? = some i)
    (hop : i.op = .action index.toUInt16 routine.params.length.toUInt8)
    (h : stream.Settles env stop (.arguments bound) k) :
    ∃ resume own later, stream.Hands env k resume own later := by
  rcases h with hdone | ⟨earlier, p, e, later, resume, rfl, hp, hpostpones⟩
  · exact hdone
  · exact ⟨resume, stop, later, name, args, index, routine, earlier, p, e, hf, hr, hb, hp,
      hpostpones, ⟨i, hi, hop⟩, s, n, ty, code, m, pc, hcall, hs, hlow, hstop⟩

/-- No snapshot is taken for an argument of a script function. -/
theorem Stream.Settles.passed {name : Name} {args : List Expr} {f : Function}
    {bound : List (Param × Expr)} {k : Nat} (hplain : env.Actionless)
    (hf : env.functions.find? name = some f) (hb : bind? f.signature.params args = some bound)
    (h : stream.Settles env stop (.arguments bound) k) :
    ∃ resume own later, stream.Hands env k resume own later := by
  rcases h with hdone | ⟨earlier, p, e, later, resume, rfl, hp, _⟩
  · exact hdone
  · have hmem : p ∈ f.signature.params := by simp [← bind?_params hb]
    exact absurd hp (hplain name f hf p hmem)

theorem Stream.Settles.earlier {b : Param × Expr} {bound : List (Param × Expr)} {k : Nat}
    (h : stream.Settles env stop (.arguments bound) k) :
    stream.Settles env stop (.arguments (b :: bound)) k := by
  rcases h with hdone | ⟨earlier, p, e, later, resume, rfl, hp, hpostpones⟩
  · exact .inl hdone
  · exact .inr ⟨b :: earlier, p, e, later, resume, rfl, hp, hpostpones⟩

/-- Every snapshot in the code of a phrase belongs to an argument of a routine. -/
theorem emits_settles {s : Scope} {phrase : Phrase} {tys : List Ty}
    (h : Emits env s n phrase tys code m) (hplain : env.Actionless)
    (hn : (stream.code.map (·.handle)).Nodup) (hs : stream.Stands pc code)
    (hstop : pc + code.length = stop) :
    stream.Snaps (stream.Settles env stop phrase) pc code := by
  induction h generalizing pc stop with
  | literal | constant => exact snaps_plain hs pushing_plain
  | vector _ _ _ ihx ihy ihz =>
    exact ((ihx hs.left.left rfl).append (ihy hs.left.right rfl)).append (ihz hs.right rfl)
  | access => exact snaps_plain hs (by simp [Op.snapshots, Resolved.load])
  | stepPre | stepPost => exact snaps_plain hs (by simp [Op.snapshots, Resolved.load])
  | assign _ _ _ _ _ ih =>
    exact snaps_behind hs (ih hs.left rfl) (by simp [Op.snapshots, Resolved.store])
  | combine _ _ _ _ _ _ _ _ _ ih =>
    exact snaps_before hs rfl (snaps_behind hs.tail (ih hs.tail.left rfl)
      (by simp [Op.snapshots, Resolved.store]))
  | composite _ _ _ _ hc ihl ihr =>
    exact snaps_behind hs ((ihl hs.left.left rfl).append (ihr hs.left.right rfl))
      (by simp [composite_not_snapshot hc])
  | binary _ _ _ _ _ _ _ ihl ihr =>
    exact snaps_behind hs ((ihl hs.left.left rfl).append (ihr hs.left.right rfl))
      (by simp [Op.snapshots])
  | unary _ _ ih => exact snaps_behind hs (ih hs.left rfl) (by simp [Op.snapshots])
  | callFunction hf hb _ _ _ ih =>
    have hargs := (ih hs.left.right rfl).mono fun _ h => h.passed hplain hf hb
    exact snaps_behind hs ((snaps_plain hs.left.left reserving_plain).append hargs)
      (by simp [Op.snapshots])
  | callRoutine hf hr hb hargs hindex hcount hk ih =>
    have hcall := Emits.callRoutine hf hr hb hargs hindex hcount hk
    refine snaps_behind hs ?_ (by simp [Op.snapshots])
    intro k i hlow hhigh hi hop
    have hsettles := ih hs.left rfl k i hlow hhigh hi hop
    exact hsettles.called hf hr hb hcall hs hlow (by simp [Nat.add_assoc]) hs.right.get rfl
  | noArguments => exact snaps_nil
  | pushed _ _ _ _ ihv ihr =>
    rw [List.length_append, ← Nat.add_assoc] at hstop
    exact ((ihv hs.left rfl).mono fun _ => .inl).append
      ((ihr hs.right hstop).mono fun _ h => h.earlier)
  | @deferred s n n₁ m p e bound _ _ ty k _ code rest hp _ _ hcommand _ hrest ihc ihr =>
    obtain ⟨hindex, hland⟩ := resumes_at hn hs
    have hbody := hs.tail.tail
    have hbehind := hbody.right.tail.tail
    have hend : pc + (code ++ popping n₁ k).length + 3 + 1 + rest.length = stop := by
      simp only [List.length_cons, List.length_append] at hstop ⊢
      omega
    have hpostpones : stream.Postpones env pc (pc + (code ++ popping n₁ k).length + 3) stop e
        bound := by
      refine ⟨⟨_, hs.tail.get, rfl, by simpa [Stream.landing?] using hindex⟩,
        ⟨s, _, ty, code, n₁, hcommand, hbody.left.left, ?_⟩, ⟨_, hland.get, rfl⟩,
        ⟨s, _, _, rest, m, hrest, hland.tail, hend⟩⟩
      simp only [List.length_append]
      omega
    refine snaps_cons (.inr ⟨[], p, e, bound, _, rfl, hp, hpostpones⟩)
      (snaps_before hs.tail rfl ?_)
    refine (snaps_behind hbody.left ((ihc hbody.left.left rfl).mono fun _ => .inl)
      popping_plain).append (snaps_before hbody.right rfl (snaps_before hbody.right.tail rfl ?_))
    refine (ihr hbehind ?_).mono fun _ h => h.earlier
    omega

/-- On the way from behind the command, the routine of the snapshot is the first one that is called
just if what the later arguments call is hushed. -/
theorem Stream.Hands.first_iff {k resume own : Nat} {later : List (Param × Expr)}
    (h : stream.Hands env k resume own later) (hn : (stream.code.map (·.handle)).Nodup)
    (rs : List Nat) :
    stream.First ⟨resume, rs⟩ ⟨own, rs⟩ ↔ Hushes env stream (.arguments later) := by
  obtain ⟨_, _, _, _, _, _, _, _, _, _, _, hpostpones, ⟨call, hcall, hop⟩, _⟩ := h.call
  obtain ⟨land, hland, hnop⟩ := hpostpones.land
  obtain ⟨_, _, _, code, _, hemits, hstands, rfl⟩ := hpostpones.rest
  have hresume : stream.Walks resume 1 True := Stream.walks_next hland (by rw [hnop]; rfl)
  have hwalk := hresume.append (emits_walks hemits hn hstands)
  have hacts : stream.Acts (resume + (1 + code.length)) := by
    rw [← Nat.add_assoc]
    exact ⟨call, _, _, hcall, hop⟩
  have hfirst := @Stream.Walks.first_iff _ _ rs _ _ hwalk hacts
  rw [← Nat.add_assoc] at hfirst
  exact hfirst.trans (by simp)

end Snaps

/-! ## Statements -/

/-- Code of expressions, with single instructions between that take no snapshot. The expressions
were compiled in environments that are known. -/
inductive Woven (known : Env → Prop) : List Instruction → Prop
  | nil : Woven known []
  | plain {i : Instruction} {rest : List Instruction} :
      i.op.snapshots = false → Woven known rest → Woven known (i :: rest)
  | value {env : Env} {s : Scope} {n m : Handle} {e : Expr} {ty : Ty}
      {code rest : List Instruction} :
      known env → Emits env s n (.value e) [ty] code m → Woven known rest →
      Woven known (code ++ rest)

section Woven

variable {known : Env → Prop} {env : Env} {s s' : Scope} {n m : Handle}
  {code more : List Instruction} {stream : Stream} {pc : Nat}

theorem Woven.append (h : Woven known code) (h' : Woven known more) :
    Woven known (code ++ more) := by
  induction h with
  | nil => exact h'
  | plain hi _ ih => exact .plain hi ih
  | value he hemits _ ih =>
    rw [List.append_assoc]
    exact .value he hemits ih

theorem woven_plain (h : ∀ i ∈ code, i.op.snapshots = false) : Woven known code := by
  induction code with
  | nil => exact .nil
  | cons i rest ih =>
    rw [List.forall_mem_cons] at h
    exact .plain h.1 (ih h.2)

theorem emits_woven {e : Expr} {ty : Ty} (he : known env)
    (h : Emits env s n (.value e) [ty] code m) : Woven known code := by
  rw [← List.append_nil code]
  exact .value he h .nil

theorem woven_flatMap {α : Type} {xs : List α} {f : α → List Instruction}
    (h : ∀ x ∈ xs, Woven known (f x)) : Woven known (xs.flatMap f) := by
  induction xs with
  | nil => exact .nil
  | cons x xs ih =>
    rw [List.forall_mem_cons] at h
    rw [List.flatMap_cons]
    exact h.1.append (ih h.2)

theorem discards_woven {e : Option Expr} (he : known env) (h : Discards env s n e code m) :
    Woven known code := by
  cases h with
  | none => exact .nil
  | some hvalue _ => exact (emits_woven he hvalue).append (woven_plain popping_plain)

theorem guards_woven {e : Option Expr} {done : Handle} (he : known env)
    (h : Guards env s done n e code m) : Woven known code := by
  cases h with
  | none => exact .nil
  | some hvalue => exact (emits_woven he hvalue).append (.plain rfl .nil)

theorem declares_woven {ty : Ty} {ds : List Declarator} (he : known env)
    (h : Declares env ty s n ds s' code m) : Woven known code := by
  induction h with
  | nil => exact .nil
  | plain _ _ _ _ ih => exact (woven_plain reserving_plain).append ih
  | initialized _ _ _ hvalue _ _ ih =>
    exact (((woven_plain reserving_plain).append (emits_woven he hvalue)).append
      (.plain rfl (.plain rfl .nil))).append ih

theorem tests_woven {ty : Ty} {c : BinaryCode} {labels : List (SwitchLabel × Handle)}
    {default default' : Option Handle} (he : known env)
    (h : Tests env s ty c n labels default default' code m) : Woven known code := by
  induction h with
  | nil => exact .nil
  | case hvalue _ ih =>
    exact .plain rfl (((emits_woven he hvalue).append (.plain rfl (.plain rfl .nil))).append ih)
  | default _ ih => exact ih

theorem lays_woven {frame : Frame} {piece : Piece} {flow : Flow} (he : known env)
    (h : Lays env frame s n piece s' flow code m) : Woven known code := by
  induction h with
  | expr hd => exact discards_woven he hd
  | declare hd => exact declares_woven he hd
  | block _ ih | blockReturned _ ih | armReturned _ ih => exact ih
  | ifThen hvalue _ ih =>
    exact (emits_woven he hvalue).append (.plain rfl (ih.append (.plain rfl .nil)))
  | ifElse hvalue _ _ ih₁ ih₂ =>
    exact (emits_woven he hvalue).append (.plain rfl (ih₁.append
      (.plain rfl (.plain rfl (ih₂.append (.plain rfl .nil))))))
  | whileLoop hvalue _ ih =>
    exact .plain rfl ((emits_woven he hvalue).append
      (.plain rfl (ih.append (.plain rfl (.plain rfl .nil)))))
  | doWhile _ hvalue ih =>
    exact .plain rfl (ih.append
      (.plain rfl ((emits_woven he hvalue).append (.plain rfl (.plain rfl .nil)))))
  | forLoop hfirst hguard _ hlast ih =>
    exact (discards_woven he hfirst).append (.plain rfl
      (((guards_woven he hguard).append ih).append (.plain rfl
        ((discards_woven he hlast).append (.plain rfl (.plain rfl .nil))))))
  | switch hvalue _ htests _ ih =>
    exact ((emits_woven he hvalue).append (tests_woven he htests)).append
      (.plain rfl (ih.append (.plain rfl (.plain rfl .nil))))
  | breakOut | continueLoop | exit => exact .plain rfl (.plain rfl .nil)
  | exitWith _ hvalue =>
    exact ((emits_woven he hvalue).append (woven_plain returning_plain)).append
      (.plain rfl (.plain rfl .nil))
  | blockEnd => exact .plain rfl .nil
  | blockNext _ _ ih₁ ih₂ | armNext _ _ ih₁ ih₂ => exact ih₁.append ih₂
  | noArms | armEnd => exact .nil
  | arms _ _ ih₁ ih₂ => exact .plain rfl (ih₁.append ih₂)

/-- Every snapshot in woven code belongs to an argument of a routine. -/
theorem Woven.handed (h : Woven known code) (hknown : ∀ env, known env → env.Actionless)
    (hn : (stream.code.map (·.handle)).Nodup) (hs : stream.Stands pc code) :
    stream.Snaps (fun k => ∃ env, known env ∧
      ∃ resume own later, stream.Hands env k resume own later) pc code := by
  induction h generalizing pc with
  | nil => exact snaps_nil
  | plain hi _ ih => exact snaps_before hs hi (ih hs.tail)
  | @value env _ _ _ _ _ _ _ he hemits _ ih =>
    exact ((emits_settles hemits (hknown env he) hn hs.left rfl).mono
      fun _ h => ⟨env, he, h⟩).append (ih hs.right)

end Woven

namespace Build

/-! ## Programs -/

section Programs

variable {engine : Engine} {items : Script} {env env' : Env} {p : Program} {s : Session}
  {n m : Handle} {code : List Instruction} {known : Env → Prop}

theorem global_woven {g : GlobalDef} (he : known env) (h : GlobalCode env n g code m) :
    Woven known code := by
  cases h with
  | plain => exact woven_plain reserving_plain
  | initialized _ _ _ hvalue =>
    exact (woven_plain reserving_plain).append
      ((emits_woven he hvalue).append (.plain rfl (.plain rfl .nil)))

theorem globals_woven (h : GlobalsCode env n items env' code m)
    (hknown : ∀ e : Env, e.engine = env.engine → e.functions = env.functions → known e) :
    Woven known code := by
  induction h with
  | nil => exact .nil
  | skip _ _ _ ih => exact ih hknown
  | struct _ _ ih => exact ih hknown
  | @global env _ _ _ _ g _ _ _ hg _ ih =>
    exact (global_woven (hknown (env.withGlobal g) rfl rfl) hg).append (ih hknown)

theorem checkTypes_actionless {structs : Structs} {sig : Signature}
    (h : checkTypes structs sig = .ok ()) : ∀ p ∈ sig.params, p.ty ≠ .action := by
  simp only [checkTypes, except_refuse_ok, except_bind_ok] at h
  obtain ⟨_, _, _, hparams⟩ := h
  generalize sig.params = params at hparams
  induction params with
  | nil => simp
  | cons p rest ih =>
    simp only [checkParams, except_require_ok, except_bind_ok] at hparams
    obtain ⟨hstorable, _, _, hrest⟩ := hparams
    refine List.forall_mem_cons.mpr ⟨?_, ih hrest⟩
    intro hp
    simp [hp, Ty.storable] at hstorable

/-- The environment belongs to the program: its functions are among those of the program. -/
def Within (engine : Engine) (s : Session) (env : Env) : Prop :=
  env.engine = engine ∧ Functions.Grows env.functions.all s.env.functions.all

theorem Assembled.woven (h : Assembled engine items env p s) :
    Woven (Within engine s) p.code := by
  obtain ⟨n, hglobals⟩ := h.globals
  obtain ⟨mid, hsegs, henv⟩ := h.segmented
  obtain ⟨hengine, _⟩ := h.sees
  have hearly : Woven (Within engine s) p.globals := by
    refine globals_woven hglobals ?_
    intro e he hf
    refine ⟨he, ?_⟩
    rw [hf]
    intro f hmem
    cases hmem
  have hlate : Woven (Within engine s) (p.segments.flatMap Segment.code) := by
    refine woven_flatMap fun g hg => .plain rfl ?_
    cases hb : g.body with
    | none => exact .nil
    | some code =>
      obtain ⟨f, _, hc⟩ := hsegs.origin g hg (by simp [hb])
      obtain ⟨fs, _, _, _, _, retn, _, first, hbody, hgrows, _, hlays⟩ := h.laid hc
      cases hb.symm.trans hbody
      rw [henv] at hgrows
      have hwithin : Within engine s { s.env with functions := fs } := ⟨hengine, hgrows⟩
      exact (lays_woven hwithin hlays).append (.plain rfl .nil)
  have hmiddle : Woven (Within engine s) (p.close ++ p.start) :=
    woven_plain fun _ hi => h.start_plain hi
  rw [Program.code, Program.head, List.append_assoc p.globals]
  exact (hearly.append hmiddle).append hlate

theorem Assembled.actionless (h : Assembled engine items env p s) (henv : Within engine s env') :
    env'.Actionless := by
  obtain ⟨mid, hsegs, _⟩ := h.segmented
  intro name f hf q hq
  obtain ⟨g, hg, _, _, _, htypes⟩ := henv.2 f (Functions.mem_of_find? hf)
  rw [h.table] at hg
  obtain ⟨seg, hseg, rfl⟩ := List.mem_map.mp hg
  have hty : q.ty ∈ seg.signature.params.map (·.ty) := by
    rw [show seg.signature.params.map (·.ty) = _ from htypes]
    exact List.mem_map_of_mem hq
  obtain ⟨q', hq', hsame⟩ := List.mem_map.mp hty
  rw [← hsame]
  exact checkTypes_actionless (hsegs.accepted seg hseg).types q' hq'

end Programs

/-- Whether a snapshot goes to the routine that it was taken for. Every snapshot is that of an
action argument of a routine, and the later arguments are pushed between the command and the call.
On the way from behind the command, whatever calls control is in, the first routine that is called
is the right one just if all that the later arguments call are script functions that call none. -/
theorem snapshot_taken_by_own_iff {setup : Setup} {engine : Engine} {script : Script} {u : Unit}
    {s : Session} (h : Build.script setup script { env := { engine } } = .ok u s) {k : Nat}
    {i : Instruction} {globals locals : Int} (hi : s.out.stream.code[k]? = some i)
    (hop : i.op = .storeState globals locals) :
    ∃ env resume own later, Within engine s env ∧
      s.out.stream.Hands env k resume own later ∧
      ∀ rs, (s.out.stream.First ⟨resume, rs⟩ ⟨own, rs⟩ ↔
        ∀ name, Invokes env (.arguments later) name →
          ∃ f, env.functions.find? name = some f ∧ s.out.stream.Hushed f.entry) := by
  obtain ⟨items, base, p, _, hp⟩ := script_assembled h
  have hn := hp.stream_nodup
  have hstands : s.out.stream.Stands 0 p.code := ⟨[], [], by simp [hp.code_eq], rfl⟩
  have hk : k < 0 + p.code.length := by
    rw [← hp.code_eq, Nat.zero_add]
    exact (List.getElem?_eq_some_iff.mp hi).1
  obtain ⟨env, henv, resume, own, later, hhands⟩ :=
    hp.woven.handed (fun _ => hp.actionless) hn hstands k i (Nat.zero_le k) hk hi (by rw [hop]; rfl)
  exact ⟨env, resume, own, later, henv, hhands, hhands.first_iff hn⟩

/-- Routines that need a number, take a command with a number, and print a number. -/
def promising : Engine :=
  { routines :=
      [⟨.int, "Random", [⟨.int, "n", none⟩]⟩,
       ⟨.void, "Promise", [⟨.action, "command", none⟩, ⟨.int, "n", none⟩]⟩,
       ⟨.void, "PrintInteger", [⟨.int, "n", none⟩]⟩] }

/-- `Promise(PrintInteger(1), n)`. -/
def promise (n : Expr) : Stmt :=
  .expr (.call "Promise" [.call "PrintInteger" [.literal (.int 1)], n])

/-- The number comes from a script function. -/
def keeping : Script :=
  let n : Expr := .access ⟨"n", []⟩
  [.function ⟨⟨.int, "twice", [⟨.int, "n", none⟩]⟩, [.ret (some (.binary .add n n))]⟩,
   .function ⟨⟨.void, "main", []⟩, [promise (.call "twice" [.literal (.int 2)])]⟩]

def keepingOutline : List (Op × Option Nat) :=
  [(.jump .jsr, some 11), (.retn, none),
   (.nop, none), (.copyTop .sp (-1) 1, none), (.copyTop .sp (-2) 1, none), (.binary .addII, none),
   (.copyDown .sp (-3) 1, none), (.moveSp (-1), none), (.moveSp (-1), none),
   (.jump .jmp, some 10), (.retn, none),
   (.nop, none), (.storeState 0 0, none), (.jump .jmp, some 17), (.constI 1, none),
   (.action 2 1, none), (.retn, none), (.nop, none), (.reserve .int, none), (.constI 2, none),
   (.jump .jsr, some 2), (.action 1 2, none), (.moveSp 0, none), (.retn, none)]

theorem promise_kept :
    ∃ s env later, Build.script {} keeping { env := { engine := promising } } = .ok () s ∧
      s.out.stream.outline = keepingOutline ∧ Within promising s env ∧
      s.out.stream.Hands env 12 17 21 later ∧ s.out.stream.First ⟨17, []⟩ ⟨21, []⟩ ∧
      ∀ name, Invokes env (.arguments later) name →
        ∃ f, env.functions.find? name = some f ∧ s.out.stream.Hushed f.entry := by
  obtain ⟨s, hs, hread⟩ := @compiles_reading _ _ keeping { env := { engine := promising } }
    Stream.outline keepingOutline rfl (by decide +kernel)
  obtain ⟨store, hstore, hop, _⟩ := @Stream.outline_at _ 12 _ _ _ hread rfl
  obtain ⟨env, resume, own, later, henv, hhands, hiff⟩ := snapshot_taken_by_own_iff hs hstore hop
  obtain ⟨_, _, _, _, _, _, _, _, _, _, _, hpostpones, ⟨call, hcall, hact⟩, _⟩ := hhands.call
  have hresume : resume = 17 := by
    obtain ⟨i, hi, _, hland⟩ := hpostpones.jump
    obtain ⟨j, hj, _, hland'⟩ := @Stream.outline_at _ 13 _ _ _ hread rfl
    cases hi.symm.trans hj
    exact Option.some.inj (hland.symm.trans hland')
  subst hresume
  have hown : own = 21 := by
    obtain ⟨_, _, _, code, _, _, _, hstop⟩ := hpostpones.rest
    have hat : keepingOutline[own]? = some (call.op, s.out.stream.landing? call) := by
      rw [← hread, Stream.outline, List.getElem?_map, hcall]
      rfl
    have hhigh : own < 24 := (List.getElem?_eq_some_iff.mp hat).1
    rw [hact] at hat
    have hcases : own = 18 ∨ own = 19 ∨ own = 20 ∨ own = 21 ∨ own = 22 ∨ own = 23 := by omega
    rcases hcases with rfl | rfl | rfl | rfl | rfl | rfl
    · cases hat
    · cases hat
    · cases hat
    · rfl
    · cases hat
    · cases hat
  subst hown
  obtain ⟨jsr, hjsr, hjump, hland⟩ := @Stream.outline_at _ 20 _ _ _ hread rfl
  obtain ⟨entry, htarget, hentry⟩ := Option.bind_eq_some_iff.mp hland
  have htwice : s.out.stream.Hushed entry := by
    have hbody := @Stream.walks_outline _ 2 _ 7 hread (by decide) (by decide)
    obtain ⟨jmp, hjmp, hop, hland⟩ := @Stream.outline_at _ 9 _ _ _ hread rfl
    obtain ⟨retn, hretn, hop', _⟩ := @Stream.outline_at _ 10 _ _ _ hread rfl
    have hwalk := hbody.append (Stream.walks_jmp hjmp hop hland (by decide))
    exact (hwalk.congr (and_self_iff ..)).hushed hentry ⟨retn, hretn, hop'⟩
  have hfirst : s.out.stream.First ⟨17, []⟩ ⟨21, []⟩ := by
    have hbefore := @Stream.walks_outline _ 17 _ 3 hread (by decide) (by decide)
    have hwalk := hbefore.append (Stream.walks_call hjsr hjump htarget)
    exact (hwalk.first_iff ⟨call, _, _, hcall, hact⟩).mpr ⟨trivial, htwice⟩
  exact ⟨s, env, later, hs, hread, henv, hhands, hfirst, (hiff []).mp hfirst⟩

/-- The number comes from a routine. -/
def breaking : Script :=
  [.function ⟨⟨.void, "main", []⟩, [promise (.call "Random" [.literal (.int 3)])]⟩]

def breakingOutline : List (Op × Option Nat) :=
  [(.jump .jsr, some 2), (.retn, none),
   (.nop, none), (.storeState 0 0, none), (.jump .jmp, some 8), (.constI 1, none),
   (.action 2 1, none), (.retn, none), (.nop, none), (.constI 3, none), (.action 0 1, none),
   (.action 1 2, none), (.moveSp 0, none), (.retn, none)]

/-- The snapshot goes to the routine that makes up the number. -/
theorem promise_broken :
    ∃ s, Build.script {} breaking { env := { engine := promising } } = .ok () s ∧
      s.out.stream.outline = breakingOutline ∧
      s.out.stream.Quiet ⟨8, []⟩ ⟨10, []⟩ ∧ s.out.stream.Acts 10 ∧
      ¬s.out.stream.First ⟨8, []⟩ ⟨11, []⟩ := by
  obtain ⟨s, hs, hread⟩ := @compiles_reading _ _ breaking { env := { engine := promising } }
    Stream.outline breakingOutline rfl (by decide +kernel)
  obtain ⟨i, hi, hop, _⟩ := @Stream.outline_at _ 10 _ _ _ hread rfl
  have hacts : s.out.stream.Acts 10 := ⟨i, _, _, hi, hop⟩
  have hwalk := @Stream.walks_outline _ 8 _ 2 hread (by decide) (by decide)
  have hfirst : s.out.stream.First ⟨8, []⟩ ⟨10, []⟩ := (hwalk.first_iff hacts).mpr trivial
  refine ⟨s, hs, hread, hfirst.quiet, hacts, ?_⟩
  intro hown
  cases hown.only _ hfirst.quiet hacts

end Build

end NwScript
