-- The code of expressions is in order: it leaves the stack as it was, with slots of the right kinds
-- on top.
import NwScript.Proofs.Shape.Place
import NwScript.Proofs.Storage.Spans

namespace NwScript

open Codegen

/-! ## Single instructions -/

section Instructions

variable {env whole : Env} {shape top : Shape} {n : Handle} {ty left right : Ty} {k : Nat}
  {r : Resolved}

theorem after_pop {size : Int} (h : size = top.length) :
    Instruction.after? whole ⟨n, .moveSp (-size), none⟩ (shape ++ top) = some shape := by
  simp [Instruction.after?, splitTop?_append h]

theorem after_load {size : Int} (hp : env.PartOf whole) (hr : r.LiesIn whole shape)
    (hk : size = (whole.kinds r.ty).length) :
    Instruction.after? whole ⟨n, r.load size, none⟩ shape = some (shape ++ whole.kinds r.ty) := by
  simp [Instruction.after?, Resolved.load, hr.area hp.globalShape hk]

/-- A value is stored in slots of its own kinds. -/
theorem after_store {size : Int} (hp : env.PartOf whole)
    (hr : r.LiesIn whole (shape ++ whole.kinds r.ty)) (hk : size = (whole.kinds r.ty).length) :
    Instruction.after? whole ⟨n, r.store size, none⟩ (shape ++ whole.kinds r.ty) =
      some (shape ++ whole.kinds r.ty) := by
  simp [Instruction.after?, Resolved.store, splitTop?_append hk, hr.area hp.globalShape hk]

theorem after_step {op : StepOp} (hp : env.PartOf whole) (hr : r.LiesIn whole shape)
    (hty : r.ty = .int) :
    Instruction.after? whole ⟨n, .step op r.anchor r.offset, none⟩ shape = some shape := by
  have hint : whole.kinds r.ty = [.int] := by rw [hty]; rfl
  have harea := hr.area hp.globalShape (show (1 : Int) =
    (whole.kinds r.ty).length by rw [hint]; rfl)
  simp [Instruction.after?, harea, hint]

/-- The types that arithmetic works on are always known. -/
theorem shape?_operand (h : ty ∈ Operand.types) : whole.shape? ty = some (whole.kinds ty) := by
  simp only [Operand.types, List.mem_cons, List.not_mem_nil, or_false] at h
  rcases h with rfl | rfl | rfl | rfl | rfl <;> rfl

theorem after_binary {op : BinaryOp} {c : BinaryCode} (hc : op.code? left right = some c) :
    Instruction.after? whole ⟨n, .binary c, none⟩ (shape ++ whole.kinds left ++ whole.kinds right) =
      some (shape ++ whole.kinds c.result) := by
  obtain ⟨rfl, rfl⟩ := code_types hc
  have hstrip := Shape.strip?_append shape (whole.kinds c.lhs ++ whole.kinds c.rhs)
  simp [Instruction.after?, Env.shapes?, shape?_operand c.lhs_mem, shape?_operand c.rhs_mem,
    shape?_operand c.result_mem, hstrip]

theorem after_unary {op : UnaryOp} {c : UnaryCode} (hc : op.code? ty = some c) :
    Instruction.after? whole ⟨n, .unary c, none⟩ (shape ++ whole.kinds ty) =
      some (shape ++ whole.kinds ty) := by
  cases operand_type hc
  simp [Instruction.after?, shape?_operand c.operand_mem]

theorem composite_destination {op : BinaryOp} {left right : Ty} {k : Nat} {c : Op}
    (h : op.composite? left right k = some c) : c.destination? = none := by
  rcases composite_cases h with rfl | rfl <;> rfl

theorem after_composite {op : BinaryOp} {c : Op}
    (hc : op.composite? left right (whole.kinds left).length = some c) :
    c.proceeds = true ∧
      Instruction.after? whole ⟨n, c, none⟩ (shape ++ whole.kinds left ++ whole.kinds right) =
        some (shape ++ [.int]) := by
  unfold BinaryOp.composite? at hc
  split at hc
  · rename_i hsame
    have hty : left = right := by
      simp only [Bool.and_eq_true, beq_iff_eq] at hsame
      exact hsame.2
    subst hty
    have htop : splitTop? (whole.kinds left).length
        (shape ++ (whole.kinds left ++ whole.kinds left)) =
        some (shape ++ whole.kinds left, whole.kinds left) := by
      rw [← List.append_assoc]
      exact splitTop?_append rfl
    have hnext : splitTop? (whole.kinds left).length (shape ++ whole.kinds left) =
        some (shape, whole.kinds left) := splitTop?_append rfl
    split at hc
    · cases hc
      exact ⟨rfl, by simp [Instruction.after?, htop, hnext]⟩
    · cases hc
      exact ⟨rfl, by simp [Instruction.after?, htop, hnext]⟩
    · cases hc
  · cases hc

end Instructions

/-! ## Rows of instructions -/

section Rows

variable {whole : Env} {P : Instruction → Shape → Prop} {aims : Handle → Shape → Prop}
  {shape : Shape} {n : Handle}

/-- Instructions each of which pushes one slot, and that write nothing in place. -/
theorem straight_pushes (hplain : ∀ i shape, i.op.destination? = none → P i shape)
    {row : List (Op × SlotKind)}
    (h : ∀ x ∈ row, x.1.proceeds = true ∧ x.1.destination? = none ∧
      ∀ n shape, Instruction.after? whole ⟨n, x.1, none⟩ shape = some (shape ++ [x.2])) :
    Straight whole P shape (numbered n (row.map (·.1))) (shape ++ row.map (·.2)) := by
  induction row generalizing n shape with
  | nil => simpa [numbered] using .nil
  | cons x rest ih =>
    obtain ⟨hop, hnone, hafter⟩ := h x List.mem_cons_self
    have hrest := @ih (shape ++ [x.2]) (n + 1) fun y hy => h y (List.mem_cons_of_mem _ hy)
    have hall := (straight_plain hop (hafter n shape) (hplain _ _ hnone)).append hrest
    simpa [numbered] using hall

theorem straight_reserve (hplain : ∀ i shape, i.op.destination? = none → P i shape)
    {ks : List SlotKind} :
    Straight whole P shape (numbered n (ks.map .reserve)) (shape ++ ks) := by
  have hall := @straight_pushes whole P shape n hplain (ks.map fun k => (.reserve k, k)) (by
    simp only [List.forall_mem_map]
    exact fun k _ => ⟨rfl, rfl, fun _ _ => rfl⟩)
  simpa [Function.comp_def] using hall

theorem inOrder_reserve {ks : List SlotKind} :
    InOrder whole aims [] shape (numbered n (ks.map .reserve)) (shape ++ ks) :=
  (straight_reserve (P := fun _ _ => True) fun _ _ _ => trivial).inOrder

theorem straight_literal (hplain : ∀ i shape, i.op.destination? = none → P i shape) {v : Value} :
    Straight whole P shape (numbered n (Op.pushing v)) (shape ++ whole.kinds v.ty) := by
  have hrow (row : List (Op × SlotKind)) (hr : ∀ x ∈ row, x.1.proceeds = true ∧
      x.1.destination? = none ∧
      ∀ n shape, Instruction.after? whole ⟨n, x.1, none⟩ shape = some (shape ++ [x.2])) :=
    @straight_pushes whole P shape n hplain row hr
  cases v with
  | int i =>
    exact hrow [(.constI i, .int)] (by simp [Op.proceeds, Op.destination?, Instruction.after?])
  | float x =>
    exact hrow [(.constF x, .float)] (by simp [Op.proceeds, Op.destination?, Instruction.after?])
  | string t =>
    exact hrow [(.constS t, .string)] (by simp [Op.proceeds, Op.destination?, Instruction.after?])
  | object h =>
    exact hrow [(.constO h, .object)] (by simp [Op.proceeds, Op.destination?, Instruction.after?])
  | vector x y z =>
    exact hrow [(.constF x, .float), (.constF y, .float), (.constF z, .float)]
      (by simp [Op.proceeds, Op.destination?, Instruction.after?])

theorem straight_popping (hplain : ∀ i shape, i.op.destination? = none → P i shape) {top : Shape}
    {k : Nat} (hk : k = top.length) : Straight whole P (shape ++ top) (popping n k) shape := by
  by_cases hpos : 0 < k
  · simp only [popping, hpos, if_true]
    exact straight_plain rfl (after_pop (by simp [hk])) (hplain _ _ rfl)
  · have hnil : top = [] := List.length_eq_zero_iff.mp (by omega)
    simpa [popping, hpos, hnil] using .nil

theorem inOrder_popping {top : Shape} {k : Nat} (hk : k = top.length) :
    InOrder whole aims [] (shape ++ top) (popping n k) shape :=
  (straight_popping (P := fun _ _ => True) (fun _ _ _ => trivial) hk).inOrder

end Rows

/-! ## Calls -/

theorem bind?_params {params : List Param} {args : List Expr} {bound : List (Param × Expr)}
    (h : bind? params args = some bound) : bound.map (·.1) = params := by
  induction params generalizing args bound with
  | nil => cases args <;> simp_all [bind?]
  | cons p rest ih =>
    cases args with
    | cons a args =>
      obtain ⟨bound', hb, rfl⟩ := Option.map_eq_some_iff.mp h
      simp [ih hb]
    | nil =>
      simp only [bind?] at h
      split at h
      · obtain ⟨bound', hb, rfl⟩ := Option.map_eq_some_iff.mp h
        simp [ih hb]
      · cases h

section Calls

variable {env whole : Env} {s : Scope} {n m : Handle} {bound : List (Param × Expr)} {tys : List Ty}
  {code : List Instruction}

/-- What arguments push: the values of all parameters but commands, which take no slots. -/
theorem arguments_pushed (h : Emits env s n (.arguments bound) tys code m) :
    tys = (bound.map (·.1.ty)).filter (· ≠ .action) := by
  generalize hphrase : Phrase.arguments bound = phrase at h
  induction h generalizing bound with
  | noArguments =>
    cases hphrase
    rfl
  | @pushed s n n₁ m p e bound k tys code rest hne _ _ _ _ ih =>
    cases hphrase
    simp [ih rfl, hne]
  | @deferred s n n₁ m p e bound _ _ ty k tys code rest hact _ _ _ _ _ _ ih =>
    cases hphrase
    simp [ih rfl, hact]
  | _ => cases hphrase

theorem arguments_types (hp : env.PartOf whole) (h : Emits env s n (.arguments bound) tys code m) :
    tys = (bound.map (·.1.ty)).filter (· ≠ .action) ∧
      ∀ ty ∈ bound.map (·.1.ty), whole.structs.slots ty = .ok (whole.kinds ty) := by
  refine ⟨arguments_pushed h, ?_⟩
  generalize hphrase : Phrase.arguments bound = phrase at h
  induction h generalizing bound with
  | noArguments =>
    cases hphrase
    simp
  | @pushed s n n₁ m p e bound k tys code rest hne _ hk _ _ ih =>
    cases hphrase
    rw [List.map_cons, List.forall_mem_cons]
    exact ⟨hp.slots _ _ (hp.sized hk).1, ih rfl⟩
  | @deferred s n n₁ m p e bound _ _ ty k tys code rest hact _ _ _ _ _ _ ih =>
    cases hphrase
    rw [List.map_cons, List.forall_mem_cons]
    exact ⟨by rw [hact]; rfl, ih rfl⟩
  | _ => cases hphrase

theorem flatMap_kinds_filter {tys : List Ty} :
    (tys.filter (· ≠ .action)).flatMap whole.kinds = tys.flatMap whole.kinds := by
  induction tys with
  | nil => rfl
  | cons ty rest ih =>
    by_cases hty : ty = .action
    · have hnone : whole.kinds .action = [] := rfl
      simpa [hty, hnone] using ih
    · rw [List.filter_cons_of_pos (by simpa using hty), List.flatMap_cons, ih, List.flatMap_cons]

/-- A call leaves the slots of the result, which were reserved below its arguments. -/
theorem after_call {f : Function} {shape : Shape} {k : Nat} (hp : env.PartOf whole)
    (hf : f ∈ env.functions.all) (hk : env.sizeOf f.signature.returnType = .ok k)
    (hargs : ∀ ty ∈ f.signature.params.map (·.ty), whole.structs.slots ty = .ok (whole.kinds ty)) :
    Instruction.after? whole ⟨n, .jump .jsr, some f.entry⟩ (shape ++
        whole.kinds f.signature.returnType ++ (f.signature.params.map (·.ty)).flatMap whole.kinds) =
      some (shape ++ whole.kinds f.signature.returnType) := by
  obtain ⟨g, hg, hret, hparams⟩ := hp.functions f hf
  have hstrip := Shape.strip?_append shape (whole.kinds f.signature.returnType ++
    (f.signature.params.map (·.ty)).flatMap whole.kinds)
  rw [← List.append_assoc] at hstrip
  simp only [Instruction.after?, hg, hret, hparams, hp.known_shape (hp.sized hk).1,
    Env.shapes?_of_slots hargs, hstrip, Option.bind_eq_bind, Option.bind_some]
  rfl

/-- An engine routine takes its arguments and leaves its result. -/
theorem after_action {name : Name} {index k : Nat} {routine : Signature} {shape : Shape}
    (hp : env.PartOf whole) (hr : env.engine.routine? name = some (index, routine))
    (hindex : index < 0x10000) (hargc : routine.params.length < 0x100)
    (hk : env.sizeOf routine.returnType = .ok k)
    (hargs : ∀ ty ∈ routine.params.map (·.ty), whole.structs.slots ty = .ok (whole.kinds ty)) :
    Instruction.after? whole ⟨n, .action index.toUInt16 routine.params.length.toUInt8, none⟩
        (shape ++ (routine.params.map (·.ty)).flatMap whole.kinds) =
      some (shape ++ whole.kinds routine.returnType) := by
  have hroutine : whole.engine.routines[index.toUInt16.toNat]? = some routine := by
    rw [show index.toUInt16.toNat = index by simp [Nat.toUInt16,
      Nat.mod_eq_of_lt hindex], hp.engine]
    exact Engine.routine_at hr
  have hcount : routine.params.length = routine.params.length.toUInt8.toNat := by
    simp [Nat.toUInt8, Nat.mod_eq_of_lt hargc]
  have hshapes : whole.shapes? ((routine.params.map (·.ty)).filter (· ≠ .action)) =
      some ((routine.params.map (·.ty)).flatMap whole.kinds) := by
    rw [← flatMap_kinds_filter]
    exact Env.shapes?_of_slots fun ty hty => hargs ty (List.mem_filter.mp hty).1
  simp only [Instruction.after?, hroutine, hp.known_shape (hp.sized hk).1, hshapes, ← hcount,
    if_true, Shape.strip?_append, Option.bind_eq_bind, Option.bind_some]
  rfl

/-- A snapshot takes what is there of the globals and of the frame. -/
theorem after_snapshot {below : Shape} {temps : List Shape} {globals locals : Int}
    (hp : env.PartOf whole) (ho : Outlined env whole s below temps)
    (hg : env.globalSize = .ok globals) (hl : s.fullSize env = .ok locals) :
    Instruction.after? whole ⟨n, .storeState (-globals) locals, none⟩
      (s.outline whole below temps) = some (s.outline whole below temps) := by
  have hlocals := ho.height hp hl
  obtain ⟨k, hk, rfl⟩ := globalSize_ok hg
  have hsize := hp.sized_all hk
  have hle : (whole.globalKinds env.globals).length ≤ (whole.globalKinds whole.globals).length := by
    obtain ⟨rest, hrest⟩ := hp.globals
    rw [← hrest]
    simp [Env.globalKinds]
  have hall : k = (whole.globalKinds env.globals).length := by
    rw [hsize]
    simp [Env.globalKinds, List.flatMap_map]
  simp only [Instruction.after?, hp.globalShape, Option.bind_eq_bind, Option.bind_some]
  rw [if_pos]
  refine ⟨by omega, by omega, by omega, ?_⟩
  rw [hlocals]
  simp only [Scope.outline, List.length_append]
  omega

end Calls

/-! ## Expressions -/

/-- What a property of instructions has to say for the code of expressions to have it: it holds of
whatever writes nothing in place, and of whatever writes to a variable that may be changed, also
with some slots more on the stack than when the variable was found. The scopes are those that
occur. -/
structure Permits (env whole : Env) (below : Shape) (scopes : Scope → Prop)
    (P : Instruction → Shape → Prop) : Prop where
  grown : ∀ s k, scopes s → scopes (s.grown k)
  plain : ∀ i shape, i.op.destination? = none → P i shape
  writes : ∀ s temps (cs : Shape) path r i, ∀ k : Nat, scopes s →
    Outlined env whole s below temps → resolveAccess env s path = .ok r → r.const = false →
    env.sizeOf r.ty = .ok k →
    i.op.destination? = some (r.anchor, (r.under cs.length).offset, (k : Int)) →
    P i (s.outline whole below temps ++ cs)

/-- In every outline of the scope the code goes straight on, and pushes some slots. -/
def Advances (env whole : Env) (P : Instruction → Shape → Prop) (s : Scope) (below : Shape)
    (code : List Instruction) (ks : Shape) : Prop :=
  ∀ temps, Outlined env whole s below temps →
    Straight whole P (s.outline whole below temps) code (s.outline whole below temps ++ ks)

/-- In every outline of the scope the code is in order, and pushes some slots. -/
def Pushes (env whole : Env) (aims : Handle → Shape → Prop) (s : Scope) (below : Shape)
    (code : List Instruction) (ks : Shape) : Prop :=
  ∀ temps, Outlined env whole s below temps →
    InOrder whole aims [] (s.outline whole below temps) code (s.outline whole below temps ++ ks)

section Expressions

variable {env whole : Env} {aims : Handle → Shape → Prop} {scopes : Scope → Prop}
  {P : Instruction → Shape → Prop} {s : Scope} {below : Shape} {temps : List Shape}
  {code : List Instruction} {ks cs : Shape}

theorem Advances.onTop {k : Int} (h : Advances env whole P (s.grown k) below code ks)
    (ho : Outlined env whole s below temps) (hk : k = cs.length) :
    Straight whole P (s.outline whole below temps ++ cs) code
      (s.outline whole below temps ++ cs ++ ks) := by
  have hall := h _ (ho.push hk)
  rwa [ho.outline_push] at hall

theorem Pushes.onTop {k : Int} (h : Pushes env whole aims (s.grown k) below code ks)
    (ho : Outlined env whole s below temps) (hk : k = cs.length) :
    InOrder whole aims [] (s.outline whole below temps ++ cs) code
      (s.outline whole below temps ++ cs ++ ks) := by
  have hall := h _ (ho.push hk)
  rwa [ho.outline_push] at hall

/-- What was resolved with a value on top lies below that value. -/
theorem access_below {path : Access} {r : Resolved} {k : Int} (hp : env.PartOf whole)
    (ho : Outlined env whole s below temps) (hk : k = cs.length)
    (hr : resolveAccess env (s.grown k) path = .ok r) :
    r.LiesIn whole (s.outline whole below temps ++ cs) := by
  have hlies := (access_lies_in hp (ho.push hk) hr).2
  rwa [ho.outline_push] at hlies

/-- A write below a value is permitted like one without it. -/
theorem Permits.onTop {path : Access} {r : Resolved} {j : Int} {k : Nat}
    (hw : Permits env whole below scopes P) (i : Instruction) (hs : scopes s)
    (ho : Outlined env whole s below temps) (hj : j = cs.length)
    (hr : resolveAccess env (s.grown j) path = .ok r) (hc : r.const = false)
    (hk : env.sizeOf r.ty = .ok k) (hi : i.op.destination? = some (r.anchor, r.offset, (k : Int))) :
    P i (s.outline whole below temps ++ cs) := by
  have hall := hw.writes _ _ [] _ _ i k (hw.grown s j hs) (ho.push hj) hr hc hk
    (by simpa using hi)
  rwa [List.append_nil, ho.outline_push] at hall

theorem emits_straight (hp : env.PartOf whole) (hw : Permits env whole below scopes P)
    {n m : Handle} {phrase : Phrase} {tys : List Ty} (h : Emits env s n phrase tys code m)
    (hs : scopes s) : Advances env whole P s below code (tys.flatMap whole.kinds) := by
  have hplain {a b : Shape} {i : Instruction} (hop : i.op.proceeds = true)
      (hnone : i.op.destination? = none) (ha : i.after? whole a = some b) :
      Straight whole P a [i] b := straight_plain hop ha (hw.plain _ _ hnone)
  induction h with
  | literal =>
    intro temps _
    simpa using straight_literal hw.plain
  | @constant s n path c k hc _ =>
    intro temps _
    obtain ⟨name, _, hname⟩ := Option.bind_eq_some_iff.mp hc
    rw [hp.typed.found hname]
    simpa using straight_literal hw.plain
  | @vector s _ _ _ _ _ _ _ _ _ _ _ _ _ ihx ihy ihz =>
    intro temps ho
    have hx := ihx hs temps ho
    have hy := (ihy (hw.grown s 1 hs)).onTop ho
      (show (1 : Int) = ([.float] : Shape).length from rfl)
    have hz := (ihz (hw.grown s 2 hs)).onTop ho
      (show (2 : Int) = ([.float, .float] : Shape).length from rfl)
    simp only [List.flatMap_cons, List.flatMap_nil, List.append_nil,
      List.append_assoc] at hx hy hz ⊢
    exact hx.append (hy.append hz)
  | access _ hr hk =>
    intro temps ho
    obtain ⟨hknown, hlies⟩ := access_lies_in hp ho hr
    simpa using hplain rfl rfl (after_load hp hlies (by rw [(hp.sized hk).2]))
  | @assign s n n₁ op target e r k code _ _ hk hr hc ih =>
    intro temps ho
    have hsize := (hp.sized hk).2
    have hlies := access_below hp ho (by rw [hsize]) hr
    have hvalue := ih hs temps ho
    have hwrite := hw.onTop ⟨n₁, r.store k, none⟩ hs ho (by rw [hsize]) hr hc hk rfl
    simp only [List.flatMap_cons, List.flatMap_nil, List.append_nil] at hvalue ⊢
    exact hvalue.append (straight_plain rfl (after_store hp hlies (by rw [hsize])) hwrite)
  | @combine s n n₁ op arithmetic target e r r' actual k l code c _ hr hc hk _ _ hcode hres hr'
      ih =>
    intro temps ho
    have hsize := congrArg (Nat.cast : Nat → Int) (hp.sized hk).2
    have hload := @after_load _ _ _ n _ _ hp (access_lies_in hp ho hr).2 hsize
    have hvalue := (ih (hw.grown s k hs)).onTop ho hsize
    -- The target is the same one again, with the value that was loaded from it on top.
    obtain rfl := access_grown hr hr'
    have hlies := access_below hp ho hsize hr'
    have hwrite := hw.onTop ⟨n₁ + 1, (r.under k).store k, none⟩ hs ho hsize hr' (by simpa using hc)
      (by simpa using hk) rfl
    have hstore := @after_store _ _ _ (n₁ + 1) (r.under k) k hp (by simpa using hlies)
      (by rw [Resolved.under_ty]; exact hsize)
    rw [Resolved.under_ty] at hstore
    have hcombine := @after_binary whole (s.outline whole below temps) n₁ _ _ _ _ hcode
    rw [hres] at hcombine
    simp only [List.flatMap_singleton] at hvalue ⊢
    exact (hplain rfl rfl hload).append
      (hvalue.append ((hplain rfl rfl hcombine).append (straight_plain rfl hstore hwrite)))
  | @composite s n n₁ n₂ op lhs rhs left right k l cl cr c _ hk _ _ hc ihl ihr =>
    intro temps ho
    have hsize := (hp.sized hk).2
    have hl := ihl hs temps ho
    have hr := (ihr (hw.grown s k hs)).onTop ho (congrArg Nat.cast hsize)
    rw [hsize] at hc
    obtain ⟨hop, hafter⟩ := after_composite hc
    simp only [List.flatMap_singleton] at hl hr ⊢
    exact (hl.append hr).append (hplain hop (composite_destination hc) hafter)
  | @binary s n n₁ n₂ op lhs rhs left right k l j cl cr c _ hk _ _ _ hc _ ihl ihr =>
    intro temps ho
    have hl := ihl hs temps ho
    have hr := (ihr (hw.grown s k hs)).onTop ho (congrArg Nat.cast (hp.sized hk).2)
    simp only [List.flatMap_singleton] at hl hr ⊢
    exact (hl.append hr).append (hplain rfl rfl (after_binary hc))
  | unary _ hc ih =>
    intro temps ho
    have hvalue := ih hs temps ho
    simp only [List.flatMap_singleton] at hvalue ⊢
    exact hvalue.append (hplain rfl rfl (after_unary hc))
  | @stepPre s n op target r hr hc hty =>
    intro temps ho
    have hlies := (access_lies_in hp ho hr).2
    have hload := @after_load _ _ _ (n + 1) _ 1 hp hlies (by rw [hty]; rfl)
    have hwrite := hw.writes _ _ [] _ _ ⟨n, .step op r.anchor r.offset, none⟩ 1 hs ho hr hc
      (by rw [hty]; rfl) (by simp [Op.destination?])
    rw [List.append_nil] at hwrite
    rw [hty] at hload
    simp only [List.flatMap_singleton]
    exact (straight_plain rfl (after_step hp hlies hty) hwrite).append (hplain rfl rfl hload)
  | @stepPost s n op target r hr hc hty =>
    intro temps ho
    have hlies := (access_lies_in hp ho hr).2
    have hload := @after_load _ _ _ n _ 1 hp hlies (by rw [hty]; rfl)
    rw [hty] at hload
    -- The variable lies one slot further from the top once its old value has been pushed.
    have hpast : offsetPast r = (r.under ([.int] : Shape).length).offset := by
      rcases r with ⟨_, _, anchor, _⟩
      cases anchor <;> rfl
    have hanchor : (r.under ([.int] : Shape).length).anchor = r.anchor := by
      rcases r with ⟨_, _, anchor, _⟩
      cases anchor <;> rfl
    have hint : env.sizeOf r.ty = .ok 1 := by
      rw [hty]
      rfl
    have hwrite := hw.writes _ _ [.int] _ _
      ⟨n + 1, .step op r.anchor (r.under ([.int] : Shape).length).offset, none⟩ 1 hs ho hr hc hint
      rfl
    have hstep := @after_step _ _ _ (n + 1) _ op hp (hlies.under [.int]) (by simpa using hty)
    rw [hanchor] at hstep
    simp only [List.flatMap_singleton, hpast]
    exact (hplain rfl rfl hload).append (straight_plain rfl hstep hwrite)
  | @callFunction s n n₁ name args f bound ks k tys code hf hb hks hk hargs ih =>
    intro temps ho
    obtain rfl := hp.kinds_eq hks
    have hpushed := (ih (hw.grown s k hs)).onTop ho (congrArg Nat.cast (hp.sized hk).2)
    obtain ⟨rfl, hknown⟩ := arguments_types hp hargs
    have hparams : bound.map (·.1.ty) = f.signature.params.map (·.ty) := by
      simp [← bind?_params hb, Function.comp_def]
    rw [hparams] at hknown hpushed
    rw [flatMap_kinds_filter] at hpushed
    simp only [List.flatMap_singleton]
    exact ((straight_reserve hw.plain).append hpushed).append
      (hplain rfl rfl (after_call hp (Functions.mem_of_find? hf) hk hknown))
  | @callRoutine s n n₁ name args index routine bound k tys code _ hr hb hargs hindex hargc hk ih =>
    intro temps ho
    have hpushed := ih hs temps ho
    obtain ⟨rfl, hknown⟩ := arguments_types hp hargs
    have hparams : bound.map (·.1.ty) = routine.params.map (·.ty) := by
      simp [← bind?_params hb, Function.comp_def]
    rw [hparams] at hknown hpushed
    rw [flatMap_kinds_filter] at hpushed
    simp only [List.flatMap_singleton]
    exact hpushed.append (hplain rfl rfl (after_action hp hr hindex hargc hk hknown))
  | noArguments =>
    intro temps _
    simpa using .nil
  | @pushed s n n₁ m p e bound k tys code rest _ _ hk _ ihv ihr =>
    intro temps ho
    have hvalue := ihv hs temps ho
    have hrest := (ihr (hw.grown s k hs)).onTop ho (congrArg Nat.cast (hp.sized hk).2)
    simp only [List.flatMap_singleton] at hvalue
    simp only [List.flatMap_cons, ← List.append_assoc]
    exact hvalue.append hrest
  | deferred _ hg hl _ hk _ ihc ihr =>
    intro temps ho
    have hcommand := ihc hs temps ho
    simp only [List.flatMap_singleton] at hcommand
    exact .deferred (after_snapshot hp ho hg hl)
      (hcommand.append (straight_popping hw.plain (hp.sized hk).2)) (hw.plain _ _ rfl)
      (ihr hs temps ho)

theorem emits_pushes (hp : env.PartOf whole) {n m : Handle} {phrase : Phrase} {tys : List Ty}
    (h : Emits env s n phrase tys code m) :
    Pushes env whole aims s below code (tys.flatMap whole.kinds) := by
  intro temps ho
  have hall : Permits env whole below (fun _ => True) (fun _ _ => True) :=
    ⟨fun _ _ _ => trivial, fun _ _ _ => trivial, fun _ _ _ _ _ _ _ _ _ _ _ _ _ => trivial⟩
  exact (emits_straight hp hall h trivial temps ho).inOrder

end Expressions

end NwScript
