-- Arguments that a call leaves out. They mean the default values of their parameters, as if these
-- stood in the call, and no variable that the caller sees gets in their way.
import NwScript.Proofs.Program.Registry

namespace NwScript

namespace Codegen

/-! ## Steps that do not look around -/

/-- A step that is the same wherever it is taken: an instruction is written, or slots are
counted. -/
inductive Move where
  | write (op : Op)
  | count (slots : Int)

/-- Takes some steps, and gives or refuses a value, whatever the state is. -/
def rote {α : Type} : List Move → Except Failure α → Gen α
  | [], r => lift r
  | .write op :: rest, r => do emit op; rote rest r
  | .count slots :: rest, r => do grow slots; rote rest r

def ByRote {α : Type} (x : Gen α) : Prop := ∃ moves r, x = rote moves r

section ByRote

variable {α β : Type} {x : Gen α}

theorem rote_ok_bind {moves more : List Move} {a : α} {r : Except Failure β} {f : α → Gen β}
    (h : f a = rote more r) : (rote moves (.ok a) >>= f) = rote (moves ++ more) r := by
  induction moves with
  | nil => exact h
  | cons m rest ih => cases m <;> simp only [List.cons_append, rote, bind_assoc, ih]

theorem rote_error_bind {moves : List Move} {e : Failure} {f : α → Gen β} :
    (rote moves (.error e) >>= f) = rote moves (.error e) := by
  induction moves with
  | nil => rfl
  | cons m rest ih => cases m <;> simp only [rote, bind_assoc, ih]

theorem ByRote.bind {f : α → Gen β} (hx : ByRote x) (hf : ∀ a, ByRote (f a)) :
    ByRote (x >>= f) := by
  obtain ⟨moves, r, rfl⟩ := hx
  cases r with
  | error e => exact ⟨moves, .error e, rote_error_bind⟩
  | ok a =>
    obtain ⟨more, r, h⟩ := hf a
    exact ⟨_, r, rote_ok_bind h⟩

theorem lift_byRote (r : Except Failure α) : ByRote (lift r) := ⟨[], r, rfl⟩

theorem pure_byRote (a : α) : ByRote (pure a : Gen α) := lift_byRote (.ok a)

theorem mistake_byRote (m : Mistake) : ByRote (mistake m : Gen α) :=
  lift_byRote (.error (.semantic m))

theorem emit_byRote (op : Op) : ByRote (emit op) :=
  ⟨[.write op], .ok (), bind_pure_unit.symm⟩

theorem grow_byRote (slots : Int) : ByRote (grow slots) :=
  ⟨[.count slots], .ok (), bind_pure_unit.symm⟩

theorem emitAll_byRote (ops : List Op) : ByRote (emitAll ops) := by
  induction ops with
  | nil => exact pure_byRote ()
  | cons op rest ih => exact (emit_byRote op).bind fun _ => ih

end ByRote

/-! ## Constant expressions -/

section Constant

variable {env env' : Env} {onDefault onDefault' : Expr → Gen Ty} {e : Expr}

theorem sizeOf_byRote (ty : Ty) : ByRote (Codegen.sizeOf env ty) := lift_byRote _

theorem literal_byRote (value : Value) (ty : Ty) : ByRote (literal env value ty) :=
  (emitAll_byRote _).bind fun _ => (sizeOf_byRote ty).bind fun _ =>
    (grow_byRote _).bind fun _ => pure_byRote _

theorem binary_byRote (op : BinaryOp) (left right : Ty) : ByRote (binary env op left right) := by
  refine (sizeOf_byRote left).bind fun k => (sizeOf_byRote right).bind fun l => ?_
  have hjoin (r : Op × Ty) : ByRote (do
      emit r.1
      grow (-(← lift (Count.sum k l)))
      grow (← Codegen.sizeOf env r.2)
      return r.2) :=
    (emit_byRote _).bind fun _ => (lift_byRote _).bind fun _ => (grow_byRote _).bind fun _ =>
      (sizeOf_byRote _).bind fun _ => (grow_byRote _).bind fun _ => pure_byRote _
  dsimp only
  split
  · exact (pure_byRote _).bind hjoin
  · split
    · exact (pure_byRote _).bind hjoin
    · exact (mistake_byRote _).bind hjoin

theorem unary_byRote (op : UnaryOp) (operand : Ty) : ByRote (unary op operand) := by
  unfold unary
  split
  · exact (emit_byRote _).bind fun _ => pure_byRote _
  · exact mistake_byRote _

theorem component_byRote (axis : Name) (ty : Ty) : ByRote (exprWith.component axis ty) := by
  unfold exprWith.component
  split
  · exact mistake_byRote _
  · exact pure_byRote _

theorem constant_access {engine : Engine} {path : Access}
    (h : (Expr.access path).constant engine = true) :
    ∃ c, path.identifier?.bind engine.constant? = some c := by
  unfold Expr.constant at h
  split at h
  · rename_i hname
    rw [hname, Option.bind_some]
    exact Option.isSome_iff_exists.mp h
  · cases h

/-- Nothing in a constant expression is looked for in the scope. -/
theorem constant_byRote (h : e.constant env.engine = true) :
    ByRote (exprWith env onDefault e) := by
  induction e using Expr.inductOn with
  | literal v =>
    simp only [exprWith]
    exact literal_byRote v v.ty
  | vector x y z hx hy hz =>
    simp only [Expr.constant, Bool.and_eq_true] at h
    simp only [exprWith]
    refine (hx h.1.1).bind fun _ => (component_byRote _ _).bind fun _ => ?_
    refine (hy h.1.2).bind fun _ => (component_byRote _ _).bind fun _ => ?_
    exact (hz h.2).bind fun _ => (component_byRote _ _).bind fun _ => pure_byRote _
  | access path =>
    obtain ⟨c, hc⟩ := constant_access h
    simp only [exprWith, access, hc]
    exact literal_byRote c.value c.ty
  | binary op l r hl hr =>
    simp only [Expr.constant, Bool.and_eq_true] at h
    simp only [exprWith]
    exact (hl h.1).bind fun _ => (hr h.2).bind fun _ => binary_byRote op _ _
  | unary op e he =>
    simp only [Expr.constant] at h
    simp only [exprWith]
    exact (he h).bind fun _ => unary_byRote op _
  | assign | step | call => simp [Expr.constant] at h

/-- Whatever else the surroundings hold, constant expressions mean the same. -/
theorem constant_congr (h : e.constant env.engine = true) (hengine : env'.engine = env.engine)
    (hstructs : env'.structs = env.structs) :
    exprWith env' onDefault' e = exprWith env onDefault e := by
  have hsize : Codegen.sizeOf env' = Codegen.sizeOf env := by
    funext ty
    simp [Codegen.sizeOf, Env.sizeOf, hstructs]
  have hliteral : literal env' = literal env := by
    funext v ty
    simp [literal, hsize]
  have hbinary : binary env' = binary env := by
    funext op left right
    simp [binary, hsize]
  induction e using Expr.inductOn with
  | literal v => simp [exprWith, hliteral]
  | vector x y z hx hy hz =>
    simp only [Expr.constant, Bool.and_eq_true] at h
    simp [exprWith, hx h.1.1, hy h.1.2, hz h.2]
  | access path =>
    obtain ⟨c, hc⟩ := constant_access h
    simp [exprWith, access, hengine, hc, hliteral]
  | binary op l r hl hr =>
    simp only [Expr.constant, Bool.and_eq_true] at h
    simp [exprWith, hl h.1, hr h.2, hbinary]
  | unary op e he =>
    simp only [Expr.constant] at h
    simp [exprWith, he h]
  | assign | step | call => simp [Expr.constant] at h

end Constant

/-! ## Arguments that are left out -/

section Filled

variable {env : Env} {onDefault : Expr → Gen Ty} {name : Name} {params : List Param}
  {args fills : List Expr} {pushed : Nat}

theorem defaults_filled (hd : ∀ e ∈ fills, onDefault e = exprWith env onDefault e)
    (h : fills.map some = params.map (·.default)) :
    argumentsWith env onDefault name pushed params fills =
      defaults env onDefault name pushed params := by
  induction params generalizing fills pushed with
  | nil =>
    cases List.map_eq_nil_iff.mp h
    simp [argumentsWith]
  | cons p rest ih =>
    cases fills with
    | nil => simp at h
    | cons e fills =>
      obtain ⟨hp, hrest⟩ := List.cons_eq_cons.mp h
      simp only [List.forall_mem_cons] at hd
      simp only [argumentsWith, defaults, ← hp, hd.1, ih hd.2 hrest]

theorem arguments_filled (hd : ∀ e ∈ fills, onDefault e = exprWith env onDefault e)
    (h : fills.map some = (params.drop args.length).map (·.default)) :
    argumentsWith env onDefault name pushed params (args ++ fills) =
      argumentsWith env onDefault name pushed params args := by
  induction args generalizing params pushed with
  | nil => simpa [argumentsWith] using defaults_filled hd h
  | cons a args ih =>
    cases params with
    | nil => simp [argumentsWith]
    | cons p params => simp only [List.cons_append, argumentsWith, ih h]

/-- There are neither too many arguments nor too few, unless there were too many before. -/
theorem checkArguments_filled (h : fills.map some = (params.drop args.length).map (·.default)) :
    checkArguments name params (args ++ fills).length =
      checkArguments name params args.length := by
  have hlength := congrArg List.length h
  simp only [List.length_map, List.length_drop] at hlength
  by_cases hmany : params.length < args.length
  · have hnone : fills.length = 0 := by omega
    simp [List.eq_nil_of_length_eq_zero hnone]
  have hsome : ∀ p ∈ params.drop args.length, p.default.isSome := by
    intro p hp
    have hmem := List.mem_map_of_mem hp (f := (·.default))
    rw [← h] at hmem
    obtain ⟨e, _, he⟩ := List.mem_map.mp hmem
    simp [← he]
  have hfull : args.length + fills.length = params.length := by omega
  have hnone : (params.drop args.length).filter (·.default.isNone) = [] := by
    simpa [List.filter_eq_nil_iff, Option.isSome_iff_ne_none] using hsome
  simp [checkArguments, hfull, hmany, hnone]

/-- A call with its default values written out is the same call. -/
theorem call_filled {f : Function} (hf : env.functions.find? name = some f)
    (hd : ∀ e ∈ fills, onDefault e = exprWith env onDefault e)
    (h : fills.map some = (f.signature.params.drop args.length).map (·.default)) :
    exprWith env onDefault (.call name (args ++ fills)) =
      exprWith env onDefault (.call name args) := by
  simp only [exprWith, hf, checkArguments_filled h, arguments_filled hd h]

end Filled

end Codegen

namespace Build

open Codegen

/-! ## Registered functions -/

section Registered

variable {s t : Session} {u : Unit}

/-- A definition is checked with the defaults that it has from its prototype. -/
theorem function_accepted {d : FunctionDef} (h : function d s = .ok u t) :
    ∃ entry sig names, sig.name = d.signature.name ∧
      Accepted s.env.engine s.env.structs sig ∧
      t.env.functions = (s.env.functions.marked names).define sig entry := by
  cases hf : s.env.functions.find? d.signature.name with
  | none =>
    obtain ⟨haccepted, _, _, henv, _⟩ := function_new_ok h hf
    exact ⟨_, d.signature, _, rfl, haccepted, congrArg Env.functions henv⟩
  | some k =>
    obtain ⟨_, _, haccepted, _, _, _, _, henv, _⟩ := function_announced_ok h hf
    exact ⟨_, Functions.merged k.signature d.signature, _, rfl, haccepted,
      congrArg Env.functions henv⟩

end Registered

/-- The function got its place in the table through a prototype or a definition. -/
def Registered (engine : Engine) (f : Function) : Prop :=
  ∃ item s t, s.env.engine = engine ∧ functionStep item s = .ok () t ∧
    item.functionName? = some f.signature.name ∧
    t.env.functions.find? f.signature.name = some f

theorem Registered.constant {engine : Engine} {f : Function} (h : Registered engine f) :
    ∀ p ∈ f.signature.params, ∀ e, p.default = some e → e.constant engine = true := by
  obtain ⟨item, s, t, rfl, hstep, hname, hf⟩ := h
  cases item with
  | prototype sig =>
    obtain ⟨_, haccepted, henv, _⟩ := prototype_ok hstep
    have hsame : sig.name = f.signature.name := Option.some.inj hname
    rw [henv, Functions.find?, Functions.lookup?_put, if_pos hsame] at hf
    cases hf
    exact haccepted.constant
  | function d =>
    obtain ⟨entry, sig, names, hsig, haccepted, hfunctions⟩ := function_accepted hstep
    have hsame : sig.name = f.signature.name := hsig.trans (Option.some.inj hname)
    rw [hfunctions, Functions.define, Functions.find?, Functions.lookup?_put, if_pos hsame] at hf
    cases hf
    exact haccepted.constant
  | «include» | global | struct => cases hname

/-- There is room for a default value that can be called for. -/
theorem defaultExpr_constant {env : Env} {f : Function} {p : Param} {e : Expr}
    (hf : f ∈ env.functions.all) (hp : p ∈ f.signature.params) (he : p.default = some e)
    (hconst : e.constant env.engine = true) {onDefault : Expr → Gen Ty} :
    defaultExpr env env.defaultValues.length e = exprWith env onDefault e := by
  have hmem : e ∈ env.defaultValues := by
    refine List.mem_flatMap.mpr ⟨f.signature, ?_, List.mem_filterMap.mpr ⟨p, hp, he⟩⟩
    exact List.mem_append_right _ (List.mem_map.mpr ⟨f, hf, rfl⟩)
  obtain ⟨n, hn⟩ := Nat.exists_eq_succ_of_ne_zero (List.length_pos_of_mem hmem).ne'
  rw [hn]
  exact constant_congr hconst rfl rfl

/-- An argument that is left out means the default value of its parameter. A call of a registered
function and the same call with the missing default values written out are compiled alike, to the
same instructions and the same scope or the same error; and the code of a default value does not
depend on who calls: not on the variables that are visible there, not on the height of the stack. -/
theorem omitted_arguments_filled {engine : Engine} {f : Function} {env : Env}
    {args fills : List Expr} (hreg : Registered engine f) (hengine : env.engine = engine)
    (hf : env.functions.find? f.signature.name = some f)
    (hfills : fills.map some = (f.signature.params.drop args.length).map (·.default)) :
    expr env (.call f.signature.name args) =
        expr env (.call f.signature.name (args ++ fills)) ∧
      ∀ e ∈ fills, ∃ moves r, ∀ env' : Env, env'.engine = engine →
        env'.structs = env.structs → expr env' e = rote moves r := by
  subst hengine
  have hparam : ∀ e ∈ fills, ∃ p ∈ f.signature.params, p.default = some e := by
    intro e he
    have hmem := List.mem_map_of_mem he (f := some)
    rw [hfills] at hmem
    obtain ⟨p, hp, hdefault⟩ := List.mem_map.mp hmem
    exact ⟨p, List.mem_of_mem_drop hp, hdefault⟩
  constructor
  · refine (call_filled hf ?_ hfills).symm
    intro e he
    obtain ⟨p, hp, hdefault⟩ := hparam e he
    exact defaultExpr_constant (Functions.mem_of_find? hf) hp hdefault
      (hreg.constant p hp e hdefault)
  · intro e he
    obtain ⟨p, hp, hdefault⟩ := hparam e he
    have hconst := hreg.constant p hp e hdefault
    have hrote : ByRote (exprWith env (defaultExpr env 0) e) := constant_byRote hconst
    obtain ⟨moves, r, h⟩ := hrote
    refine ⟨moves, r, ?_⟩
    intro env' hengine hstructs
    exact (constant_congr hconst hengine hstructs).trans h

namespace Saying

def engine : Engine := { constants := [⟨.int, "TRUE", .int 1⟩] }

/-- `void Say(int n, int loud = TRUE, int times = 2)`. -/
def say : Signature :=
  ⟨.void, "Say", [⟨.int, "n", none⟩, ⟨.int, "loud", some (.access ⟨"TRUE", []⟩)⟩,
    ⟨.int, "times", some (.literal (.int 2))⟩]⟩

def fills : List Expr := [.access ⟨"TRUE", []⟩, .literal (.int 2)]

/-- A global has the name of the constant that is a default value. -/
def visible : Env where
  engine := engine
  functions := ⟨[⟨⟨0, say, false⟩, false⟩]⟩
  globals := [⟨"TRUE", .int, false⟩]
  sealed := true

/-- So has a variable of the caller, below three temporaries. -/
def caller : State := ⟨{}, { block := { values := [⟨"TRUE", .int⟩], temps := 3 } }, []⟩

def ops : List Op := [.constI 7, .constI 1, .constI 2, .jump .jsr]

theorem registered : Registered engine ⟨0, say, false⟩ := by
  obtain ⟨t, ht⟩ := @exists_of_gives _ _ _ _ ()
    (functionStep (.prototype say) { env := { engine := engine } }) (by decide +kernel)
  obtain ⟨_, _, henv, _⟩ := prototype_ok ht
  refine ⟨_, _, t, rfl, ht, rfl, ?_⟩
  rw [henv]
  rfl

end Saying

open Saying in
theorem saying_filled :
    (∃ t, expr visible (.call "Say" [.literal (.int 7)]) caller = .ok .void t ∧
      t.code.map (·.op) = ops ∧
      expr visible (.call "Say" (.literal (.int 7) :: fills)) caller = .ok .void t) ∧
    ∃ moves r, ∀ env : Env, env.engine = engine → env.structs = visible.structs →
      expr env (.access ⟨"TRUE", []⟩) = rote moves r := by
  obtain ⟨hcall, hfills⟩ := @omitted_arguments_filled _ _ visible [.literal (.int 7)] fills
    registered rfl rfl rfl
  obtain ⟨t, ht, hops⟩ := @exists_of_writes .void ops
    (expr visible (.call "Say" [.literal (.int 7)]) caller) (by decide +kernel)
  exact ⟨⟨t, ht, hops, (congrFun hcall caller).symm.trans ht⟩, hfills _ List.mem_cons_self⟩

end Build

end NwScript
