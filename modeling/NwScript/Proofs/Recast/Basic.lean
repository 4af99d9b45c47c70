-- The same script compiled in other circumstances: handles that start further on, other names for
-- the variables, more temporaries on the stack. Here is what becomes of everything that code
-- generation reads, and that variables are found again.
import Mathlib.Logic.Function.Basic
import NwScript.Proofs.Coupling
import NwScript.Proofs.Script.Renaming
import NwScript.Proofs.Shape.Place

namespace NwScript

structure Recast where
  /-- How much further on the handles are. -/
  moved : Nat
  /-- The new name of a variable. -/
  name : Name → Name
  injective : Function.Injective name
  /-- How many more temporaries the innermost block has. -/
  raised : Int

namespace Recast

variable (c : Recast)

/-! ## What is written -/

def handle (h : Handle) : Handle := h + c.moved

/-- What is found from the top of the stack is further down, and a snapshot has to reach as far. -/
def op : Op → Op
  | .copyDown .sp offset size => .copyDown .sp (offset - c.raised) size
  | .copyTop .sp offset size => .copyTop .sp (offset - c.raised) size
  | .step op .sp offset => .step op .sp (offset - c.raised)
  | .storeState globals locals => .storeState globals (locals + c.raised)
  | op => op

def instruction (i : Instruction) : Instruction :=
  ⟨c.handle i.handle, c.op i.op, i.target.map c.handle⟩

def stream (s : Stream) : Stream := ⟨s.code.map c.instruction, c.handle s.next⟩

/-! ## What is read -/

def value (v : Variable) : Variable := { v with name := c.name v.name }

def block (b : Block) : Block :=
  { b with
    values := b.values.map c.value
    locals := b.locals.map fun l => (c.name l.1, l.2)
    breakTo := b.breakTo.map c.handle
    continueTo := b.continueTo.map c.handle }

def scope (s : Scope) : Scope := Scope.grown ⟨c.block s.block, s.outer.map c.block⟩ c.raised

def global (g : Global) : Global := { g with name := c.name g.name }

def function (f : Function) : Function :=
  { f with entry := c.handle f.entry, signature := f.signature.renamed c.name }

def entry (f : Entry) : Entry := ⟨c.function f.toFunction, f.called⟩

def functions (fs : Functions) : Functions := ⟨fs.entries.map c.entry⟩

def env (e : Env) : Env :=
  { e with functions := c.functions e.functions, globals := e.globals.map c.global }

/-- Messages name variables, so an error is the same only if their names are. -/
def SameError (e e' : Failure) : Prop := c.name = id → e' = e

/-- Two results go together. With more temporaries other numbers are counted. -/
abbrev Matches {α β : Type} (f : α → β) (x : Except Failure α) (y : Except Failure β) : Prop :=
  Matched (c.raised ≠ 0) c.SameError f x y

/-- The names of an engine's constants are kept, and no variable gets one of them. -/
structure Respects (engine : Engine) : Prop where
  constant : ∀ n, engine.constant? (c.name n) = engine.constant? n
  default : ∀ r ∈ engine.routines, ∀ p ∈ r.params, p.default.map (·.renamed c.name) = p.default

variable {c}

theorem sameError_refl (e : Failure) : c.SameError e e := fun _ => rfl

theorem handle_injective : Function.Injective c.handle := fun _ _ => Nat.add_right_cancel

theorem name_beq (m n : Name) : (c.name m == c.name n) = (m == n) := by
  rw [Bool.eq_iff_iff, beq_iff_eq, beq_iff_eq]
  exact c.injective.eq_iff

/-- Without more temporaries the instructions do what they did. -/
theorem op_of_level (h : c.raised = 0) (op : Op) : c.op op = op := by
  cases op with
  | copyDown anchor _ _ | copyTop anchor _ _ | step _ anchor _ =>
    cases anchor <;> simp [Recast.op, h]
  | storeState _ _ => simp [Recast.op, h]
  | _ => rfl

theorem under_of_level (h : c.raised = 0) (r : Resolved) : r.under c.raised = r := by
  obtain ⟨_, _, anchor, _⟩ := r
  cases anchor <;> simp [Resolved.under, h]

theorem op_load (r : Resolved) (size : Int) :
    c.op (r.load size) = (r.under c.raised).load size := by
  obtain ⟨_, _, anchor, _⟩ := r
  cases anchor <;> rfl

theorem op_store (r : Resolved) (size : Int) :
    c.op (r.store size) = (r.under c.raised).store size := by
  obtain ⟨_, _, anchor, _⟩ := r
  cases anchor <;> rfl

theorem matches_same {α : Type} (x : Except Failure α) : c.Matches id x x := .same sameError_refl x

theorem checked_lowered (n : Int) :
    c.Matches (· - c.raised) (Count.checked n) (Count.checked (n - c.raised)) := by
  refine .checked sameError_refl fun hne hlevel => hne ?_
  rw [hlevel, Int.sub_zero]

theorem checked_raised (n : Int) :
    c.Matches (· + c.raised) (Count.checked n) (Count.checked (n + c.raised)) := by
  refine .checked sameError_refl fun hne hlevel => hne ?_
  rw [hlevel, Int.add_zero]

/-! ## Scopes and functions -/

theorem block_scope (h : c.raised = 0) (s : Scope) : (c.scope s).block = c.block s.block := by
  simp [scope, h]

theorem chain_scope (h : c.raised = 0) (s : Scope) : (c.scope s).chain = s.chain.map c.block := by
  simp [scope, h, Scope.chain]

theorem scope_child (h : c.raised = 0) (s : Scope) (b : Block) :
    c.scope (s.child b) = (c.scope s).child (c.block b) := by
  simp [scope, h, Scope.child, Scope.chain]

theorem scope_empty (h : c.raised = 0) : c.scope {} = {} := by
  simp [scope, h, block]

theorem local?_block (b : Block) (name : Name) :
    (c.block b).local? (c.name name) = b.local? name := by
  simp only [Block.local?, block]
  induction b.locals with
  | nil => rfl
  | cons l rest ih =>
    obtain ⟨n, l⟩ := l
    simp only [List.map_cons, List.lookup_cons, name_beq, ih]

theorem lookup?_functions (fs : Functions) (name : Name) :
    (c.functions fs).lookup? name = (fs.lookup? name).map c.entry := by
  simp only [Functions.lookup?, functions, List.find?_map]
  rfl

theorem find?_functions (fs : Functions) (name : Name) :
    (c.functions fs).find? name = (fs.find? name).map c.function := by
  simp only [Functions.find?, lookup?_functions, Option.map_map]
  rfl

/-! ## Sizes -/

variable {env : Env}

@[simp] theorem sizeOf_env (ty : Ty) : (c.env env).sizeOf ty = env.sizeOf ty := rfl

theorem stacked_env (height : Nat) (tys : List Ty) :
    (c.env env).stacked height tys = env.stacked height tys := by
  induction tys generalizing height with
  | nil => rfl
  | cons ty rest ih => simp only [Env.stacked, sizeOf_env, ih]

theorem hung_env (depth : Int) (tys : List Ty) :
    (c.env env).hung depth tys = env.hung depth tys := by
  induction tys generalizing depth with
  | nil => rfl
  | cons ty rest ih => simp only [Env.hung, sizeOf_env, ih]

@[simp] theorem globalSize_env : (c.env env).globalSize = env.globalSize := by
  have htypes : (c.env env).globals.map (·.ty) = env.globals.map (·.ty) := by
    simp [Recast.env, global]
  rw [Env.globalSize, hung_env, htypes, Env.globalSize]

@[simp] theorem size_block (b : Block) : (c.block b).size (c.env env) = b.size env := by
  have htypes : (c.block b).values.reverse.map (·.ty) = b.values.reverse.map (·.ty) := by
    simp [block, value, ← List.map_reverse]
  rw [Block.size, stacked_env, htypes, Block.size]

theorem height_blocks (chain : List Block) :
    Scope.height (c.env env) (chain.map c.block) = Scope.height env chain := by
  induction chain with
  | nil => rfl
  | cons b outer ih =>
    rw [List.map_cons, Scope.height, Scope.height, size_block, ih]
    rfl

theorem fullSize_scope (s : Scope) :
    c.Matches (· + c.raised) (s.fullSize env) ((c.scope s).fullSize (c.env env)) := by
  simp only [Scope.fullSize, Scope.chain, scope, Scope.grown, Scope.height]
  have hsize : Block.size { c.block s.block with temps := (c.block s.block).temps + c.raised }
      (c.env env) = s.block.size env := size_block s.block
  rw [hsize, height_blocks]
  refine (matches_same _).bind fun own => ?_
  have hown : (own : Int) + ((c.block s.block).temps + c.raised) =
      own + s.block.temps + c.raised := (Int.add_assoc ..).symm
  rw [id, hown]
  refine (checked_raised _).bind fun own => (matches_same _).bind fun below => ?_
  rw [id, Int.add_right_comm]
  exact checked_raised _

theorem declare_block (b : Block) (name : Name) (ty : Ty) :
    c.Matches c.block (b.declare env name ty)
      ((c.block b).declare (c.env env) (c.name name) ty) := by
  unfold Block.declare
  exact (matches_same _).bind fun _ => (matches_same _).bind fun _ => .ok

theorem unwind_blocks {target : Block → Option Handle}
    (htarget : ∀ b, target (c.block b) = (target b).map c.handle) (chain : List Block)
    (passed : Int) :
    c.Matches (Option.map fun way => (c.handle way.1, way.2))
      (Scope.unwind env target chain passed)
      (Scope.unwind (c.env env) target (chain.map c.block) passed) := by
  induction chain generalizing passed with
  | nil => exact .ok
  | cons b outer ih =>
    rw [List.map_cons, Scope.unwind, Scope.unwind, size_block, htarget]
    refine (matches_same _).bind fun size => (matches_same _).bind fun own => ?_
    refine (matches_same _).bind fun passed => ?_
    cases target b with
    | none => exact ih _
    | some h => exact .ok

/-! ## Finding variables -/

theorem seekGlobal_recast (name : Name) (above : Int) (gs : List Global) (below : Int) :
    c.Matches (·.under c.raised) (env.seekGlobal name above gs below)
      ((c.env env).seekGlobal (c.name name) (above - c.raised) (gs.map c.global) below) := by
  induction gs generalizing below with
  | nil =>
    refine .error fun hname => ?_
    simp [Recast.env, global, hname, Function.comp_def]
  | cons g older ih =>
    rw [List.map_cons, Env.seekGlobal, Env.seekGlobal]
    refine (matches_same _).bind fun size => (matches_same _).bind fun below => ?_
    refine .ite c.injective.eq_iff.symm (fun _ => ?_) fun _ => ih _
    refine .ite Iff.rfl (fun _ => .ok) fun _ => ?_
    have hmove : above - c.raised + id below = above + below - c.raised := by
      simp only [id]
      omega
    rw [hmove]
    exact (checked_lowered _).bind fun _ => .ok

theorem seek_recast {below below' : Int → Except Failure Resolved} (name : Name)
    (hbelow : ∀ offset, c.Matches (·.under c.raised) (below offset) (below' (offset - c.raised)))
    (vs : List Variable) (offset : Int) :
    c.Matches (·.under c.raised) (Scope.seek env name below vs offset)
      (Scope.seek (c.env env) (c.name name) below' (vs.map c.value) (offset - c.raised)) := by
  induction vs generalizing offset with
  | nil => exact hbelow offset
  | cons v older ih =>
    rw [List.map_cons, Scope.seek, Scope.seek]
    refine (matches_same _).bind fun size => ?_
    have hmove : offset - c.raised - (size : Int) = offset - size - c.raised := by omega
    rw [id, hmove]
    refine (checked_lowered _).bind fun offset => ?_
    exact .ite c.injective.eq_iff.symm (fun _ => .ok) fun _ => ih _

theorem resolveIn_recast (name : Name) (chain : List Block) (offset : Int) :
    c.Matches (·.under c.raised) (Scope.resolveIn env name chain offset)
      (Scope.resolveIn (c.env env) (c.name name) (chain.map c.block) (offset - c.raised)) := by
  induction chain generalizing offset with
  | nil =>
    have h := @seekGlobal_recast c env name offset env.globals.reverse 0
    rwa [List.map_reverse] at h
  | cons b outer ih =>
    rw [List.map_cons, Scope.resolveIn, Scope.resolveIn]
    have hmove : offset - c.raised - (c.block b).temps = offset - b.temps - c.raised := by
      simp only [block]
      omega
    rw [hmove]
    exact (checked_lowered _).bind fun offset => seek_recast name ih b.values offset

/-- A variable is where it was, under the temporaries that have come on top. -/
theorem resolve_recast (s : Scope) (name : Name) :
    c.Matches (·.under c.raised) (s.resolve env name)
      ((c.scope s).resolve (c.env env) (c.name name)) := by
  have h := @resolveIn_recast c env name s.chain 0
  rw [Scope.chain, List.map_cons, Scope.resolveIn, Scope.resolveIn] at h
  simp only [Scope.resolve, Scope.resolveFrom, Scope.chain, scope, Scope.grown, Scope.resolveIn]
  have hmove : (0 : Int) - ((c.block s.block).temps + c.raised) =
      0 - c.raised - (c.block s.block).temps := by omega
  rwa [hmove]

/-- One step down a chain of members. -/
theorem member_recast {k l : Int → Except Failure Resolved} (r : Resolved) (distance : Int)
    (h : ∀ offset, c.Matches (·.under c.raised) (k offset)
      (l (Resolved.under { r with offset } c.raised).offset)) :
    c.Matches (·.under c.raised) (Count.checked (r.offset + distance) >>= k)
      (Count.checked ((r.under c.raised).offset + distance) >>= l) := by
  obtain ⟨_, offset, anchor, _⟩ := r
  cases anchor with
  | sp =>
    have hmove : offset - c.raised + distance = offset + distance - c.raised := by omega
    simp only [Resolved.under, hmove] at h ⊢
    exact (checked_lowered _).bind h
  | bp => exact (matches_same _).bind h

theorem under_found (r : Resolved) (ty : Ty) (offset k : Int) :
    ({ r.under k with ty, offset := (Resolved.under { r with offset } k).offset } : Resolved) =
      Resolved.under { r with ty, offset } k := by
  obtain ⟨_, _, anchor, _⟩ := r
  cases anchor <;> rfl

theorem follow_recast {path path' : Access} (hpath : c.name = id → path' = path) (r : Resolved)
    (members : List Name) :
    c.Matches (·.under c.raised) (Codegen.follow env path r members)
      (Codegen.follow (c.env env) path' (r.under c.raised) members) := by
  induction members generalizing r with
  | nil => exact .ok
  | cons m rest ih =>
    simp only [Codegen.follow, Resolved.under_ty]
    split
    · split
      · refine member_recast r _ fun offset => ?_
        rw [under_found]
        exact ih _
      · exact .error fun _ => rfl
    · refine (matches_same _).bind fun distance => member_recast r _ fun offset => ?_
      refine (matches_same _).bind fun ty => ?_
      rw [under_found]
      exact ih _
    · refine .error fun hname => ?_
      rw [hpath hname]

theorem access_recast (s : Scope) (path : Access) :
    c.Matches (·.under c.raised) (Codegen.resolveAccess env s path)
      (Codegen.resolveAccess (c.env env) (c.scope s) (path.renamed c.name)) := by
  unfold Codegen.resolveAccess
  refine (resolve_recast s path.head).bind fun r => ?_
  refine follow_recast (fun hname => ?_) r path.members
  rw [hname]
  rfl

end Recast

end NwScript
