-- Environments in which all sizes are known. There every name leads to a variable that has a size,
-- and the stack has a height; all that can fail are names and members that do not exist.
import NwScript.Proofs.Failure
import NwScript.Proofs.Storage.Spans

namespace NwScript

/-! ## Known sizes -/

def Env.Sized (env : Env) (ty : Ty) : Prop := ∃ n, env.sizeOf ty = .ok n

/-- The slots of a type that is known. -/
def Env.extent (env : Env) (ty : Ty) : Nat := (env.sizeOf ty).toOption.getD 0

theorem Env.sizeOf_extent {env : Env} {ty : Ty} (h : env.Sized ty) :
    env.sizeOf ty = .ok (env.extent ty) := by
  obtain ⟨n, hn⟩ := h
  rw [Env.extent, hn]
  rfl

/-- The slots of some variables together, of which those of unknown types have none. -/
def Env.extents (env : Env) (vs : List Variable) : Nat :=
  vs.foldr (fun v size => env.extent v.ty + size) 0

theorem Env.extents_append (env : Env) (vs ws : List Variable) :
    env.extents (vs ++ ws) = env.extents vs + env.extents ws := by
  induction vs with
  | nil => exact (Nat.zero_add _).symm
  | cons v rest ih => exact (congrArg (_ + ·) ih).trans (Nat.add_assoc ..).symm

/-- Every variable in scope has a size. -/
def Scope.Sized (env : Env) (s : Scope) : Prop :=
  ∀ b ∈ s.chain, ∀ v ∈ b.values, env.Sized v.ty

/-- An engine whose routines fit into the instruction that calls them, and that needs no structs. -/
structure Engine.Admissible (engine : Engine) : Prop where
  routines : engine.routines.length ≤ 65536
  params : ∀ r ∈ engine.routines, r.params.length ≤ 255
  returns : ∀ r ∈ engine.routines, r.returnType.structName? = none
  constants : ∀ c ∈ engine.constants, c.ty.structName? = none

/-- Everything that can be named has a size. -/
structure Env.Sound (env : Env) : Prop where
  laid : Structs.Laid env.structs.layouts
  globals : ∀ g ∈ env.globals, env.Sized g.ty
  returns : ∀ f ∈ env.functions.all, env.Sized f.signature.returnType
  engine : env.engine.Admissible

section Sized

variable {o : Outlook} {env : Env} {ty : Ty}

theorem Env.sized_builtin (h : ty.structName? = none) : env.Sized ty := by
  cases ty with
  | struct name => simp [Ty.structName?] at h
  | _ => exact ⟨_, rfl⟩

theorem Env.Sound.reserve (h : env.Sound) (hs : env.Sized ty) :
    ∃ ops, env.structs.reserve ty = .ok ops := by
  obtain ⟨n, hn⟩ := hs
  obtain ⟨ks, hks, _⟩ := Structs.slots_of_sizeOf h.laid hn
  exact ⟨ks.map .reserve, by simp [Structs.reserve, hks, bind, Except.bind, pure, Except.pure]⟩

end Sized

/-! ## Variables and members -/

section Finding

variable {o : Outlook} {env : Env} {name : Name}

end Finding

/-! ## Heights -/

section Heights

variable {o : Outlook} {env : Env}

theorem sizeOfAll_extents {vs : List Variable} (h : ∀ v ∈ vs, env.Sized v.ty) :
    env.sizeOfAll (vs.map (·.ty)) = .ok (env.extents vs) := by
  induction vs with
  | nil => rfl
  | cons v rest ih =>
    obtain ⟨hv, hrest⟩ := List.forall_mem_cons.mp h
    simp [Env.sizeOfAll, Env.extents, Env.sizeOf_extent hv, ih hrest, bind, Except.bind, pure,
      Except.pure]

theorem extents_reverse {vs : List Variable} : env.extents vs.reverse = env.extents vs := by
  induction vs with
  | nil => rfl
  | cons v rest ih =>
    rw [List.reverse_cons, Env.extents_append, ih]
    exact Nat.add_comm ..

/-- The size of a block is that of its variables, unless they are too many. -/
theorem Block.size_within {b : Block} (h : ∀ v ∈ b.values, env.Sized v.ty) :
    b.size env = Count.within [(env.extents b.values : Int)] (env.extents b.values) := by
  have hall := @sizeOfAll_extents env b.values.reverse fun v hv => h v (List.mem_reverse.mp hv)
  have hsize := stacked_within Count.fits_zero hall
  rwa [Int.natCast_zero, Int.zero_add, Nat.zero_add, extents_reverse] at hsize

/-- What is on the stack of a block. -/
def Block.extent (env : Env) (b : Block) : Int := env.extents b.values + b.temps

/-- What is on the stack of some blocks. -/
def Scope.depth (env : Env) : List Block → Int
  | [] => 0
  | b :: outer => b.extent env + depth env outer

/-- The numbers that come up when the height of some blocks is counted. -/
def Scope.counted (env : Env) : List Block → List Int
  | [] => []
  | b :: outer =>
    (env.extents b.values : Int) :: b.extent env :: (counted env outer ++ [depth env (b :: outer)])

theorem Scope.height_within {chain : List Block}
    (h : ∀ b ∈ chain, ∀ v ∈ b.values, env.Sized v.ty) :
    Scope.height env chain = Count.within (counted env chain) (depth env chain) := by
  induction chain with
  | nil => rfl
  | cons b outer ih =>
    have houter := ih fun b hb => h b (List.mem_cons_of_mem _ hb)
    simp only [Scope.height, Block.size_within (h b List.mem_cons_self), houter,
      Count.checked_within]
    exact Count.within_bind (l := b.extent env :: (counted env outer ++ [depth env (b :: outer)]))
      fun _ => Count.within_bind (l := counted env outer ++ [depth env (b :: outer)]) fun _ =>
        Count.within_bind fun _ => by rfl

theorem Scope.depth_nonneg {chain : List Block} (h : ∀ b ∈ chain, 0 ≤ b.temps) :
    0 ≤ depth env chain := by
  induction chain with
  | nil => exact Int.le_refl 0
  | cons b outer ih =>
    obtain ⟨hb, houter⟩ := List.forall_mem_cons.mp h
    have hnonneg := ih houter
    simp only [depth, Block.extent]
    omega

/-- Where nothing is taken away, the numbers that come up are none too many if the last one is
not. -/
theorem Scope.counted_fits {chain : List Block} (h : ∀ b ∈ chain, 0 ≤ b.temps) :
    (∀ n ∈ counted env chain, Count.Fits n) ↔ ∀ n ∈ [depth env chain], Count.Fits n := by
  rw [List.forall_mem_singleton]
  induction chain with
  | nil => simp [counted, depth, Count.fits_zero]
  | cons b outer ih =>
    obtain ⟨hb, houter⟩ := List.forall_mem_cons.mp h
    have hnonneg := @depth_nonneg env outer houter
    simp only [counted, List.forall_mem_cons, List.forall_mem_append, ih houter, List.not_mem_nil,
      false_implies, implies_true, and_true]
    refine ⟨fun hall => hall.2.2.2, fun hdepth => ?_⟩
    have hdepth' := hdepth
    simp only [depth, Block.extent] at hdepth'
    refine ⟨?_, ?_, ?_, hdepth⟩
    · exact Count.fits_zero.between hdepth' (by omega) (by omega)
    · exact Count.fits_zero.between hdepth' (by unfold Block.extent; omega)
        (by unfold Block.extent; omega)
    · exact Count.fits_zero.between hdepth' hnonneg (by omega)

end Heights

end NwScript
