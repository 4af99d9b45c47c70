-- Default values are written out where a call leaves arguments to them, and calls in a default
-- value can leave arguments to others in turn. Where none of them comes back to itself, there is an
-- end.
import Mathlib.Logic.Relation
import NwScript.Function.Default
import NwScript.Proofs.Codegen.Emits

namespace NwScript

/-! ## Calls -/

namespace Expr

mutual

/-- The calls in an expression, each with the number of its arguments. -/
def calls : Expr → List (Name × Nat)
  | .literal _ | .access _ | .step _ _ _ => []
  | .vector x y z => x.calls ++ y.calls ++ z.calls
  | .assign _ _ e | .unary _ e => e.calls
  | .binary _ l r => l.calls ++ r.calls
  | .call name args => (name, args.length) :: callsOfAll args

def callsOfAll : List Expr → List (Name × Nat)
  | [] => []
  | e :: rest => e.calls ++ callsOfAll rest

end

theorem calls_constant {engine : Engine} {e : Expr} (h : e.constant engine = true) :
    e.calls = [] := by
  fun_induction e.constant engine with
  | case1 _ => simp [calls]
  | case2 x y z hx hy hz =>
    simp only [Bool.and_eq_true] at h
    simp [calls, hx h.1.1, hy h.1.2, hz h.2]
  | case3 _ _ _ => simp [calls]
  | case4 _ _ => simp [calls]
  | case5 _ _ he => simp [calls, he h]
  | case6 _ l r hl hr =>
    simp only [Bool.and_eq_true] at h
    simp [calls, hl h.1, hr h.2]
  | _ => cases h

end Expr

/-! ## Default values that need others -/

/-- What a call of a name refers to. The functions of the script come before the routines. -/
def Env.called? (env : Env) (name : Name) : Option Signature :=
  ((env.functions.find? name).map (·.signature)).or ((env.engine.routine? name).map (·.2))

/-- Some call in the first expression leaves an argument to the second one. -/
def Env.Needs (env : Env) (e d : Expr) : Prop :=
  ∃ call ∈ e.calls, ∃ sig, env.called? call.1 = some sig ∧
    ∃ p ∈ sig.params.drop call.2, p.default = some d

/-- No default value needs itself. -/
def Env.Grounded (env : Env) : Prop := ∀ d, ¬Relation.TransGen env.Needs d d

/-- No default value of a routine needs itself. -/
def Engine.Grounded (engine : Engine) : Prop := ({ engine } : Env).Grounded

section Needs

variable {env : Env} {d e : Expr}

theorem Env.Needs.mem (h : env.Needs e d) : d ∈ env.defaultValues := by
  obtain ⟨call, _, sig, hsig, p, hp, hd⟩ := h
  refine List.mem_flatMap.mpr ⟨sig, ?_, List.mem_filterMap.mpr ⟨p, List.mem_of_mem_drop hp, hd⟩⟩
  rw [List.mem_append]
  rcases Option.or_eq_some_iff.mp hsig with hf | ⟨_, hr⟩
  · obtain ⟨f, hfind, rfl⟩ := Option.map_eq_some_iff.mp hf
    exact .inr (List.mem_map.mpr ⟨f, Functions.mem_of_find? hfind, rfl⟩)
  · obtain ⟨⟨index, routine⟩, hfind, rfl⟩ := Option.map_eq_some_iff.mp hr
    exact .inl (List.mem_of_getElem? (Engine.routine_at hfind))

/-- Where the functions of the script have only constants for default values, these need nothing
more, and all else is up to the engine. -/
theorem Env.Needs.engine (h : env.Needs e d)
    (hconstant : ∀ f ∈ env.functions.all, ∀ p ∈ f.signature.params, ∀ d, p.default = some d →
      d.constant env.engine = true) :
    d.calls = [] ∨ ({ engine := env.engine } : Env).Needs e d := by
  obtain ⟨call, hcall, sig, hsig, p, hp, hd⟩ := h
  rcases Option.or_eq_some_iff.mp hsig with hf | ⟨_, hr⟩
  · obtain ⟨f, hfind, rfl⟩ := Option.map_eq_some_iff.mp hf
    exact .inl (Expr.calls_constant (hconstant f (Functions.mem_of_find? hfind) p
      (List.mem_of_mem_drop hp) d hd))
  · exact .inr ⟨call, hcall, sig, hr, p, hp, hd⟩

end Needs

/-! ## One inside the other -/

/-- Default values on the way to another one, each of which needs it. -/
structure Env.Trail (env : Env) (behind : List Expr) (d : Expr) : Prop where
  nodup : behind.Nodup
  needs : ∀ e ∈ behind, e ∈ env.defaultValues ∧ Relation.TransGen env.Needs e d
  mem : d ∈ env.defaultValues

namespace Env.Trail

variable {env : Env} {behind : List Expr} {d e : Expr}

theorem start (h : env.Needs e d) : env.Trail [] d := ⟨.nil, by simp, h.mem⟩

theorem fresh (ht : env.Trail behind e) (h : env.Grounded) : e ∉ behind := fun he =>
  h e (ht.needs e he).2

theorem next (ht : env.Trail behind e) (h : env.Grounded) (hneeds : env.Needs e d) :
    env.Trail (e :: behind) d := by
  refine ⟨List.nodup_cons.mpr ⟨ht.fresh h, ht.nodup⟩, List.forall_mem_cons.mpr ⟨?_, ?_⟩, hneeds.mem⟩
  · exact ⟨ht.mem, .single hneeds⟩
  · exact fun x hx => ⟨(ht.needs x hx).1, (ht.needs x hx).2.tail hneeds⟩

end Env.Trail

end NwScript
