-- Code for expressions fails only because of the script. In an environment where all sizes are
-- known, every expression pushes a value whose size is known, and counts its slots.
import NwScript.Proofs.Codegen.Grounded
import NwScript.Proofs.Storage.Sized

namespace NwScript

/-! ## Scopes and engines -/

section Sized

variable {env : Env} {s : Scope}

@[simp] theorem Scope.sized_grown {k : Int} : (s.grown k).Sized env ↔ s.Sized env := by
  simp [Scope.Sized, Scope.chain, Scope.grown]

theorem Engine.Admissible.routine {engine : Engine} {name : Name} {index : Nat}
    {routine : Signature} (h : engine.Admissible) (env : Env)
    (hr : engine.routine? name = some (index, routine)) :
    index < 0x10000 ∧ routine.params.length < 0x100 ∧ env.Sized routine.returnType := by
  have hat := Engine.routine_at hr
  have hmem := List.mem_of_getElem? hat
  obtain ⟨hlt, _⟩ := List.getElem?_eq_some_iff.mp hat
  refine ⟨?_, ?_, env.sized_builtin (h.returns _ hmem)⟩
  · have := h.routines
    omega
  · have := h.params _ hmem
    omega

end Sized

namespace Codegen

/-! ## Steps -/

section Steps

variable {o : Outlook} {α β : Type} {s : State} {env : Env}

variable {post : Unit → State → Prop}

end Steps

/-! ## Expressions -/

/-- The step pushes some values on top of others, counts their slots and says how many there are
now. -/
def PushesSlots (o : Outlook) (env : Env) (pushed : Nat) (x : Gen Nat) : Prop :=
  ∀ s : State, s.scope.Sized env → Meets o x s fun k t => t.scope = s.scope.grown (k - pushed)

section Operations

variable {o : Outlook} {env : Env} {s : State}

end Operations

section Calls

variable {o : Outlook} {env : Env} {s : State} {onDefault : Expr → Gen Ty}

/-- The next values go on top of the first ones. -/
theorem PushesSlots.bind {pushed : Nat} {x : Gen Nat} {f : Nat → Gen Nat}
    (hx : PushesSlots o env pushed x) (hf : ∀ k, PushesSlots o env k (f k)) :
    PushesSlots o env pushed (x >>= f) := by
  intro s hs
  simp only [meets_bind]
  refine (hx s hs).mono fun k t ht => ?_
  refine (hf k t (by simpa [ht] using hs)).mono fun l u hu => ?_
  rw [hu, ht, Scope.grown_grown]
  congr 1
  omega

end Calls

section Expressions

variable {o : Outlook} {env : Env} {s : State} {onDefault : Expr → Gen Ty}

end Expressions

end Codegen

end NwScript
