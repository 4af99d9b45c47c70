-- Code for statements fails only because of the script. Every statement leaves the temporaries as
-- they were, so that every block ends with none.
import NwScript.Proofs.Codegen.Failures
import NwScript.Proofs.Codegen.Lays

namespace NwScript

section Sized

variable {env : Env} {s : Scope}

theorem Scope.Sized.child {b : Block} (h : s.Sized env) (hb : b.values = []) :
    (s.child b).Sized env := by
  simpa [Scope.Sized, Scope.chain, Scope.child, hb] using h

theorem Scope.Sized.declared {name : Name} {ty : Ty} {size : Nat} (h : s.Sized env)
    (hty : env.Sized ty) : (s.declared name ty size).Sized env := by
  simp only [Scope.Sized, Scope.chain, Scope.declared, Block.push, List.mem_cons,
    forall_eq_or_imp] at h ⊢
  exact ⟨⟨hty, h.1⟩, h.2⟩

end Sized

namespace Codegen

/-! ## Parts of statements -/

section Parts

variable {o : Outlook} {env : Env} {s : State}

end Parts

/-! ## Statements -/

/-- The step leaves the temporaries of the block as they were, and all variables have sizes. -/
def Balances {α : Type} (o : Outlook) (env : Env) (x : Gen α) : Prop :=
  ∀ s : State, s.scope.Sized env → Meets o x s fun _ t =>
    t.scope.Sized env ∧ t.scope.block.temps = s.scope.block.temps

section Statements

variable {o : Outlook} {α : Type} {env : Env} {s : State} {frame : Frame}

theorem Balances.bind {β : Type} {x : Gen α} {f : α → Gen β} (hx : Balances o env x)
    (hf : ∀ a, Balances o env (f a)) : Balances o env (x >>= f) := by
  intro s hs
  simp only [meets_bind]
  refine (hx s hs).mono fun a t ht => ?_
  exact (hf a t ht.1).mono fun _ u hu => ⟨hu.1, hu.2.trans ht.2⟩

end Statements

/-! ## Bodies -/

section Bodies

variable {o : Outlook} {env : Env} {s : State}

end Bodies

end Codegen

end NwScript
