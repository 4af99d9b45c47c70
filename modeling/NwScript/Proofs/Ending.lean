-- Where a computation ends, whether or not it ends well: what it has done up to an error stays
-- done.
import Mathlib.Order.Defs.Unbundled
import NwScript.Proofs.Success

namespace NwScript

variable {ε σ α β : Type}

/-- The state that a run has left behind. -/
def ending : EStateM.Result ε σ α → σ
  | .ok _ t => t
  | .error _ t => t

/-- However the computation ends, the state has moved along the relation. -/
def Moves (R : σ → σ → Prop) (x : EStateM ε σ α) : Prop := ∀ s, R s (ending (x s))

/-- If the computation fails, the state has moved along the relation until then. -/
def MovesToError (R : σ → σ → Prop) (x : EStateM ε σ α) : Prop :=
  ∀ s e t, x s = .error e t → R s t

/-- The computation ends well from every state. -/
def Succeeds (x : EStateM ε σ α) : Prop := ∀ s, ∃ a t, x s = .ok a t

section Moves

variable {R : σ → σ → Prop} {x : EStateM ε σ α} {f : α → EStateM ε σ β} {s t : σ}

theorem Moves.ok {a : α} (h : Moves R x) (hx : x s = .ok a t) : R s t := by
  have := h s
  rwa [hx] at this

theorem Moves.error {e : ε} (h : Moves R x) (hx : x s = .error e t) : R s t := by
  have := h s
  rwa [hx] at this

theorem moves_modify {f : σ → σ} (h : ∀ s, R s (f s)) : Moves R (modify f : EStateM ε σ PUnit) := h

theorem moves_pure [Std.Refl R] (a : α) : Moves R (pure a : EStateM ε σ α) := refl_of R

theorem moves_throw [Std.Refl R] (e : ε) : Moves R (throw e : EStateM ε σ α) := refl_of R

theorem moves_get [Std.Refl R] : Moves R (get : EStateM ε σ σ) := refl_of R

/-- Whatever becomes of the part, the whole has moved along the relation. -/
theorem moves_focus {τ : Type} {part : σ → τ} {withPart : σ → τ → σ} {x : EStateM ε τ α}
    (h : ∀ s t, R s (withPart s t)) : Moves R (focus part withPart x) := by
  intro s
  unfold focus
  split
  · exact h s _
  · exact h s _

theorem Moves.bind [IsTrans σ R] (hx : Moves R x) (hf : ∀ a, Moves R (f a)) :
    Moves R (x >>= f) := by
  intro s
  simp only [Bind.bind, EStateM.bind]
  cases h : x s with
  | error e t => exact hx.error h
  | ok a t => exact trans_of R (hx.ok h) (hf a t)

theorem Moves.bindToError [IsTrans σ R] (hx : Moves R x) (hf : ∀ a, MovesToError R (f a)) :
    MovesToError R (x >>= f) := by
  intro s e t h
  simp only [Bind.bind, EStateM.bind] at h
  cases hs : x s with
  | error e' u =>
    rw [hs] at h
    cases h
    exact hx.error hs
  | ok a u =>
    rw [hs] at h
    exact trans_of R (hx.ok hs) (hf a u e t h)

/-- A failure comes from the first step, if what follows cannot fail. -/
theorem error_of_succeeds {e : ε} (hf : ∀ a, Succeeds (f a)) (h : (x >>= f) s = .error e t) :
    x s = .error e t := by
  simp only [Bind.bind, EStateM.bind] at h
  cases hs : x s with
  | error e' u =>
    rw [hs] at h
    cases h
    rfl
  | ok a u =>
    obtain ⟨b, v, hb⟩ := hf a u
    rw [hs] at h
    cases hb.symm.trans h

end Moves

end NwScript
