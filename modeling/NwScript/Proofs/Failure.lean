-- How a computation can end: as it should, or with a failure that whoever compiles a script has to
-- expect. An error of the compiler itself is never one of those.
import NwScript.Proofs.Machine.Counts

namespace NwScript

/-- Errors to be expected: the script is wrong, has nothing to run, or includes something that is
nowhere to be found. -/
def CompileError.Ordinary : CompileError → Prop
  | .semantic _ | .entryPoint | .missingInclude _ _ => True
  | .internal _ => False

/-- What there is to expect besides errors of the script. -/
structure Outlook where
  /-- The host may break off. -/
  broken : Prop
  /-- There may be no end. -/
  endless : Prop

/-- Failures to be expected. Whatever the outlook, a script can be too large to be counted. -/
def Outlook.Expects (o : Outlook) : Failure → Prop
  | .error e => e.Ordinary
  | .panic cause => cause = .overflow ∨ o.broken
  | .endless => o.endless

theorem Outlook.Expects.cases {o : Outlook} {e : Failure} (h : o.Expects e) :
    (∃ m, e = .semantic m) ∨ e = .entryPoint ∨
      (∃ name searched, e = .missingInclude name searched) ∨ e = .panic .overflow ∨
      (o.broken ∧ ∃ cause, e = .panic cause) ∨ o.endless ∧ e = .endless := by
  cases e with
  | error e =>
    cases e with
    | semantic m => exact .inl ⟨m, rfl⟩
    | entryPoint => exact .inr (.inl rfl)
    | missingInclude name searched => exact .inr (.inr (.inl ⟨name, searched, rfl⟩))
    | internal b => exact h.elim
  | panic cause =>
    rcases h with rfl | h
    · exact .inr (.inr (.inr (.inl rfl)))
    · exact .inr (.inr (.inr (.inr (.inl ⟨h, cause, rfl⟩))))
  | endless => exact .inr (.inr (.inr (.inr (.inr ⟨h, rfl⟩))))

/-! ## Without a state -/

/-- The result is one that is asked for, or a failure to be expected. -/
def Yields {α : Type} (o : Outlook) (x : Except Failure α) (post : α → Prop) : Prop :=
  match x with
  | .ok a => post a
  | .error e => o.Expects e

section Yields

variable {o : Outlook} {α β : Type} {x : Except Failure α} {post post' : α → Prop}

theorem Yields.mono (h : Yields o x post) (hp : ∀ a, post a → post' a) : Yields o x post' := by
  cases x with
  | ok a => exact hp a h
  | error e => exact h

/-- What is known of a result that was asked for can be used as well. -/
theorem Yields.found (h : Yields o x post) : Yields o x fun a => x = .ok a ∧ post a := by
  cases x with
  | ok a => exact ⟨rfl, h⟩
  | error e => exact h

end Yields

/-! ## With a state -/

/-- From a state, a computation ends with a result and a state that are asked for, or with a
failure to be expected. -/
def Meets {σ α : Type} (o : Outlook) (x : EStateM Failure σ α) (s : σ) (post : α → σ → Prop) :
    Prop :=
  match x s with
  | .ok a t => post a t
  | .error e _ => o.Expects e

section Meets

variable {o : Outlook} {σ α β : Type} {s : σ} {x : EStateM Failure σ α} {post post' : α → σ → Prop}

theorem meets_bind {f : α → EStateM Failure σ β} {post : β → σ → Prop} :
    Meets o (x >>= f) s post ↔ Meets o x s fun a t => Meets o (f a) t post := by
  simp only [Meets, bind, EStateM.bind]
  cases x s <;> rfl

theorem Meets.mono (h : Meets o x s post) (hp : ∀ a t, post a t → post' a t) :
    Meets o x s post' := by
  unfold Meets at *
  cases hx : x s with
  | ok a t => exact hp a t (by simpa only [hx] using h)
  | error e t => simpa only [hx] using h

/-- What is known of a run that went well can be used as well. -/
theorem Meets.found (h : Meets o x s post) : Meets o x s fun a t => x s = .ok a t ∧ post a t := by
  unfold Meets at *
  cases hx : x s with
  | ok a t => exact ⟨rfl, by simpa only [hx] using h⟩
  | error e t => simpa only [hx] using h

end Meets

end NwScript
