-- What a computation that ended well has done: each of its steps ended well, one after another.
import NwScript.Build.Session

namespace NwScript

theorem except_bind_ok {ε α β : Type} {x : Except ε α} {f : α → Except ε β} {b : β} :
    (x >>= f) = .ok b ↔ ∃ a, x = .ok a ∧ f a = .ok b := by
  cases x with
  | error e => simp [bind, Except.bind]
  | ok a => simp [bind, Except.bind]

theorem except_pure_ok {ε α : Type} {a b : α} : (pure a : Except ε α) = .ok b ↔ a = b := by
  simp [pure, Except.pure]

/-- A test that only refuses was passed, if what follows it succeeds. -/
theorem except_refuse_ok {ε α β : Type} {c : Prop} [Decidable c] {e : ε} {f : α → Except ε β}
    {x : Except ε β} {b : β} :
    (if c then throw e >>= f else x) = .ok b ↔ ¬c ∧ x = .ok b := by
  by_cases hc : c
  · simp [hc, throw, throwThe, MonadExceptOf.throw, bind, Except.bind]
  · simp [hc]

theorem except_require_ok {ε α β : Type} {c : Prop} [Decidable c] {e : ε} {f : α → Except ε β}
    {x : Except ε β} {b : β} :
    (if c then x else throw e >>= f) = .ok b ↔ c ∧ x = .ok b := by
  by_cases hc : c
  · simp [hc]
  · simp [hc, throw, throwThe, MonadExceptOf.throw, bind, Except.bind]

section State

variable {ε σ α β : Type} {s t : σ}

theorem bind_ok {x : EStateM ε σ α} {f : α → EStateM ε σ β} {b : β} :
    (x >>= f) s = .ok b t ↔ ∃ a u, x s = .ok a u ∧ f a u = .ok b t := by
  simp only [bind, EStateM.bind]
  cases x s with
  | error e u => simp
  | ok a u =>
    constructor
    · intro h
      exact ⟨a, u, rfl, h⟩
    · rintro ⟨_, _, h, hf⟩
      cases h
      exact hf

theorem bind_error {x : EStateM ε σ α} {f : α → EStateM ε σ β} {e : ε} (h : x s = .error e t) :
    (x >>= f) s = .error e t := by
  simp only [bind, EStateM.bind, h]

theorem bind_of_ok {x : EStateM ε σ α} {f : α → EStateM ε σ β} {a : α} (h : x s = .ok a t) :
    (x >>= f) s = f a t := by
  simp only [bind, EStateM.bind, h]

theorem pure_ok {a b : α} : (pure a : EStateM ε σ α) s = .ok b t ↔ a = b ∧ s = t := by
  simp [pure, EStateM.pure]

theorem throw_ok {e : ε} {a : α} : (throw e : EStateM ε σ α) s = .ok a t ↔ False := by
  constructor
  · intro h
    cases h
  · exact False.elim

theorem get_ok {a : σ} : (get : EStateM ε σ σ) s = .ok a t ↔ s = a ∧ s = t := by
  constructor
  · intro h
    cases h
    exact ⟨rfl, rfl⟩
  · rintro ⟨rfl, rfl⟩
    rfl

theorem set_ok {x : σ} {u : PUnit} : (set x : EStateM ε σ PUnit) s = .ok u t ↔ t = x := by
  constructor
  · intro h
    cases h
    rfl
  · rintro rfl
    rfl

theorem modify_ok {f : σ → σ} {u : PUnit} :
    (modify f : EStateM ε σ PUnit) s = .ok u t ↔ t = f s := by
  constructor
  · intro h
    cases h
    rfl
  · rintro rfl
    rfl

theorem refuse_ok {c : Prop} [Decidable c] {e : ε} {f : α → EStateM ε σ β} {x : EStateM ε σ β}
    {b : β} :
    (if c then throw e >>= f else x) s = .ok b t ↔ ¬c ∧ x s = .ok b t := by
  by_cases hc : c
  · simp [hc, bind_ok, throw_ok]
  · simp [hc]

theorem require_ok {c : Prop} [Decidable c] {e : ε} {f : α → EStateM ε σ β} {x : EStateM ε σ β}
    {b : β} :
    (if c then x else throw e >>= f) s = .ok b t ↔ c ∧ x s = .ok b t := by
  by_cases hc : c
  · simp [hc]
  · simp [hc, bind_ok, throw_ok]

theorem focus_ok {τ : Type} {part : σ → τ} {withPart : σ → τ → σ} {x : EStateM ε τ α} {a : α} :
    focus part withPart x s = .ok a t ↔ ∃ u, x (part s) = .ok a u ∧ t = withPart s u := by
  unfold focus
  split
  · rename_i b u hx
    simp only [hx, EStateM.Result.ok.injEq]
    constructor
    · rintro ⟨rfl, rfl⟩
      exact ⟨u, ⟨rfl, rfl⟩, rfl⟩
    · rintro ⟨_, ⟨rfl, rfl⟩, rfl⟩
      exact ⟨rfl, rfl⟩
  · rename_i e u hx
    simp [hx]

theorem focus_error {τ : Type} {part : σ → τ} {withPart : σ → τ → σ} {x : EStateM ε τ α} {e : ε}
    {u : τ} (h : x (part s) = .error e u) : focus part withPart x s = .error e (withPart s u) := by
  simp only [focus, h]

/-- Two steps on the same part, one after another. -/
theorem focus_bind {τ : Type} {part : σ → τ} {withPart : σ → τ → σ} {x : EStateM ε τ α}
    {k : α → EStateM ε τ β} (hpart : ∀ s t, part (withPart s t) = t)
    (hagain : ∀ s t u, withPart (withPart s t) u = withPart s u) :
    focus part withPart (x >>= k) =
      focus part withPart x >>= fun a => focus part withPart (k a) := by
  funext s
  cases h : x (part s) with
  | ok a t =>
    rw [bind_of_ok (focus_ok.mpr ⟨t, h, rfl⟩)]
    simp only [focus, bind_of_ok h, hpart, hagain]
  | error e t => rw [bind_error (focus_error h), focus_error (bind_error h)]

theorem error_of_focus {τ : Type} {part : σ → τ} {withPart : σ → τ → σ} {x : EStateM ε τ α} {e : ε}
    (h : focus part withPart x s = .error e t) :
    ∃ u, x (part s) = .error e u ∧ t = withPart s u := by
  cases hx : x (part s) with
  | ok a u => simp [focus, hx] at h
  | error e' u =>
    rw [focus_error hx] at h
    cases h
    exact ⟨u, rfl, rfl⟩

/-- Whether a run has ended well and given a result. -/
def gives [DecidableEq α] (a : α) : EStateM.Result ε σ α → Bool
  | .ok b _ => b == a
  | .error _ _ => false

theorem exists_of_gives [DecidableEq α] {a : α} {r : EStateM.Result ε σ α} (h : gives a r = true) :
    ∃ t, r = .ok a t := by
  cases r with
  | error e t => cases h
  | ok b t =>
    cases eq_of_beq h
    exact ⟨t, rfl⟩

/-- Whether a run has failed in a state that is as asked for. -/
def failsAt (p : σ → Bool) : EStateM.Result ε σ α → Bool
  | .ok _ _ => false
  | .error _ t => p t

theorem exists_of_failsAt {p : σ → Bool} {r : EStateM.Result ε σ α} (h : failsAt p r = true) :
    ∃ e t, r = .error e t ∧ p t = true := by
  cases r with
  | ok a t => cases h
  | error e t => exact ⟨e, t, rfl, h⟩

end State

end NwScript
