-- Two computations side by side: run from states that go together, they end alike, in states that
-- go together again. If they count differently, one of them may break off before the other.
import NwScript.Proofs.Success

namespace NwScript

/-! ## Without a state -/

/-- Two results go together: the second is the image of the first, or both are errors. If the two
computations count apart, one of them may have more to count than there are numbers. -/
inductive Matched {α β : Type} (apart : Prop) (fail : Failure → Failure → Prop) (f : α → β) :
    Except Failure α → Except Failure β → Prop
  | ok {a : α} : Matched apart fail f (.ok a) (.ok (f a))
  | error {e e' : Failure} : fail e e' → Matched apart fail f (.error e) (.error e')
  | early {y : Except Failure β} : apart → Matched apart fail f (.error (.panic .overflow)) y
  | late {x : Except Failure α} : apart → Matched apart fail f x (.error (.panic .overflow))

namespace Matched

variable {α β γ δ : Type} {apart : Prop} {fail : Failure → Failure → Prop} {f : α → β} {g : γ → δ}
  {x : Except Failure α} {y : Except Failure β}

theorem of_eq_ok {a : α} {b : β} (h : b = f a) : Matched apart fail f (.ok a) (.ok b) := h ▸ .ok

theorem same (hfail : ∀ e, fail e e) (x : Except Failure α) : Matched apart fail id x x := by
  cases x with
  | ok a => exact .ok
  | error e => exact .error (hfail e)

theorem bind {k : α → Except Failure γ} {l : β → Except Failure δ}
    (hx : Matched apart fail f x y) (hk : ∀ a, Matched apart fail g (k a) (l (f a))) :
    Matched apart fail g (x >>= k) (y >>= l) := by
  cases hx with
  | ok => exact hk _
  | error he => exact .error he
  | early h => exact .early h
  | late h => exact .late h

theorem ite {c c' : Prop} [Decidable c] [Decidable c'] {x' : Except Failure α}
    {y' : Except Failure β} (hc : c ↔ c') (h : c → Matched apart fail f x y)
    (h' : ¬c → Matched apart fail f x' y') :
    Matched apart fail f (if c then x else x') (if c' then y else y') := by
  by_cases hp : c
  · rw [if_pos hp, if_pos (hc.mp hp)]
    exact h hp
  · rw [if_neg hp, if_neg (hp ∘ hc.mpr)]
    exact h' hp

theorem throw {e e' : Failure} {k : γ → Except Failure α} {l : γ → Except Failure β}
    (he : fail e e') : Matched apart fail f (throw e >>= k) (throw e' >>= l) := .error he

/-- Two numbers that are counted, if they are the same or are counted apart. -/
theorem checked {f : Int → Int} {n : Int} (hfail : ∀ e, fail e e) (h : f n ≠ n → apart) :
    Matched apart fail f (Count.checked n) (Count.checked (f n)) := by
  by_cases hsame : f n = n
  · rw [hsame]
    by_cases hn : Count.Fits n
    · rw [Count.checked_of_fits hn]
      exact of_eq_ok hsame.symm
    · rw [Count.checked_of_not_fits hn]
      exact .error (hfail _)
  · by_cases hn : Count.Fits n
    · by_cases hf : Count.Fits (f n)
      · rw [Count.checked_of_fits hn, Count.checked_of_fits hf]
        exact .ok
      · rw [Count.checked_of_not_fits hf]
        exact .late (h hsame)
    · rw [Count.checked_of_not_fits hn]
      exact .early (h hsame)

end Matched

/-! ## With a state -/

/-- What is allowed to two runs that do not count alike. -/
structure Leeway (σ : Type) where
  /-- Whether the first run may break off before the second one. -/
  early : Prop
  /-- Where the second run may break off before the first one. -/
  late : σ → Prop
  /-- How it then is in the first run, as long as that goes on. -/
  beyond : σ → Prop

/-- Two runs end alike: the second gives the image of what the first gives, or both fail. -/
inductive InStep {σ α β : Type} (w : Leeway σ) (post : α → σ → σ → Prop)
    (fail : Failure → Failure → σ → σ → Prop) (f : α → β) :
    EStateM.Result Failure σ α → EStateM.Result Failure σ β → Prop
  | ok {a : α} {s t : σ} : post a s t → InStep w post fail f (.ok a s) (.ok (f a) t)
  | error {e e' : Failure} {s t : σ} :
      fail e e' s t → InStep w post fail f (.error e s) (.error e' t)
  | early {s : σ} {r' : EStateM.Result Failure σ β} :
      w.early → InStep w post fail f (.error (.panic .overflow) s) r'
  | late {r : EStateM.Result Failure σ α} {t : σ} :
      w.late t → (∀ a s, r = .ok a s → w.beyond s) →
      InStep w post fail f r (.error (.panic .overflow) t)

/-- From states that go together two computations end alike, and the first one goes on beyond the
end of the second one. -/
structure Coupled {σ α β : Type} (w : Leeway σ) (pre : σ → σ → Prop) (post : α → σ → σ → Prop)
    (fail : Failure → Failure → σ → σ → Prop) (f : α → β) (x : EStateM Failure σ α)
    (y : EStateM Failure σ β) : Prop where
  steps : ∀ s t, pre s t → InStep w post fail f (x s) (y t)
  keeps : ∀ {s a t}, w.beyond s → x s = .ok a t → w.beyond t

namespace Coupled

variable {σ α β γ δ : Type} {w : Leeway σ} {pre : σ → σ → Prop} {mid : α → σ → σ → Prop}
  {post : γ → σ → σ → Prop} {fail : Failure → Failure → σ → σ → Prop} {f : α → β} {g : γ → δ}
  {x : EStateM Failure σ α} {y : EStateM Failure σ β}

theorem bind {k : α → EStateM Failure σ γ} {l : β → EStateM Failure σ δ}
    (hx : Coupled w pre mid fail f x y)
    (hk : ∀ a, Coupled w (mid a) post fail g (k a) (l (f a))) :
    Coupled w pre post fail g (x >>= k) (y >>= l) where
  steps s t h := by
    have hstep := hx.steps s t h
    cases hy : y t with
    | ok b t₁ =>
      rw [hy] at hstep
      rw [bind_of_ok hy]
      generalize hr : x s = r at hstep
      cases hstep with
      | ok hmid =>
        rw [bind_of_ok hr]
        exact (hk _).steps _ _ hmid
      | early he =>
        rw [bind_error hr]
        exact .early he
    | error e' t₁ =>
      rw [hy] at hstep
      rw [bind_error hy]
      generalize hr : x s = r at hstep
      cases hstep with
      | error hfail =>
        rw [bind_error hr]
        exact .error hfail
      | early he =>
        rw [bind_error hr]
        exact .early he
      | late hl hbeyond =>
        refine .late hl fun c u hc => ?_
        obtain ⟨a, s₁, ha, hc⟩ := bind_ok.mp hc
        exact (hk a).keeps (hbeyond a s₁ (hr.symm.trans ha)) hc
  keeps hs h := by
    obtain ⟨a, s₁, ha, h⟩ := bind_ok.mp h
    exact (hk a).keeps (hx.keeps hs ha) h

theorem mono {post : α → σ → σ → Prop} (h : Coupled w pre mid fail f x y)
    (hpost : ∀ a s t, mid a s t → post a s t) : Coupled w pre post fail f x y where
  steps s t hst := by
    have hstep := h.steps s t hst
    generalize x s = r at hstep ⊢
    generalize y t = r' at hstep ⊢
    cases hstep with
    | ok hmid => exact .ok (hpost _ _ _ hmid)
    | error hfail => exact .error hfail
    | early he => exact .early he
    | late hl hbeyond => exact .late hl hbeyond
  keeps := h.keeps

theorem ite {c c' : Prop} [Decidable c] [Decidable c'] {x' : EStateM Failure σ α}
    {y' : EStateM Failure σ β} (hc : c ↔ c') (h : c → Coupled w pre mid fail f x y)
    (h' : ¬c → Coupled w pre mid fail f x' y') :
    Coupled w pre mid fail f (if c then x else x') (if c' then y else y') := by
  by_cases hp : c
  · rw [if_pos hp, if_pos (hc.mp hp)]
    exact h hp
  · rw [if_neg hp, if_neg (hp ∘ hc.mpr)]
    exact h' hp

end Coupled

end NwScript
