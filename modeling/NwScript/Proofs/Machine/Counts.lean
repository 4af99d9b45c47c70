-- Computations with checked numbers as a whole: what they give if all numbers on the way fit, and
-- nothing at all otherwise.
import NwScript.Proofs.Success

namespace NwScript

namespace Count

variable {α β : Type} {a : α} {b : β} {ns l : List Int} {m n : Nat} {i : Int}

/-- What a computation gives that counts up to some numbers. -/
def within (ns : List Int) (a : α) : Except Failure α :=
  if ∀ n ∈ ns, Fits n then .ok a else .error (.panic .overflow)

theorem within_of_fits (h : ∀ n ∈ ns, Fits n) : within ns a = .ok a := if_pos h

theorem within_ok {b : α} : within ns a = .ok b ↔ (∀ n ∈ ns, Fits n) ∧ a = b := by
  by_cases h : ∀ n ∈ ns, Fits n
  · rw [within_of_fits h, Except.ok.injEq, and_iff_right h]
  · simp [within, h]

theorem checked_within : checked i = within [i] i := by simp [checked, within]

theorem sum_within : sum m n = within [(m + n : Int)] (m + n) := by simp [sum, within]

/-- Only the bounds count, not the numbers that are within them. -/
theorem within_congr (h : (∀ n ∈ ns, Fits n) ↔ ∀ n ∈ l, Fits n) : within ns a = within l a := by
  simp only [within, h]

theorem within_bind {f : α → Except Failure β}
    (h : (∀ n ∈ ns, Fits n) → f a = within l b) : (within ns a >>= f) = within (ns ++ l) b := by
  by_cases hns : ∀ n ∈ ns, Fits n
  · rw [within_of_fits hns]
    refine (h hns).trans (within_congr ?_)
    rw [List.forall_mem_append]
    exact (and_iff_right hns).symm
  · have hboth : ¬∀ n ∈ ns ++ l, Fits n := fun hall =>
      hns fun n hn => hall n (List.mem_append_left _ hn)
    simp only [within, if_neg hns, if_neg hboth]
    rfl

theorem Fits.between {i j k : Int} (hi : Fits i) (hk : Fits k) (h : i ≤ j) (h' : j ≤ k) :
    Fits j := ⟨Int.le_trans hi.1 h, Int.le_trans h' hk.2⟩

theorem fits_zero : Fits 0 := by decide

/-! ## Steps one after another -/

/-- Two steps down can be counted exactly if both together can. -/
theorem checked_down {i j k : Int} {f g : Int → Except Failure α} (hi : Fits i) (hj : 0 ≤ j)
    (hk : 0 ≤ k) (h : Fits (i - j) → f (i - j) = (checked (i - j - k) >>= g)) :
    (checked (i - j) >>= f) = (checked (i - (j + k)) >>= g) := by
  have hboth : i - j - k = i - (j + k) := by omega
  by_cases hstep : Fits (i - j)
  · rw [checked_of_fits hstep, ← hboth]
    exact h hstep
  · have hsum : ¬Fits (i - (j + k)) := fun hsum =>
      hstep (hsum.between hi (by omega) (by omega))
    rw [checked_of_not_fits hstep, checked_of_not_fits hsum]
    rfl

end Count

end NwScript
