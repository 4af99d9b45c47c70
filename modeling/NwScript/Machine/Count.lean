-- How slots are counted: in numbers of 32 bits with a sign. Every sum and difference is checked,
-- and one that does not fit is the end of the compiler. Without the checks it would go on with a
-- number that has wrapped around; as long as all numbers fit, that makes no difference.
import NwScript.Report.Error

namespace NwScript

namespace Count

/-- The numbers that 32 bits can hold. -/
def Fits (n : Int) : Prop := -0x80000000 ≤ n ∧ n ≤ 0x7FFFFFFF

instance (n : Int) : Decidable (Fits n) := inferInstanceAs (Decidable (_ ∧ _))

/-- A number, if it fits. -/
def checked (n : Int) : Except Failure Int := if Fits n then .ok n else .error (.panic .overflow)

/-- Two sizes together, if they fit. -/
def sum (m n : Nat) : Except Failure Nat :=
  if Fits (m + n) then .ok (m + n) else .error (.panic .overflow)

variable {m n : Nat} {i j : Int}

theorem checked_of_fits (h : Fits i) : checked i = .ok i := if_pos h

theorem checked_of_not_fits (h : ¬Fits i) : checked i = .error (.panic .overflow) := if_neg h

theorem checked_ok : checked i = .ok j ↔ Fits i ∧ i = j := by
  by_cases h : Fits i
  · simp [checked_of_fits h, h]
  · simp [checked_of_not_fits h, h]

theorem sum_of_fits (h : Fits (m + n)) : sum m n = .ok (m + n) := if_pos h

theorem sum_of_not_fits (h : ¬Fits (m + n)) : sum m n = .error (.panic .overflow) := if_neg h

theorem sum_ok {k : Nat} : sum m n = .ok k ↔ Fits (m + n) ∧ m + n = k := by
  by_cases h : Fits (m + n)
  · simp [sum_of_fits h, h]
  · simp [sum_of_not_fits h, h]

end Count

end NwScript
