import Playbook.Failure

/-!
# Budgets

A document may have at most `limit` characters. Once it has to be split, sections are kept up to
the cutoff, the product of the limit and a threshold ratio as a double-precision number.

Results:
* `check_ok_iff`: which limits and thresholds are accepted.
* `exceeds_eq_true`, `exceeds_eq_false`: what is too long is longer than the limit.
-/
namespace Playbook

/-- A limit with the units of a threshold. -/
structure Budget where
  limit : Nat
  threshold : Nat
  deriving Repr, DecidableEq

namespace Budget

def defaultLimit : Nat := 10000

/-- 0.9 -/
def defaultThreshold : Double := .ofScientific false 9 (-1)

/-- A budget needs a positive limit and a threshold above zero and at most one; the limit is
looked at first. -/
def check (limit : Nat) (threshold : Double) : Except Failure Budget :=
  if limit = 0 then .error (.invalidBudget limit)
  else match threshold with
    | .finite false units =>
      if 0 < units && units ≤ Double.one then .ok ⟨limit, units⟩
      else .error (.invalidThreshold threshold)
    | _ => .error (.invalidThreshold threshold)

theorem check_ok_iff (limit : Nat) (threshold : Double) (budget : Budget) :
    check limit threshold = .ok budget ↔
      limit = budget.limit ∧ threshold = .finite false budget.threshold ∧
        0 < budget.limit ∧ 0 < budget.threshold ∧ budget.threshold ≤ Double.one := by
  obtain ⟨l, u⟩ := budget
  simp only [check]
  split
  · simp; omega
  · rename_i hl
    split
    · rename_i units
      split
      · rename_i hu
        simp only [Bool.and_eq_true, decide_eq_true_eq] at hu
        simp only [Except.ok.injEq, Budget.mk.injEq, Double.finite.injEq, true_and]
        constructor
        · rintro ⟨rfl, rfl⟩; exact ⟨rfl, rfl, by omega, hu.1, hu.2⟩
        · rintro ⟨rfl, rfl, -⟩; exact ⟨rfl, rfl⟩
      · rename_i hu
        simp only [Bool.and_eq_true, decide_eq_true_eq] at hu
        simp only [reduceCtorEq, Double.finite.injEq, true_and, false_iff, not_and]
        rintro - rfl - h1 h2
        exact hu ⟨h1, h2⟩
    · rename_i hne
      simp only [reduceCtorEq, false_iff, not_and]
      rintro - rfl
      exact absurd rfl (hne u)

/-- The budget of the host. -/
def standard : Budget := ⟨defaultLimit, Double.nearest (9 * Double.one) 10⟩

/-- The units of the cutoff: the limit as a number of the format, times the threshold. -/
def cutoff (b : Budget) : Nat :=
  Double.nearest (Double.unitsOfNat b.limit * b.threshold) Double.one

/-- Whether a written document of `size` characters is too long. -/
def exceeds (b : Budget) (size : Nat) : Bool := b.limit < size

theorem exceeds_eq_true {b : Budget} {size : Nat} : b.exceeds size = true ↔ b.limit < size := by
  rw [exceeds, decide_eq_true_eq]

theorem exceeds_eq_false {b : Budget} {size : Nat} : b.exceeds size = false ↔ size ≤ b.limit := by
  rw [exceeds, decide_eq_false_iff_not, Nat.not_lt]

/-- Whether a size, as a number of the format, lies above the cutoff. -/
def overCutoff (b : Budget) (size : Nat) : Bool := b.cutoff < Double.unitsOfNat size

end Budget

end Playbook
