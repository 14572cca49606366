import Playbook.Budget
import Playbook.Proofs.Double.Rounding

/-!
# The cutoff of a budget

Sections are kept up to the cutoff, a rounded product, while documents are measured against the
limit, a whole number. Rounding keeps the order and whole numbers below 2^53 are exact, so the
cutoff is never above the limit.

Results:
* `valid_iff_check`: the valid budgets are those that the check lets through.
* `overCutoff_mono`: what is over the cutoff stays so when it grows.
* `overCutoff_of_exceeds`: what is too long is over the cutoff.
* `le_limit_of_within`: what is within the cutoff is within the limit.
-/
namespace Playbook.Budget

/-- A budget as the check accepts it: a positive limit and a ratio above zero and at most one. -/
structure Valid (b : Budget) : Prop where
  limit_pos : 0 < b.limit
  threshold_pos : 0 < b.threshold
  threshold_le : b.threshold ≤ Double.one

theorem valid_iff_check {b : Budget} :
    b.Valid ↔ ∃ limit threshold, check limit threshold = .ok b := by
  constructor
  · intro h
    exact ⟨b.limit, .finite false b.threshold, (check_ok_iff _ _ b).2
      ⟨rfl, rfl, h.limit_pos, h.threshold_pos, h.threshold_le⟩⟩
  · intro h
    obtain ⟨limit, threshold, h⟩ := h
    obtain ⟨-, -, h₁, h₂, h₃⟩ := (check_ok_iff _ _ _).1 h
    exact ⟨h₁, h₂, h₃⟩

theorem valid_one {limit : Nat} (h : 0 < limit) : Valid ⟨limit, Double.one⟩ := by
  refine ⟨h, ?_, ?_⟩
  · dsimp only
    exact Double.one_pos
  · dsimp only
    exact Nat.le_refl Double.one

theorem overCutoff_mono {b : Budget} {m n : Nat} (h : m ≤ n) (hm : b.overCutoff m = true) :
    b.overCutoff n = true := by
  have hle := Double.unitsOfNat_mono h
  unfold overCutoff at *
  rw [decide_eq_true_eq] at *
  omega

theorem cutoff_le {b : Budget} (hv : b.Valid) (hl : b.limit < 2 ^ 53) :
    b.cutoff ≤ b.limit * Double.one := by
  have hunits := Double.unitsOfNat_eq (n := b.limit) (Nat.le_of_lt hl)
  have hexact := Double.nearest_exact Double.one_pos (Double.dvd_of_le (Nat.le_of_lt hl))
  calc b.cutoff = Double.nearest (b.limit * Double.one * b.threshold) Double.one := by
        rw [cutoff, hunits]
    _ ≤ Double.nearest (b.limit * Double.one * Double.one) Double.one :=
      Double.nearest_mono Double.one_pos (Nat.mul_le_mul_left _ hv.threshold_le)
    _ = b.limit * Double.one := hexact

/-- What is too long is over the cutoff. -/
theorem overCutoff_of_exceeds {b : Budget} (hv : b.Valid) (hl : b.limit < 2 ^ 53) {n : Nat}
    (h : b.exceeds n = true) : b.overCutoff n = true := by
  have hlt := exceeds_eq_true.1 h
  have hnext : b.overCutoff (b.limit + 1) = true := by
    have hle := cutoff_le hv hl
    have hone := Double.one_pos
    unfold overCutoff
    rw [decide_eq_true_eq, Double.unitsOfNat_eq (by omega), Nat.add_mul, Nat.one_mul]
    omega
  exact overCutoff_mono hlt hnext

theorem mul_one_le_cutoff {b : Budget} {n : Nat} (hn : n ≤ 2 ^ 53) (h : b.overCutoff n = false) :
    n * Double.one ≤ b.cutoff := by
  rw [← Double.unitsOfNat_eq hn]
  unfold overCutoff at h
  rw [decide_eq_false_iff_not] at h
  omega

/-- What is within the cutoff is within the limit. -/
theorem le_limit_of_within {b : Budget} (hv : b.Valid) (hl : b.limit < 2 ^ 53) {n : Nat}
    (h : b.overCutoff n = false) : n ≤ b.limit := by
  refine exceeds_eq_false.1 (Bool.eq_false_iff.2 fun hlong => ?_)
  rw [overCutoff_of_exceeds hv hl hlong] at h
  cases h

end Playbook.Budget
