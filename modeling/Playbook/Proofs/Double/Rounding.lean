import Mathlib.Algebra.Group.Nat.Defs
import Playbook.Double.Basic

/-!
# Rounding to the nearest number

`nearest` rounds a quotient of units to a number of the format. The distance between
neighbouring numbers grows with the size, so the order of two results is not that of one
rounding; between them lies the power of two at which the distance changes.

Results:
* `nearest_mono`: rounding keeps the order.
* `nearest_exact`: a number of the format is its own rounding.
* `unitsOfNat_eq`, `unitsOfNat_mono`: whole numbers up to 2^53 are exact, and all keep their
  order.
-/
namespace Playbook.Double

theorem gap_mono {m n : Nat} (h : m ≤ n) : gap m ≤ gap n := by
  unfold gap
  rcases Nat.eq_zero_or_pos m with h0 | hm
  · rw [h0, Nat.log2_zero]
    omega
  · have hp := Nat.log2_self_le (Nat.pos_iff_ne_zero.1 hm)
    have := (Nat.le_log2 (by omega)).2 (Nat.le_trans hp h)
    omega

theorem nearest_eq (num den : Nat) : nearest num den =
    roundHalfEven num (den * 2 ^ gap (num / den)) * 2 ^ gap (num / den) := rfl

/-- Rounded down to a power of two above which the numbers are `2 ^ gap` apart. -/
theorem pow_le_of_gap_pos {n : Nat} (h : 0 < gap n) : 2 ^ (gap n + 52) ≤ n := by
  unfold gap at *
  have hn : n ≠ 0 := by
    intro h0
    rw [h0, Nat.log2_zero] at h
    omega
  rw [Nat.sub_add_cancel (by omega)]
  exact Nat.log2_self_le hn

theorem lt_pow_of_gap_lt {n k : Nat} (h : gap n < k) : n < 2 ^ (k + 52) := by
  unfold gap at h
  rcases Nat.eq_zero_or_pos n with h0 | hn
  · rw [h0]
    exact Nat.two_pow_pos _
  · exact (Nat.log2_lt (by omega)).1 (by omega)

theorem roundHalfEven_le {num den k : Nat} (hd : 0 < den) (h : num ≤ k * den) :
    roundHalfEven num den ≤ k := by
  have := roundHalfEven_mono den h
  rwa [roundHalfEven_exact k hd] at this

theorem le_roundHalfEven_of_le {num den k : Nat} (hd : 0 < den) (h : k * den ≤ num) :
    k ≤ roundHalfEven num den := by
  have := roundHalfEven_mono den h
  rwa [roundHalfEven_exact k hd] at this

/-- Below a power of two where the distance has changed, the result is at most that power. -/
theorem nearest_le_pow {num den k : Nat} (hd : 0 < den) (h : gap (num / den) < k) :
    nearest num den ≤ 2 ^ (k + 52) := by
  have hlt := lt_pow_of_gap_lt h
  have hsplit : 2 ^ (k + 52) = 2 ^ (k + 52 - gap (num / den)) * 2 ^ gap (num / den) := by
    rw [← Nat.pow_add, Nat.sub_add_cancel (by omega)]
  have hnum : num ≤ 2 ^ (k + 52) * den := by
    have := (Nat.div_lt_iff_lt_mul hd).1 hlt
    omega
  rw [nearest_eq, hsplit]
  refine Nat.mul_le_mul_right _ (roundHalfEven_le (Nat.mul_pos hd (Nat.two_pow_pos _)) ?_)
  calc num ≤ 2 ^ (k + 52) * den := hnum
    _ = 2 ^ (k + 52 - gap (num / den)) * (den * 2 ^ gap (num / den)) := by
      rw [hsplit, Nat.mul_assoc, Nat.mul_comm den]

/-- From that power on, the result is at least the power. -/
theorem pow_le_nearest {num den : Nat} (hd : 0 < den) (h : 0 < gap (num / den)) :
    2 ^ (gap (num / den) + 52) ≤ nearest num den := by
  have hle := pow_le_of_gap_pos h
  rw [nearest_eq, Nat.add_comm, Nat.pow_add]
  refine Nat.mul_le_mul_right _ (le_roundHalfEven_of_le (Nat.mul_pos hd (Nat.two_pow_pos _)) ?_)
  calc 2 ^ 52 * (den * 2 ^ gap (num / den)) = 2 ^ (gap (num / den) + 52) * den := by
        rw [Nat.add_comm, Nat.pow_add, Nat.mul_assoc, Nat.mul_comm den]
    _ ≤ num / den * den := Nat.mul_le_mul_right _ hle
    _ ≤ num := Nat.div_mul_le_self num den

theorem nearest_mono {m n den : Nat} (hd : 0 < den) (h : m ≤ n) :
    nearest m den ≤ nearest n den := by
  have hg : gap (m / den) ≤ gap (n / den) := gap_mono (Nat.div_le_div_right h)
  rcases Nat.lt_or_eq_of_le hg with hlt | heq
  · exact Nat.le_trans (nearest_le_pow hd hlt) (pow_le_nearest hd (by omega))
  · rw [nearest_eq, nearest_eq, heq]
    exact Nat.mul_le_mul_right _ (roundHalfEven_mono _ h)

/-- A number of the format is its own rounding. -/
theorem nearest_exact {units den : Nat} (hd : 0 < den) (h : 2 ^ gap units ∣ units) :
    nearest (units * den) den = units := by
  obtain ⟨k, hk⟩ := h
  have hnum : units * den = k * (den * 2 ^ gap units) := by
    calc units * den = 2 ^ gap units * k * den := by rw [← hk]
      _ = k * (den * 2 ^ gap units) := by
        rw [Nat.mul_comm (2 ^ gap units), Nat.mul_assoc, Nat.mul_comm den]
  rw [nearest_eq, Nat.mul_div_cancel _ hd, hnum,
    roundHalfEven_exact _ (Nat.mul_pos hd (Nat.two_pow_pos _)), Nat.mul_comm]
  exact hk.symm

/-! ## Whole numbers -/

theorem one_eq_pow : ∃ e, 1 ≤ e ∧ one = Nat.pow 2 e := by
  refine ⟨1074, by decide, ?_⟩
  unfold one
  exact Eq.refl _

theorem one_pos : 0 < one := by
  obtain ⟨e, -, h⟩ := one_eq_pow
  rw [h]
  exact Nat.two_pow_pos e

/-- Below 2^53 the last bit of a whole number lies above the distance to its neighbours; 2^53
itself is a power of two. -/
theorem pow_dvd_of_le {n e : Nat} (he : 1 ≤ e) (h : n ≤ 2 ^ 53) :
    2 ^ gap (n * 2 ^ e) ∣ n * 2 ^ e := by
  rcases Nat.lt_or_eq_of_le h with hlt | heq
  · have hdvd : 2 ^ gap (n * 2 ^ e) ∣ 2 ^ e := by
      refine Nat.pow_dvd_pow 2 ?_
      unfold gap
      rcases Nat.eq_zero_or_pos n with h0 | hn
      · rw [h0, Nat.zero_mul, Nat.log2_zero]
        omega
      · have hne : n * 2 ^ e ≠ 0 := Nat.pos_iff_ne_zero.1 (Nat.mul_pos hn (Nat.two_pow_pos e))
        have hb : n * 2 ^ e < 2 ^ (53 + e) := by
          rw [Nat.pow_add]
          exact Nat.mul_lt_mul_of_pos_right hlt (Nat.two_pow_pos e)
        have hlog := (Nat.log2_lt hne).2 hb
        omega
    exact Nat.dvd_trans hdvd (Nat.dvd_mul_left _ _)
  · rw [heq, ← Nat.pow_add]
    refine Nat.pow_dvd_pow 2 ?_
    unfold gap
    rw [Nat.log2_two_pow]
    omega

/-- Whole numbers up to 2^53 are numbers of the format. -/
theorem dvd_of_le {n : Nat} (h : n ≤ 2 ^ 53) : 2 ^ gap (n * one) ∣ n * one := by
  obtain ⟨e, he, hone⟩ := one_eq_pow
  rw [hone]
  exact pow_dvd_of_le he h

theorem unitsOfNat_eq {n : Nat} (h : n ≤ 2 ^ 53) : unitsOfNat n = n * one := by
  have := nearest_exact Nat.one_pos (dvd_of_le h)
  rwa [Nat.mul_one] at this

theorem unitsOfNat_mono {m n : Nat} (h : m ≤ n) : unitsOfNat m ≤ unitsOfNat n :=
  nearest_mono Nat.one_pos (Nat.mul_le_mul_right one h)

end Playbook.Double
