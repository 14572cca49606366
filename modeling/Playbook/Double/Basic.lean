/-!
# Double-precision numbers

A finite number of the binary64 format is a sign and a whole number of *units* of 2^-1074, the
smallest positive one. Which counts of units are numbers of the format depends on their size:
from 2^53 on only every second, fourth, ... count is one (`gap`). A quotient becomes a number by
rounding to the nearest count, a tie to the one with the even significand.

Results:
* `roundHalfEven_mono`: rounding a quotient keeps the order.
* `roundHalfEven_exact`: a whole quotient is not changed.
-/
namespace Playbook

inductive Double
  | nan
  | infinite (negative : Bool)
  | finite (negative : Bool) (units : Nat)
  deriving Repr, DecidableEq

namespace Double

/-- The units of the number one. -/
def one : Nat := Nat.pow 2 1074

/-- The units from which on a magnitude is infinite. -/
def overflow : Nat := Nat.pow 2 2098

/-! ## Rounding -/

/-- The whole number nearest to a quotient, the even one of two. -/
def roundHalfEven (num den : Nat) : Nat :=
  let q := num / den
  let r := num % den
  if 2 * r < den then q
  else if den < 2 * r then q + 1
  else q + q % 2

theorem roundHalfEven_exact (n : Nat) {den : Nat} (h : 0 < den) :
    roundHalfEven (n * den) den = n := by
  simp [roundHalfEven, Nat.mul_div_cancel _ h, h]

theorem roundHalfEven_le_succ (num den : Nat) : roundHalfEven num den ≤ num / den + 1 := by
  simp only [roundHalfEven]
  split
  · omega
  · split <;> omega

theorem le_roundHalfEven (num den : Nat) : num / den ≤ roundHalfEven num den := by
  simp only [roundHalfEven]
  split
  · omega
  · split <;> omega

theorem roundHalfEven_mono {m n : Nat} (den : Nat) (h : m ≤ n) :
    roundHalfEven m den ≤ roundHalfEven n den := by
  rcases Nat.lt_or_ge (m / den) (n / den) with hlt | hge
  · exact Nat.le_trans (roundHalfEven_le_succ m den)
      (Nat.le_trans hlt (le_roundHalfEven n den))
  · have hq : m / den = n / den := Nat.le_antisymm (Nat.div_le_div_right h) hge
    have hr : m % den ≤ n % den := by
      have hm := Nat.div_add_mod m den
      have hn := Nat.div_add_mod n den
      rw [hq] at hm
      omega
    simp only [roundHalfEven, hq]
    split
    · split
      · omega
      · split <;> omega
    · split
      · split
        · omega
        · split <;> omega
      · split
        · omega
        · split <;> omega

/-- The exponent of the distance between neighbouring numbers around a count of units. -/
def gap (units : Nat) : Nat := Nat.log2 units - 52

/-- The distance between neighbouring numbers around a count of units. -/
def step (units : Nat) : Nat := Nat.pow 2 (gap units)

/-- The units of the number nearest to `num / den` units. -/
def nearest (num den : Nat) : Nat :=
  let s := step (num / den)
  roundHalfEven num (den * s) * s

/-- The units of the number nearest to a whole number. -/
def unitsOfNat (n : Nat) : Nat := nearest (n * one) 1

/-- The number nearest to `(-1)^negative * num / den`. -/
def ofRatio (negative : Bool) (num den : Nat) : Double :=
  let units := nearest (num * one) den
  if overflow ≤ units then .infinite negative else .finite negative units

/-- The number nearest to `digits * 10^exponent`. The two bounds only cut short what rounds to
infinity or to zero anyway. -/
def ofScientific (negative : Bool) (digits : Nat) (exponent : Int) : Double :=
  let places : Int := (Nat.toDigits 10 digits).length
  if digits = 0 then .finite negative 0
  else if 400 < exponent + places then .infinite negative
  else if exponent + places < -400 then .finite negative 0
  else if 0 ≤ exponent then ofRatio negative (digits * Nat.pow 10 exponent.toNat) 1
  else ofRatio negative digits (Nat.pow 10 (-exponent).toNat)

/-! ## The binary form -/

def signBit (negative : Bool) : Nat := if negative then Nat.pow 2 63 else 0

/-- The 64 bits: from the top a sign, the biased exponent and the fraction. In units the last
two are one count, which `gap` steps of the exponent have halved. -/
def toBits : Double → Nat
  | nan => 0x7FF8000000000000
  | infinite negative => signBit negative + 0x7FF0000000000000
  | finite negative units => signBit negative + gap units * Nat.pow 2 52 + units / step units

end Double

end Playbook
