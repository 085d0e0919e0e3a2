import Mathlib.Algebra.Order.Floor.Ring
import Mathlib.Data.Int.Log
import Mathlib.Data.Rat.Floor
import Mathlib.Tactic.Linarith
import Mathlib.Tactic.NormNum
import Mathlib.Tactic.Positivity
import Mathlib.Tactic.Ring

/-!
# Rounding to double precision

The number with 53 significant bits nearest to a nonnegative rational, ties to even, with the
least exponent of double precision and no largest one. Numbers below `2 ^ 53` that are
integers are kept (`nearest_natCast`).
-/

namespace Knolo.Library.Nearest

/-- The nearest integer, ties to even. -/
def halfEven (x : ℚ) : ℤ :=
  if x - ⌊x⌋ < 1 / 2 then ⌊x⌋
  else if 1 / 2 < x - ⌊x⌋ then ⌊x⌋ + 1
  else if ⌊x⌋ % 2 = 0 then ⌊x⌋ else ⌊x⌋ + 1

/-- The exponent of the last of the significant bits of `q`. -/
def lastBit (q : ℚ) : ℤ := max (Int.log 2 q) (-1022) - 52

/-- The nearest number of double precision. -/
def nearest (q : ℚ) : ℚ := halfEven (q / 2 ^ lastBit q) * 2 ^ lastBit q

theorem halfEven_intCast (z : ℤ) : halfEven z = z := by simp [halfEven]

theorem nearest_natCast {n : ℕ} (h : n < 2 ^ 53) : nearest n = n := by
  have hlog : Int.log 2 (n : ℚ) ≤ 52 := by
    rw [Int.log_natCast]
    have : Nat.log 2 n < 53 := Nat.log_lt_of_lt_pow' (by norm_num) h
    omega
  have hbit : lastBit n ≤ 0 := by
    unfold lastBit
    omega
  obtain ⟨k, hk⟩ := Int.eq_ofNat_of_zero_le (neg_nonneg.mpr hbit)
  have hpow : (n : ℚ) / 2 ^ lastBit n = ((n * 2 ^ k : ℕ) : ℤ) := by
    rw [show lastBit n = -(k : ℤ) by omega, zpow_neg, zpow_natCast]
    push_cast
    field_simp
  rw [nearest, hpow, halfEven_intCast, ← hpow]
  exact div_mul_cancel₀ _ (zpow_ne_zero _ two_ne_zero)

end Knolo.Library.Nearest
