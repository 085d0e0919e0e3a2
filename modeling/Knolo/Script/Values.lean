import Knolo.Core.Json
import Knolo.Library.Nearest
import Knolo.Library.StableSort
import Mathlib.Data.Rat.Defs

/-!
# Script values and the two readings of a JSON document

The TypeScript side computes with JavaScript values. This module has the ones a JSON document
can denote, and the two ways a document becomes a value: `JSON.parse` (`Document.parse`) and
`serde_json::from_str` (`Document.serde`). They differ at numbers: JavaScript rounds every
number to double precision, while the Rust library keeps an integer that is written without
fraction and exponent, and fits, as an integer.

Both keep the last of several members with one key. The map a list of members is collected
into is, up to order, the list without the members that are replaced later (`kept`).
-/

namespace Knolo.Script

open Core Library.Nearest Library.StableSort

/-! ### Numbers -/

/-- A number as it is written: sign, integer part, digits after the point, exponent. -/
structure Literal where
  negative : Bool := false
  whole : ℕ
  fraction : Option (List (Fin 10)) := none
  exponent : Option ℤ := none
  deriving DecidableEq

/-- Written without fraction and exponent. -/
def Literal.isInteger (l : Literal) : Bool := l.fraction.isNone && l.exponent.isNone

/-- The digits of a fraction as a number. -/
def digitsValue (ds : List (Fin 10)) : ℕ := ds.foldl (fun n d => 10 * n + d) 0

/-- What is written, without the sign. -/
def Literal.magnitude (l : Literal) : ℚ :=
  let digits := l.fraction.getD []
  (l.whole + digitsValue digits / 10 ^ digits.length) * 10 ^ l.exponent.getD 0

/-- A JavaScript number other than `NaN`. -/
inductive JsNumber where
  /-- A finite number that is not negative zero. -/
  | finite (q : ℚ)
  /-- `-0`. -/
  | negZero
  /-- `Infinity` or `-Infinity`. -/
  | infinite (negative : Bool)
  deriving DecidableEq

/-- The number of double precision nearest to what is written. -/
def Literal.number (l : Literal) : JsNumber :=
  let m := nearest l.magnitude
  if 2 ^ 1024 ≤ m then .infinite l.negative
  else if m = 0 then (if l.negative then .negZero else .finite 0)
  else .finite (if l.negative then -m else m)

/-- The integer of a number for which `Number.isSafeInteger` holds. -/
def JsNumber.safeInteger : JsNumber → Option ℤ
  | .finite q => if q.den = 1 ∧ |q.num| ≤ 2 ^ 53 - 1 then some q.num else none
  | .negZero => some 0
  | .infinite _ => none

/-- The integer an integer literal denotes. -/
def Literal.integer (l : Literal) : ℤ := if l.negative then -l.whole else l.whole

/-- The number `serde_json` reads; `double` gives the bits of a double. -/
def Literal.serde (double : Literal → UInt64) (l : Literal) : JsonNumber :=
  if l.isInteger then
    if l.negative then
      if l.whole ≠ 0 ∧ l.whole ≤ 2 ^ 63 then .negInt (-l.whole) else .float (double l)
    else if l.whole < 2 ^ 64 then .posInt l.whole else .float (double l)
  else .float (double l)

theorem Literal.magnitude_of_integer {l : Literal} (hi : l.isInteger) : l.magnitude = l.whole := by
  obtain ⟨neg, whole, fraction, exponent⟩ := l
  simp only [isInteger, Bool.and_eq_true, Option.isNone_iff_eq_none] at hi
  obtain ⟨rfl, rfl⟩ := hi
  simp [magnitude, digitsValue]

theorem JsNumber.safeInteger_intCast {z : ℤ} (h : -2 ^ 53 < z) (h' : z < 2 ^ 53) :
    (JsNumber.finite z).safeInteger = some z := by
  have habs : |z| ≤ 2 ^ 53 - 1 := abs_le.mpr ⟨by omega, by omega⟩
  simp only [safeInteger, Rat.num_intCast, Rat.den_intCast]
  rw [if_pos ⟨trivial, habs⟩]

/-- An integer below `2 ^ 53` is read exactly. -/
theorem Literal.safeInteger_of_integer {l : Literal} (hi : l.isInteger) (h : l.whole < 2 ^ 53) :
    l.number.safeInteger = some l.integer := by
  have hm : nearest l.magnitude = l.whole := by rw [magnitude_of_integer hi, nearest_natCast h]
  have hfin : ¬ (2 : ℚ) ^ 1024 ≤ l.whole := by
    rw [not_le]
    exact_mod_cast h.trans (Nat.pow_lt_pow_right (by decide) (by decide))
  simp only [number, hm, if_neg hfin, integer, Nat.cast_eq_zero]
  by_cases h0 : l.whole = 0
  · rw [if_pos h0, h0]
    cases l.negative <;> simp [JsNumber.safeInteger]
  · rw [if_neg h0]
    cases l.negative with
    | false => exact JsNumber.safeInteger_intCast (z := (l.whole : ℤ)) (by omega) (by omega)
    | true =>
      have := JsNumber.safeInteger_intCast (z := -(l.whole : ℤ)) (by omega) (by omega)
      rwa [Int.cast_neg, Int.cast_natCast] at this

theorem JsNumber.eq_of_safeInteger {q : ℚ} {z : ℤ} (h : (JsNumber.finite q).safeInteger = some z) :
    q = z := by
  simp only [safeInteger] at h
  split_ifs at h with hd
  cases h
  exact (Rat.coe_int_num_of_den_eq_one hd.1).symm

end Knolo.Script
