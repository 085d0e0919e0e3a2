import Knolo.Library.Nearest

/-!
# The bitwise operators on double-precision numbers

The operators of JavaScript on numbers: `+`, `-`, `*` and `/` round to double precision; `|`, `^`, `&`,
`~` and `<<` take their operands modulo `2 ^ 32` and give a signed integer of 32 bits, `>>>` an unsigned
one. A number is given by its value: the sign of zero, which none of these operators reads, is left out,
and no number is as large as the largest.

* `Represents b x w` — the number `x` is an integer of magnitude at most `b` that is `w` modulo
  `2 ^ 32`. Every operator does on what is represented what the operator on words does, as long as sums
  stay below `2 ^ 53`.
* `nearest_dyadic` — the quotient of an integer below `2 ^ 53` by a power of two is exact.
-/

namespace Knolo.Library.DoubleInt

open Nearest

/-- The value of a number. -/
abbrev Number := ℚ

/-- The nearest number of double precision. -/
def double (q : ℚ) : Number := if q < 0 then -nearest (-q) else nearest q

/-- `x + y`. -/
def add (x y : Number) : Number := double (x + y)

/-- `x - y`. -/
def sub (x y : Number) : Number := double (x - y)

/-- `x * y`. -/
def mul (x y : Number) : Number := double (x * y)

/-- `x / y`. -/
def div (x y : Number) : Number := double (x / y)

/-- `Math.ceil`. -/
def ceil (x : Number) : Number := ⌈x⌉

/-- `Math.floor`. -/
def floor (x : Number) : Number := ⌊x⌋

/-- `ToUint32`: the integer part, modulo `2 ^ 32`. -/
def toWord (x : Number) : UInt32 := ⟨BitVec.ofInt 32 (if x < 0 then ⌈x⌉ else ⌊x⌋)⟩

/-- A word as a signed number. -/
def asInt32 (w : UInt32) : Number := w.toBitVec.toInt

/-- A word as an unsigned number. -/
def asUint32 (w : UInt32) : Number := w.toNat

/-- `x | y`. -/
def bitOr (x y : Number) : Number := asInt32 (toWord x ||| toWord y)

/-- `x ^ y`. -/
def bitXor (x y : Number) : Number := asInt32 (toWord x ^^^ toWord y)

/-- `x & y`. -/
def bitAnd (x y : Number) : Number := asInt32 (toWord x &&& toWord y)

/-- `~x`. -/
def bitNot (x : Number) : Number := asInt32 (~~~toWord x)

/-- `x << n`. The shift is taken modulo 32, as that of words is. -/
def shiftLeft (x n : Number) : Number := asInt32 (toWord x <<< toWord n)

/-- `x >>> n`. -/
def shiftRight (x n : Number) : Number := asUint32 (toWord x >>> toWord n)

/-! ### Exact results -/

theorem double_intCast {z : ℤ} (h : |z| < 2 ^ 53) : double z = z := by
  obtain ⟨n, rfl | rfl⟩ := z.eq_nat_or_neg
  · have hn : n < 2 ^ 53 := by simpa using h
    rw [double, if_neg (by simp), Int.cast_natCast, nearest_natCast hn]
  · have hn : n < 2 ^ 53 := by simpa using h
    rw [double]
    split_ifs with hneg
    · rw [Int.cast_neg, neg_neg, Int.cast_natCast, nearest_natCast hn]
    · obtain rfl : n = 0 := by
        by_contra hzero
        have hpos : (0 : ℚ) < n := by exact_mod_cast Nat.pos_of_ne_zero hzero
        exact hneg (by simpa using hpos)
      exact nearest_natCast (by norm_num)

theorem double_natCast {n : ℕ} (h : n < 2 ^ 53) : double n = n := by
  have := double_intCast (z := n) (by simpa using h)
  simpa using this

theorem add_natCast {m n : ℕ} (h : m + n < 2 ^ 53) : add m n = (m + n : ℕ) := by
  rw [add, ← Nat.cast_add, double_natCast h]

theorem mul_natCast {m n : ℕ} (h : m * n < 2 ^ 53) : mul m n = (m * n : ℕ) := by
  rw [mul, ← Nat.cast_mul, double_natCast h]

theorem sub_natCast {m n : ℕ} (h : m < 2 ^ 53) (hn : n ≤ m) : sub m n = (m - n : ℕ) := by
  rw [sub, ← Nat.cast_sub hn, double_natCast (by omega)]

theorem nearest_dyadic {n k : ℕ} (hn : n < 2 ^ 53) (hk : k ≤ 1022) : nearest (n / 2 ^ k) = n / 2 ^ k := by
  by_cases hzero : n = 0
  · subst hzero
    have := nearest_natCast hn
    simpa using this
  have hlog : Int.log 2 ((n : ℚ) / 2 ^ k) < 53 - k := by
    have hpos : (0 : ℚ) < n := by exact_mod_cast Nat.pos_of_ne_zero hzero
    have hsmall : (n : ℚ) < 2 ^ 53 := by exact_mod_cast hn
    apply (Int.lt_zpow_iff_log_lt (by norm_num) (by positivity)).mp
    rw [Nat.cast_ofNat, zpow_sub₀ two_ne_zero, zpow_natCast]
    exact div_lt_div_of_pos_right hsmall (by positivity)
  have hbit : lastBit ((n : ℚ) / 2 ^ k) + k ≤ 0 := by
    unfold lastBit
    omega
  obtain ⟨j, hj⟩ := Int.eq_ofNat_of_zero_le (neg_nonneg.mpr hbit)
  have hpow : (n : ℚ) / 2 ^ k / 2 ^ lastBit ((n : ℚ) / 2 ^ k) = ((n * 2 ^ j : ℕ) : ℤ) := by
    rw [show lastBit ((n : ℚ) / 2 ^ k) = -(k : ℤ) - (j : ℤ) by omega, zpow_sub₀ two_ne_zero, zpow_neg,
      zpow_natCast, zpow_natCast]
    push_cast
    field_simp
  rw [nearest, hpow, halfEven_intCast, ← hpow]
  exact div_mul_cancel₀ _ (zpow_ne_zero _ two_ne_zero)

theorem div_dyadic {n k : ℕ} (hn : n < 2 ^ 53) (hk : k ≤ 1022) : div n (2 ^ k : ℕ) = n / 2 ^ k := by
  rw [div, Nat.cast_pow, Nat.cast_ofNat, double, if_neg (not_lt.mpr (by positivity)), nearest_dyadic hn hk]

/-- `Math.floor` of an exact quotient. -/
theorem floor_div_dyadic {n k : ℕ} (hn : n < 2 ^ 53) (hk : k ≤ 1022) : floor (div n (2 ^ k : ℕ)) = (n / 2 ^ k : ℕ) := by
  have h := Rat.floor_natCast_div_natCast n (2 ^ k)
  rw [Nat.cast_pow, Nat.cast_ofNat] at h
  rw [div_dyadic hn hk, floor, h]
  norm_cast

/-- `Math.ceil` of an exact quotient. -/
theorem ceil_div_dyadic {n k : ℕ} (hn : n < 2 ^ 53) (hk : k ≤ 1022) :
    ceil (div n (2 ^ k : ℕ)) = ((n + 2 ^ k - 1) / 2 ^ k : ℕ) := by
  rw [div_dyadic hn hk, ceil, ← Nat.cast_ofNat, ← Nat.cast_pow]
  generalize hd : 2 ^ k = d
  have hpos : 0 < d := hd ▸ Nat.two_pow_pos k
  have hle : (n + d - 1) / d * d ≤ n + d - 1 := Nat.div_mul_le_self _ _
  have hlt : n + d - 1 < ((n + d - 1) / d + 1) * d := by
    rw [Nat.succ_mul]
    exact Nat.lt_div_mul_add hpos
  generalize (n + d - 1) / d = q at hle hlt
  have hceil : ⌈(n : ℚ) / d⌉ = (q : ℤ) := by
    have hdpos : (0 : ℚ) < d := by exact_mod_cast hpos
    rw [Int.ceil_eq_iff, lt_div_iff₀ hdpos, div_le_iff₀ hdpos]
    constructor
    · have : q * d < n + d := by omega
      have : (q : ℚ) * d < n + d := by exact_mod_cast this
      rw [Int.cast_natCast]
      linarith
    · rw [Nat.succ_mul] at hlt
      have : n ≤ q * d := by omega
      exact_mod_cast this
  rw [hceil]
  rfl

/-! ### Words -/

/-- The number `x` is an integer of magnitude at most `b` that is `w` modulo `2 ^ 32`. -/
def Represents (b : ℕ) (x : Number) (w : UInt32) : Prop :=
  ∃ z : ℤ, x = z ∧ |z| ≤ b ∧ BitVec.ofInt 32 z = w.toBitVec

variable {b c : ℕ} {x y : Number} {w v : UInt32}

theorem represents_natCast (n : ℕ) : Represents n (n : Number) (UInt32.ofNat n) :=
  ⟨n, by simp, by simp, BitVec.ofInt_natCast 32 n⟩

theorem represents_ofNat (n : ℕ) [n.AtLeastTwo] : Represents n (OfNat.ofNat n : Number) (OfNat.ofNat n) := by
  rw [← Nat.cast_ofNat (R := ℚ)]
  exact represents_natCast n

theorem Represents.mono (h : Represents b x w) (hb : b ≤ c) : Represents c x w := by
  obtain ⟨z, hx, hz, hw⟩ := h
  exact ⟨z, hx, hz.trans (by exact_mod_cast hb), hw⟩

theorem represents_asInt32 (w : UInt32) : Represents (2 ^ 32) (asInt32 w) w := by
  refine ⟨w.toBitVec.toInt, rfl, ?_, BitVec.ofInt_toInt⟩
  have hlt := w.toBitVec.toInt_lt
  have hle := w.toBitVec.le_toInt
  rw [abs_le]
  constructor <;> push_cast <;> omega

theorem represents_asUint32 (w : UInt32) : Represents (2 ^ 32) (asUint32 w) w := by
  refine ⟨w.toNat, by simp [asUint32], ?_, ?_⟩
  · have hlt := w.toNat_lt
    rw [abs_le]
    constructor <;> push_cast <;> omega
  · rw [BitVec.ofInt_natCast]
    exact BitVec.ofNat_toNat _ _

/-- What is represented is what a typed array stores. -/
theorem Represents.toWord (h : Represents b x w) : toWord x = w := by
  obtain ⟨z, rfl, -, hw⟩ := h
  rw [DoubleInt.toWord, Int.ceil_intCast, Int.floor_intCast, ite_self, hw]

theorem Represents.add (h : Represents b x w) (h' : Represents c y v) (hbc : b + c < 2 ^ 53) :
    Represents (b + c) (add x y) (w + v) := by
  obtain ⟨z, rfl, hz, hw⟩ := h
  obtain ⟨z', rfl, hz', hv⟩ := h'
  have hsum : |z + z'| ≤ (b + c : ℕ) := (abs_add_le z z').trans (by push_cast; exact add_le_add hz hz')
  refine ⟨z + z', ?_, hsum, ?_⟩
  · rw [DoubleInt.add, ← Int.cast_add]
    refine double_intCast (lt_of_le_of_lt hsum ?_)
    exact_mod_cast hbc
  · rw [BitVec.ofInt_add, hw, hv]
    rfl

theorem Represents.sub (h : Represents b x w) (h' : Represents c y v) (hbc : b + c < 2 ^ 53) :
    Represents (b + c) (sub x y) (w - v) := by
  obtain ⟨z, rfl, hz, hw⟩ := h
  obtain ⟨z', rfl, hz', hv⟩ := h'
  have hsum : |z - z'| ≤ (b + c : ℕ) := (abs_sub z z').trans (by push_cast; exact add_le_add hz hz')
  refine ⟨z - z', ?_, hsum, ?_⟩
  · rw [DoubleInt.sub, ← Int.cast_sub]
    refine double_intCast (lt_of_le_of_lt hsum ?_)
    exact_mod_cast hbc
  · rw [Int.sub_eq_add_neg, BitVec.ofInt_add, BitVec.ofInt_neg, hw, hv, ← BitVec.sub_eq_add_neg]
    rfl

theorem Represents.bitOr (h : Represents b x w) (h' : Represents c y v) : Represents (2 ^ 32) (bitOr x y) (w ||| v) := by
  rw [DoubleInt.bitOr, h.toWord, h'.toWord]
  exact represents_asInt32 _

theorem Represents.bitXor (h : Represents b x w) (h' : Represents c y v) : Represents (2 ^ 32) (bitXor x y) (w ^^^ v) := by
  rw [DoubleInt.bitXor, h.toWord, h'.toWord]
  exact represents_asInt32 _

theorem Represents.bitAnd (h : Represents b x w) (h' : Represents c y v) : Represents (2 ^ 32) (bitAnd x y) (w &&& v) := by
  rw [DoubleInt.bitAnd, h.toWord, h'.toWord]
  exact represents_asInt32 _

theorem Represents.bitNot (h : Represents b x w) : Represents (2 ^ 32) (bitNot x) (~~~w) := by
  rw [DoubleInt.bitNot, h.toWord]
  exact represents_asInt32 _

theorem Represents.shiftLeft (h : Represents b x w) (h' : Represents c y v) :
    Represents (2 ^ 32) (shiftLeft x y) (w <<< v) := by
  rw [DoubleInt.shiftLeft, h.toWord, h'.toWord]
  exact represents_asInt32 _

theorem Represents.shiftRight (h : Represents b x w) (h' : Represents c y v) :
    Represents (2 ^ 32) (shiftRight x y) (w >>> v) := by
  rw [DoubleInt.shiftRight, h.toWord, h'.toWord]
  exact represents_asUint32 _

/-- `x >>> 0` is the unsigned number of the word. -/
theorem Represents.shiftRight_zero (h : Represents b x w) : DoubleInt.shiftRight x 0 = asUint32 w := by
  have hzero : DoubleInt.toWord 0 = 0 := by simp [DoubleInt.toWord]
  rw [DoubleInt.shiftRight, h.toWord, hzero]
  rfl

theorem Represents.unsign (h : Represents b x w) : Represents (2 ^ 32) (DoubleInt.shiftRight x 0) w := by
  rw [h.shiftRight_zero]
  exact represents_asUint32 w

end Knolo.Library.DoubleInt
