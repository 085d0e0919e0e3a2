import Knolo.Library.Sha256
import Mathlib.Data.List.Range

/-!
# The script's own SHA-256

`stableHash` of `packages/agents/src/builder/index.ts` computes a SHA-256 by hand, on words as
JavaScript has them. `stableHash_eq` says that it is the hash function of the standard, with which
the core hashes too.

The operators `|`, `^`, `&`, `~`, `<<` and `>>>` and sums reduced by `>>> 0` are those of 32-bit
words.
-/

namespace Knolo.Builder.StableHash

open Library.Sha256

/-! ### The code -/

/-- `rotate`. -/
def rotate (x n : Word) : Word := (x >>> n) ||| (x <<< (32 - n))

/-- `data.set(bytes, offset)`. -/
def overwrite (data : List UInt8) (offset : ℕ) (bytes : List UInt8) : List UInt8 :=
  data.take offset ++ bytes ++ data.drop (offset + bytes.length)

/-- The bytes of a number in 32 bits, the highest first. -/
def uint32 (value : ℕ) : List UInt8 := (List.range 4).map fun i => UInt8.ofNat (value / 256 ^ (3 - i))

/-- `view.getUint32(offset)`. -/
def getUint32 (data : List UInt8) (offset : ℕ) : Word := word ((data.drop offset).take 4)

/-- The length of the padded message: `Math.ceil((length + 9) / 64) * 64`. -/
def paddedLength (length : ℕ) : ℕ := (length + 9 + 63) / 64 * 64

/-- The padded message. -/
def padded (bytes : List UInt8) : List UInt8 :=
  let bitLength := bytes.length * 8
  let n := paddedLength bytes.length
  let data := overwrite (List.replicate n 0) 0 bytes
  let data := data.set bytes.length 0x80
  let data := overwrite data (n - 4) (uint32 (bitLength % 2 ^ 32))
  overwrite data (n - 8) (uint32 (bitLength / 2 ^ 32))

/-- The word `w[i]` with `i` the number of words so far. -/
def next (w : List Word) : Word :=
  let i := w.length
  let a := w.getD (i - 15) 0
  let b := w.getD (i - 2) 0
  let s0 := rotate a 7 ^^^ rotate a 18 ^^^ (a >>> 3)
  let s1 := rotate b 17 ^^^ rotate b 19 ^^^ (b >>> 10)
  w.getD (i - 16) 0 + s0 + w.getD (i - 7) 0 + s1

/-- `n` more words. -/
def grow : ℕ → List Word → List Word
  | 0, w => w
  | n + 1, w => grow n (w ++ [next w])

/-- The schedule of the block at `offset`. -/
def schedule (data : List UInt8) (offset : ℕ) : List Word :=
  grow 48 ((List.range 16).map fun i => getUint32 data (offset + i * 4))

/-- A round, with its constant and its word. -/
def round (s : State) (kw : Word × Word) : State :=
  let s1 := rotate s.e 6 ^^^ rotate s.e 11 ^^^ rotate s.e 25
  let ch := (s.e &&& s.f) ^^^ (~~~s.e &&& s.g)
  let t1 := s.h + s1 + ch + kw.1 + kw.2
  let s0 := rotate s.a 2 ^^^ rotate s.a 13 ^^^ rotate s.a 22
  let maj := (s.a &&& s.b) ^^^ (s.a &&& s.c) ^^^ (s.b &&& s.c)
  let t2 := s0 + maj
  ⟨t1 + t2, s.a, s.b, s.c, s.d + t1, s.e, s.f, s.g⟩

/-- The state after the block at `offset`. -/
def block (data : List UInt8) (offset : ℕ) (h : State) : State :=
  h.add ((constants.zip (schedule data offset)).foldl round h)

/-- The state after all blocks. -/
def hashBlocks (data : List UInt8) : State :=
  (List.range ((data.length + 63) / 64)).foldl (fun h i => block data (i * 64) h) initial

/-- `x.toString(16).padStart(8, "0")`. -/
def toHex (x : Word) : List Char := (Nat.toDigits 16 x.toNat).leftpad 8 '0'

/-- `stableHash`, of the bytes of a text. -/
def stableHash (bytes : List UInt8) : String :=
  String.ofList ((hashBlocks (padded bytes)).words.flatMap toHex)

/-! ### The message -/

theorem overwrite_append {xs ys zs bs : List UInt8} (h : bs.length = ys.length) :
    overwrite (xs ++ ys ++ zs) xs.length bs = xs ++ bs ++ zs := by
  have htake : (xs ++ ys ++ zs).take xs.length = xs := by
    rw [List.append_assoc, List.take_left]
  have hdrop : (xs ++ ys ++ zs).drop (xs.length + bs.length) = zs := by
    rw [h, ← List.length_append, List.drop_left]
  rw [overwrite, htake, hdrop]

theorem uint32_append (value : ℕ) : uint32 (value / 2 ^ 32) ++ uint32 (value % 2 ^ 32) =
    (List.range 8).map fun i => UInt8.ofNat (value / 256 ^ (7 - i)) := by
  have hbyte : ∀ {m n : ℕ}, m % 256 = n % 256 → UInt8.ofNat m = UInt8.ofNat n := fun h =>
    UInt8.toNat_inj.mp (by simpa using h)
  simp only [uint32, List.range_succ, List.range_zero, List.nil_append, List.cons_append, List.map_cons,
    List.map_nil, List.cons.injEq, and_true]
  refine ⟨?_, ?_, ?_, ?_, ?_, ?_, ?_, ?_⟩ <;>
  · refine hbyte ?_
    simp only [Nat.reduceSub, Nat.reducePow]
    omega

theorem padded_eq (bytes : List UInt8) : padded bytes = pad bytes := by
  have hn : paddedLength bytes.length =
      bytes.length + 1 + (119 - bytes.length % 64) % 64 + 8 := by
    unfold paddedLength
    omega
  set z := (119 - bytes.length % 64) % 64
  have h0 : overwrite (List.replicate (paddedLength bytes.length) 0) 0 bytes =
      bytes ++ List.replicate (1 + (z + (4 + 4))) 0 := by
    have hrep : List.replicate (paddedLength bytes.length) (0 : UInt8) =
        [] ++ List.replicate bytes.length 0 ++ List.replicate (1 + (z + (4 + 4))) 0 := by
      rw [List.nil_append, ← List.replicate_add, hn]
      congr 1
      omega
    rw [hrep]
    exact @overwrite_append [] _ _ _ (by simp)
  have h1 : (bytes ++ List.replicate (1 + (z + (4 + 4))) 0).set bytes.length 0x80 =
      (bytes ++ 0x80 :: List.replicate z 0) ++ List.replicate 4 0 ++ List.replicate 4 0 := by
    rw [List.set_append_right _ _ (le_refl _), Nat.sub_self, List.replicate_add, List.replicate_add,
      List.replicate_add]
    simp
  have hlen : (bytes ++ (0x80 : UInt8) :: List.replicate z 0).length = bytes.length + 1 + z := by
    simp only [List.length_append, List.length_cons, List.length_replicate]
    omega
  have h2 : overwrite ((bytes ++ 0x80 :: List.replicate z 0) ++ List.replicate 4 0 ++ List.replicate 4 0)
      (paddedLength bytes.length - 4) (uint32 (bytes.length * 8 % 2 ^ 32)) =
        (bytes ++ 0x80 :: List.replicate z 0) ++ List.replicate 4 0 ++
          uint32 (bytes.length * 8 % 2 ^ 32) := by
    have hoff : paddedLength bytes.length - 4 =
        ((bytes ++ (0x80 : UInt8) :: List.replicate z 0) ++ List.replicate 4 0).length := by
      rw [List.length_append, hlen, List.length_replicate, hn]
      omega
    have := @overwrite_append ((bytes ++ (0x80 : UInt8) :: List.replicate z 0) ++ List.replicate 4 0)
      (List.replicate 4 0) [] (uint32 (bytes.length * 8 % 2 ^ 32)) (by simp [uint32])
    rwa [List.append_nil, List.append_nil, ← hoff] at this
  have h3 : overwrite ((bytes ++ 0x80 :: List.replicate z 0) ++ List.replicate 4 0 ++
      uint32 (bytes.length * 8 % 2 ^ 32)) (paddedLength bytes.length - 8)
        (uint32 (bytes.length * 8 / 2 ^ 32)) =
      (bytes ++ 0x80 :: List.replicate z 0) ++ uint32 (bytes.length * 8 / 2 ^ 32) ++
        uint32 (bytes.length * 8 % 2 ^ 32) := by
    have hoff : paddedLength bytes.length - 8 = (bytes ++ (0x80 : UInt8) :: List.replicate z 0).length := by
      rw [hlen, hn]
      omega
    rw [hoff]
    exact overwrite_append (by simp [uint32])
  rw [padded, h0, h1, h2, h3, List.append_assoc, uint32_append, pad, Nat.mul_comm bytes.length 8]

/-! ### The blocks -/

/-- A word of a schedule, counted from the end. -/
theorem getD_reverse {w : List Word} {i : ℕ} (h : i < w.length) :
    w.reverse.getD i 0 = w.getD (w.length - 1 - i) 0 := by
  rw [List.getD_eq_getElem?_getD, List.getD_eq_getElem?_getD, List.getElem?_reverse h]

theorem next_eq {w : List Word} (h : 16 ≤ w.length) : next w = nextWord w.reverse := by
  have hat : ∀ {i j : ℕ}, i < 16 → w.length - 1 - i = w.length - j → w.reverse.getD i 0 = w.getD (w.length - j) 0 :=
    fun hi hj => by rw [getD_reverse (by omega), hj]
  have hnext : next w = w.getD (w.length - 16) 0 + smallSigma0 (w.getD (w.length - 15) 0) +
      w.getD (w.length - 7) 0 + smallSigma1 (w.getD (w.length - 2) 0) := rfl
  rw [hnext, nextWord, hat (j := 2) (by omega) (by omega), hat (j := 7) (by omega) (by omega),
    hat (j := 15) (by omega) (by omega), hat (j := 16) (by omega) (by omega)]
  generalize w.getD (w.length - 16) 0 = w16, smallSigma0 _ = s0, w.getD (w.length - 7) 0 = w7, smallSigma1 _ = s1
  ac_rfl

theorem grow_eq (n : ℕ) : ∀ {w : List Word}, 16 ≤ w.length → grow n w = (extend n w.reverse).reverse := by
  induction n with
  | zero => intro w _; exact (List.reverse_reverse w).symm
  | succ n ih =>
    intro w h
    rw [grow, extend, ih (by rw [List.length_append]; omega), List.reverse_append, next_eq h]
    rfl

theorem schedule_eq (data : List UInt8) (offset : ℕ) :
    schedule data offset = Library.Sha256.schedule ((data.drop offset).take 64) := by
  have hwords : (List.range 16).map (fun i => getUint32 data (offset + i * 4)) =
      (List.range 16).map fun i => word ((((data.drop offset).take 64).drop (4 * i)).take 4) := by
    refine List.map_congr_left fun i hi => ?_
    rw [List.mem_range] at hi
    rw [getUint32, List.drop_take, List.take_take, List.drop_drop, Nat.mul_comm i 4, Nat.min_eq_left (by omega)]
  rw [schedule, Library.Sha256.schedule, grow_eq _ (by simp), hwords]

theorem block_eq (data : List UInt8) (offset : ℕ) (h : State) :
    block data offset h = compress h ((data.drop offset).take 64) := by
  rw [block, compress, schedule_eq]
  rfl

theorem foldl_block (data : List UInt8) : ∀ (n k : ℕ) (h : State),
    (List.range' k n).foldl (fun h i => block data (i * 64) h) h = blocks n h (data.drop (k * 64)) := by
  intro n
  induction n with
  | zero => intro _ _; rfl
  | succ n ih =>
    intro k h
    rw [List.range'_succ, List.foldl_cons, ih, blocks, block_eq, List.drop_drop, Nat.succ_mul]

/-! ### The digits -/

theorem digitChar_eq : ∀ n < 16, Nat.digitChar n = hexDigit n := by decide

/-- The last digit of a number, behind the others. -/
theorem leftpad_succ {k : ℕ} (hk : 0 < k) (n : ℕ) : (Nat.toDigits 16 n).leftpad (k + 1) '0' =
    (Nat.toDigits 16 (n / 16)).leftpad k '0' ++ [Nat.digitChar (n % 16)] := by
  by_cases hn : n < 16
  · obtain ⟨k, rfl⟩ := Nat.exists_eq_succ_of_ne_zero hk.ne'
    rw [Nat.div_eq_of_lt hn, Nat.mod_eq_of_lt hn, Nat.toDigits_of_lt_base hn, Nat.toDigits_zero]
    simp [List.leftpad, List.replicate_succ']
  · rw [Nat.toDigits_of_base_le (by decide) (by omega)]
    simp [List.leftpad]

/-- A number in `k` hexadecimal digits. -/
theorem leftpad_toDigits : ∀ {k n : ℕ}, 0 < k → n < 16 ^ k → (Nat.toDigits 16 n).leftpad k '0' =
    (List.range k).map fun i => hexDigit (n / 16 ^ (k - 1 - i) % 16) := by
  intro k
  induction k with
  | zero => intro n h; omega
  | succ k ih =>
    intro n _ h
    by_cases hk : k = 0
    · subst hk
      rw [Nat.zero_add, Nat.pow_one] at h
      rw [Nat.toDigits_of_lt_base h, digitChar_eq n h]
      simp [List.leftpad, Nat.mod_eq_of_lt h]
    · have hlt : n / 16 < 16 ^ k := Nat.div_lt_of_lt_mul (by rwa [← Nat.pow_succ'])
      rw [leftpad_succ (by omega), ih (by omega) hlt, List.range_succ, List.map_append,
        digitChar_eq _ (Nat.mod_lt _ (by decide))]
      congr 1
      · refine List.map_congr_left fun i hi => ?_
        rw [List.mem_range] at hi
        have hpow : 16 * 16 ^ (k - 1 - i) = 16 ^ (k + 1 - 1 - i) := by
          rw [← Nat.pow_succ']
          congr 1
          omega
        rw [Nat.div_div_eq_div_mul, hpow]
      · simp

theorem toHex_eq (x : Word) : toHex x = hexWord x := by
  have := leftpad_toDigits (k := 8) (n := x.toNat) (by decide) (by have := x.toNat_lt; omega)
  exact this

/-- **The script's hash is SHA-256.** -/
theorem stableHash_eq (bytes : List UInt8) : stableHash bytes = Library.Sha256.hex bytes := by
  have hlen : (pad bytes).length % 64 = 0 := by
    simp only [pad, List.length_append, List.length_cons, List.length_replicate, List.length_map,
      List.length_range]
    omega
  have hcount : ((pad bytes).length + 63) / 64 = (pad bytes).length / 64 := by omega
  have hhex : toHex = hexWord := funext toHex_eq
  rw [stableHash, Library.Sha256.hex, digest, padded_eq, hashBlocks, hcount, hhex, List.range_eq_range',
    foldl_block, Nat.zero_mul, List.drop_zero]

end Knolo.Builder.StableHash
