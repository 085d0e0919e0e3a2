import Knolo.Builder.Agent
import Knolo.Library.DoubleInt

/-!
# The script's own SHA-256, on numbers

`stableHash` of `packages/agents/src/builder/index.ts` as the language computes it: locals are numbers,
operators round or give signed integers, and a typed array keeps what is stored in it modulo `2 ^ 32`.
`Knolo.Builder.StableHash` has the same on words.

* `round_represents` — a round does on numbers what it does on words.
* `padded_eq` — the padded message, with a length that is computed in double precision.
* `stableHash_sha256` — the hash of a definition is the SHA-256 of its text, in hexadecimal. A definition
  is a JSON text here, which may say anything.
-/

namespace Knolo.Builder.HashArithmetic

open Library Library.DoubleInt Library.JsonText
open Library.Sha256 (Word State)

/-! ### The code -/

/-- `rotate`. -/
def rotate (x n : Number) : Number := bitOr (shiftRight x n) (shiftLeft x (sub 32 n))

/-- `SHA256_K`. -/
def sha256K : List Word :=
  [0x428a2f98, 0x71374491, 0xb5c0fbcf, 0xe9b5dba5, 0x3956c25b, 0x59f111f1, 0x923f82a4, 0xab1c5ed5,
   0xd807aa98, 0x12835b01, 0x243185be, 0x550c7dc3, 0x72be5d74, 0x80deb1fe, 0x9bdc06a7, 0xc19bf174,
   0xe49b69c1, 0xefbe4786, 0x0fc19dc6, 0x240ca1cc, 0x2de92c6f, 0x4a7484aa, 0x5cb0a9dc, 0x76f988da,
   0x983e5152, 0xa831c66d, 0xb00327c8, 0xbf597fc7, 0xc6e00bf3, 0xd5a79147, 0x06ca6351, 0x14292967,
   0x27b70a85, 0x2e1b2138, 0x4d2c6dfc, 0x53380d13, 0x650a7354, 0x766a0abb, 0x81c2c92e, 0x92722c85,
   0xa2bfe8a1, 0xa81a664b, 0xc24b8b70, 0xc76c51a3, 0xd192e819, 0xd6990624, 0xf40e3585, 0x106aa070,
   0x19a4c116, 0x1e376c08, 0x2748774c, 0x34b0bcb5, 0x391c0cb3, 0x4ed8aa4a, 0x5b9cca4f, 0x682e6ff3,
   0x748f82ee, 0x78a5636f, 0x84c87814, 0x8cc70208, 0x90befffa, 0xa4506ceb, 0xbef9a3f7, 0xc67178f2]

/-- The index that a number stands for. -/
def index (x : Number) : ℕ := ⌊x⌋.toNat

/-- `view.setUint32(offset, value)`. -/
def setUint32 (data : List UInt8) (offset value : Number) : List UInt8 :=
  StableHash.overwrite data (index offset) (StableHash.uint32 (toWord value).toNat)

/-- `view.getUint32(offset)`. -/
def getUint32 (data : List UInt8) (offset : Number) : Number := asUint32 (StableHash.getUint32 data (index offset))

/-- `paddedLength`. -/
def paddedLength (bytes : List UInt8) : Number := mul (ceil (div (add bytes.length 9) 64)) 64

/-- `data`, with the message and its length. -/
def padded (bytes : List UInt8) : List UInt8 :=
  let bitLength := mul bytes.length 8
  let data := StableHash.overwrite (List.replicate (index (paddedLength bytes)) 0) 0 bytes
  let data := data.set bytes.length 0x80
  let data := setUint32 data (sub (paddedLength bytes) 4) (shiftRight bitLength 0)
  setUint32 data (sub (paddedLength bytes) 8) (floor (div bitLength 0x100000000))

/-- The arrays `h` and `w`. -/
structure Arrays where
  h : State
  w : List Word

/-- The locals of the rounds. -/
structure Locals where
  a : Number
  b : Number
  c : Number
  d : Number
  e : Number
  f : Number
  g : Number
  hh : Number

/-- `w[i]`, for the words of the block. -/
def load (data : List UInt8) (offset : Number) (w : List Word) : List Word :=
  (List.range 16).foldl (fun w i => w.set i (toWord (getUint32 data (add offset (mul i 4))))) w

/-- The number that is stored in `w[i]`, from the words before it. -/
def scheduled (w : List Word) (i : ℕ) : Number :=
  let a := asUint32 (w.getD (i - 15) 0)
  let b := asUint32 (w.getD (i - 2) 0)
  let s0 := bitXor (bitXor (rotate a 7) (rotate a 18)) (shiftRight a 3)
  let s1 := bitXor (bitXor (rotate b 17) (rotate b 19)) (shiftRight b 10)
  shiftRight (add (add (add (asUint32 (w.getD (i - 16) 0)) s0) (asUint32 (w.getD (i - 7) 0))) s1) 0

/-- `w[i]`, for the other words. -/
def fill (w : List Word) : List Word :=
  (List.range' 16 48).foldl (fun w i => w.set i (toWord (scheduled w i))) w

/-- `[a,b,c,d,e,f,g,hh] = h`. -/
def locals (h : State) : Locals :=
  ⟨asUint32 h.a, asUint32 h.b, asUint32 h.c, asUint32 h.d, asUint32 h.e, asUint32 h.f, asUint32 h.g, asUint32 h.h⟩

/-- A round, with its constant and its word. -/
def round (l : Locals) (kw : Word × Word) : Locals :=
  let s1 := bitXor (bitXor (rotate l.e 6) (rotate l.e 11)) (rotate l.e 25)
  let ch := bitXor (bitAnd l.e l.f) (bitAnd (bitNot l.e) l.g)
  let t1 := shiftRight (add (add (add (add l.hh s1) ch) (asUint32 kw.1)) (asUint32 kw.2)) 0
  let s0 := bitXor (bitXor (rotate l.a 2) (rotate l.a 13)) (rotate l.a 22)
  let maj := bitXor (bitXor (bitAnd l.a l.b) (bitAnd l.a l.c)) (bitAnd l.b l.c)
  let t2 := shiftRight (add s0 maj) 0
  { hh := l.g, g := l.f, f := l.e, e := shiftRight (add l.d t1) 0
    d := l.c, c := l.b, b := l.a, a := shiftRight (add t1 t2) 0 }

/-- `h[i] = (h[i] + next[i]) >>> 0`. -/
def addNext (h : Word) (next : Number) : Word := toWord (shiftRight (add (asUint32 h) next) 0)

/-- The iteration of the block at `offset`. -/
def block (data : List UInt8) (offset : Number) (m : Arrays) : Arrays :=
  let w := fill (load data offset m.w)
  let next := (sha256K.zip w).foldl round (locals m.h)
  { h := ⟨addNext m.h.a next.a, addNext m.h.b next.b, addNext m.h.c next.c, addNext m.h.d next.d,
      addNext m.h.e next.e, addNext m.h.f next.f, addNext m.h.g next.g, addNext m.h.h next.hh⟩
    w := w }

/-- The loop over the blocks; it needs no more iterations than there are bytes. -/
def blocksFrom (data : List UInt8) : ℕ → Number → Arrays → Arrays
  | 0, _, m => m
  | n + 1, offset, m => if offset < data.length then blocksFrom data n (add offset 64) (block data offset m) else m

/-- The arrays as they are made. -/
def fresh : Arrays where
  h := ⟨0x6a09e667, 0xbb67ae85, 0x3c6ef372, 0xa54ff53a, 0x510e527f, 0x9b05688c, 0x1f83d9ab, 0x5be0cd19⟩
  w := List.replicate 64 0

/-- `stableHash`, from the bytes of the text. -/
def hashBytes (bytes : List UInt8) : String :=
  let data := padded bytes
  let h := (blocksFrom data (data.length + 1) 0 fresh).h
  String.ofList (h.words.flatMap StableHash.toHex)

/-- `stableHash`. -/
def stableHash (value : Written) : String := hashBytes (bytes value)

/-! ### Words and rounds -/

section Rounds

variable {b : ℕ} {x : Number} {w : Word}

theorem rotate_represents (h : Represents b x w) (n : ℕ) [n.AtLeastTwo] (hn : n ≤ 32 := by decide) :
    Represents (2 ^ 32) (rotate x (OfNat.ofNat n)) (StableHash.rotate w (OfNat.ofNat n)) := by
  have hleft := (represents_ofNat 32).sub (represents_ofNat n) (by omega)
  exact (h.shiftRight (represents_ofNat n)).bitOr (h.shiftLeft hleft)

/-- The locals are words. -/
structure Locals.Represent (l : Locals) (s : State) : Prop where
  a : Represents (2 ^ 32) l.a s.a
  b : Represents (2 ^ 32) l.b s.b
  c : Represents (2 ^ 32) l.c s.c
  d : Represents (2 ^ 32) l.d s.d
  e : Represents (2 ^ 32) l.e s.e
  f : Represents (2 ^ 32) l.f s.f
  g : Represents (2 ^ 32) l.g s.g
  hh : Represents (2 ^ 32) l.hh s.h

theorem locals_represent (h : State) : (locals h).Represent h := by
  constructor <;> exact represents_asUint32 _

/-- **A round does on numbers what it does on words.** -/
theorem round_represents {l : Locals} {s : State} (h : l.Represent s) (kw : Word × Word) :
    (round l kw).Represent (StableHash.round s kw) := by
  have hs1 := ((rotate_represents h.e 6).bitXor (rotate_represents h.e 11)).bitXor (rotate_represents h.e 25)
  have hch := (h.e.bitAnd h.f).bitXor (h.e.bitNot.bitAnd h.g)
  have hsum := (((h.hh.add hs1 (by norm_num)).add hch (by norm_num)).add (represents_asUint32 kw.1) (by norm_num)).add
    (represents_asUint32 kw.2) (by norm_num)
  have hs0 := ((rotate_represents h.a 2).bitXor (rotate_represents h.a 13)).bitXor (rotate_represents h.a 22)
  have hmaj := ((h.a.bitAnd h.b).bitXor (h.a.bitAnd h.c)).bitXor (h.b.bitAnd h.c)
  have ht1 := hsum.unsign
  have ht2 := (hs0.add hmaj (by norm_num)).unsign
  exact {
    a := (ht1.add ht2 (by norm_num)).unsign
    b := h.a
    c := h.b
    d := h.c
    e := (h.d.add ht1 (by norm_num)).unsign
    f := h.e
    g := h.f
    hh := h.g }

theorem rounds_represent (kws : List (Word × Word)) : ∀ {l : Locals} {s : State}, l.Represent s →
    (kws.foldl round l).Represent (kws.foldl StableHash.round s) := by
  induction kws with
  | nil => exact fun h => h
  | cons kw kws ih => exact fun h => ih (round_represents h kw)

theorem addNext_eq (h : Word) {next : Number} {w : Word} (hnext : Represents (2 ^ 32) next w) : addNext h next = h + w :=
  (((represents_asUint32 h).add hnext (by norm_num)).unsign).toWord

/-- The words after the rounds are added to those before. -/
theorem addNext_represents {l : Locals} {s : State} (hl : l.Represent s) (h : State) :
    (⟨addNext h.a l.a, addNext h.b l.b, addNext h.c l.c, addNext h.d l.d, addNext h.e l.e, addNext h.f l.f,
      addNext h.g l.g, addNext h.h l.hh⟩ : State) = h.add s := by
  rw [addNext_eq _ hl.a, addNext_eq _ hl.b, addNext_eq _ hl.c, addNext_eq _ hl.d, addNext_eq _ hl.e,
    addNext_eq _ hl.f, addNext_eq _ hl.g, addNext_eq _ hl.hh]
  rfl

theorem sha256K_eq : sha256K = Sha256.constants := rfl

end Rounds

/-! ### The schedule -/

theorem scheduled_eq {w : List Word} {i : ℕ} (hi : 16 ≤ i) (hlen : i ≤ w.length) :
    toWord (scheduled w i) = StableHash.next (w.take i) := by
  have hget : ∀ k, 0 < k → k ≤ 16 → (w.take i).getD (i - k) 0 = w.getD (i - k) 0 := by
    intro k hpos hk
    rw [List.getD_eq_getElem?_getD, List.getD_eq_getElem?_getD, List.getElem?_take_of_lt (by omega)]
  have ha := represents_asUint32 (w.getD (i - 15) 0)
  have hb := represents_asUint32 (w.getD (i - 2) 0)
  have hs0 := ((rotate_represents ha 7).bitXor (rotate_represents ha 18)).bitXor (ha.shiftRight (represents_ofNat 3))
  have hs1 := ((rotate_represents hb 17).bitXor (rotate_represents hb 19)).bitXor (hb.shiftRight (represents_ofNat 10))
  have hsum := ((((represents_asUint32 (w.getD (i - 16) 0)).add hs0 (by norm_num)).add
    (represents_asUint32 (w.getD (i - 7) 0)) (by norm_num)).add hs1 (by norm_num)).unsign.toWord
  have hnext : StableHash.next (w.take i) = _ := rfl
  rw [StableHash.next, List.length_take_of_le hlen, hget 15 (by decide) (by decide), hget 2 (by decide) (by decide),
    hget 16 (by decide) (by decide), hget 7 (by decide) (by decide)]
  exact hsum

/-- A word that is stored comes after those before it. -/
theorem take_set_succ {w : List Word} {i : ℕ} (hi : i < w.length) (x : Word) : (w.set i x).take (i + 1) = w.take i ++ [x] := by
  rw [List.take_succ_eq_append_getElem (by simpa using hi), List.take_set_of_le (le_refl i), List.getElem_set_self]

theorem load_eq (data : List UInt8) (offset : Number) (w : List Word) (n : ℕ) (hn : n ≤ w.length) :
    let stored := (List.range n).foldl (fun w i => w.set i (toWord (getUint32 data (add offset (mul i 4))))) w
    stored.length = w.length ∧
      stored.take n = (List.range n).map fun i : ℕ => toWord (getUint32 data (add offset (mul i 4))) := by
  induction n with
  | zero => exact ⟨rfl, rfl⟩
  | succ n ih =>
    obtain ⟨hlength, htake⟩ := ih (by omega)
    rw [List.range_succ, List.foldl_append, List.map_append, ← htake]
    refine ⟨by simpa using hlength, take_set_succ (by omega) _⟩

theorem fill_eq (n : ℕ) : ∀ (k : ℕ) (w : List Word), 16 ≤ k → k + n ≤ w.length →
    let stored := (List.range' k n).foldl (fun w i => w.set i (toWord (scheduled w i))) w
    stored.length = w.length ∧ stored.take (k + n) = StableHash.grow n (w.take k) := by
  induction n with
  | zero => exact fun k w _ _ => ⟨rfl, rfl⟩
  | succ n ih =>
    intro k w hk hlen
    obtain ⟨hlength, htake⟩ := ih (k + 1) (w.set k (toWord (scheduled w k))) (by omega) (by simpa using by omega)
    refine ⟨by simpa [List.range'_succ] using hlength, ?_⟩
    rw [List.range'_succ, List.foldl_cons, show k + (n + 1) = k + 1 + n by omega, htake, take_set_succ (by omega),
      scheduled_eq hk (by omega)]
    rfl

/-! ### The blocks -/

/-- The loop has come to block `k`. -/
theorem getUint32_eq (data : List UInt8) {k i : ℕ} (hk : k * 64 + i * 4 < 2 ^ 53) :
    toWord (getUint32 data (add (k * 64 : ℕ) (mul i 4))) = StableHash.getUint32 data (k * 64 + i * 4) := by
  have hmul : mul i 4 = (i * 4 : ℕ) := by
    rw [← Nat.cast_ofNat (R := ℚ)]
    exact mul_natCast (by omega)
  rw [hmul, add_natCast hk, getUint32, index, Int.floor_natCast, Int.toNat_natCast]
  exact (represents_asUint32 _).toWord

theorem block_w (data : List UInt8) (offset : Number) (m : Arrays) : (block data offset m).w = fill (load data offset m.w) := by
  rw [block]

theorem block_h (data : List UInt8) (offset : Number) (m : Arrays) {s : State}
    (h : ((sha256K.zip (fill (load data offset m.w))).foldl round (locals m.h)).Represent s) :
    (block data offset m).h = m.h.add s := by
  rw [block]
  exact addNext_represents h m.h

theorem block_eq (data : List UInt8) {k : ℕ} (hk : k * 64 + 64 ≤ 2 ^ 53) {m : Arrays} (hw : m.w.length = 64) :
    (block data (k * 64 : ℕ) m).h = StableHash.block data (k * 64) m.h ∧ (block data (k * 64 : ℕ) m).w.length = 64 := by
  obtain ⟨hlength, htake⟩ := load_eq data (k * 64 : ℕ) m.w 16 (by omega)
  obtain ⟨hlength', htake'⟩ := fill_eq 48 16 (load data (k * 64 : ℕ) m.w) (le_refl _) (by rw [load, hlength, hw])
  have hfill : (fill (load data (k * 64 : ℕ) m.w)).length = 64 := by
    rw [fill, hlength', load, hlength, hw]
  have hschedule : fill (load data (k * 64 : ℕ) m.w) = StableHash.schedule data (k * 64) := by
    have hwords : (load data (k * 64 : ℕ) m.w).take 16 =
        (List.range 16).map fun i => StableHash.getUint32 data (k * 64 + i * 4) := by
      rw [load, htake]
      refine List.map_congr_left fun i hi => ?_
      rw [List.mem_range] at hi
      exact getUint32_eq data (by omega)
    rw [StableHash.schedule, ← hwords, ← htake', List.take_of_length_le (by rw [← fill, hfill])]
    rfl
  have hrounds := rounds_represent (sha256K.zip (StableHash.schedule data (k * 64))) (locals_represent m.h)
  rw [block_w]
  refine ⟨?_, hfill⟩
  rw [← hschedule] at hrounds
  rw [block_h data _ m hrounds, StableHash.block, hschedule, ← sha256K_eq]

theorem blocksFrom_eq (data : List UInt8) {count : ℕ} (hdata : data.length = count * 64) (hsmall : count * 64 < 2 ^ 53) :
    ∀ (n k : ℕ) (m : Arrays), m.w.length = 64 → k ≤ count → count - k < n →
      (blocksFrom data n (k * 64 : ℕ) m).h =
        (List.range' k (count - k)).foldl (fun h i => StableHash.block data (i * 64) h) m.h := by
  intro n
  induction n with
  | zero => intro k m _ _ hn; omega
  | succ n ih =>
    intro k m hw hk hn
    by_cases hend : k = count
    · subst hend
      rw [blocksFrom, if_neg (by rw [hdata]; exact lt_irrefl _), Nat.sub_self]
      rfl
    · have hlt : ((k * 64 : ℕ) : Number) < data.length := by
        rw [hdata]
        exact_mod_cast (by omega : k * 64 < count * 64)
      obtain ⟨hblock, hlength⟩ := block_eq data (k := k) (by omega) hw
      have hoffset : add (k * 64 : ℕ) 64 = ((k + 1) * 64 : ℕ) := by
        rw [← Nat.cast_ofNat (R := ℚ), add_natCast (by omega), Nat.succ_mul]
      rw [blocksFrom, if_pos hlt, hoffset, ih (k + 1) _ hlength (by omega) (by omega), hblock,
        show count - k = count - (k + 1) + 1 by omega, List.range'_succ, List.foldl_cons]

/-! ### The message -/

theorem paddedLength_eq {bytes : List UInt8} (h : bytes.length < 2 ^ 50) :
    paddedLength bytes = (StableHash.paddedLength bytes.length : ℕ) := by
  have hadd : add bytes.length 9 = (bytes.length + 9 : ℕ) := by
    rw [← Nat.cast_ofNat (R := ℚ)]
    exact add_natCast (by omega)
  have hceil := ceil_div_dyadic (n := bytes.length + 9) (k := 6) (by omega) (by decide)
  have hpow : ((2 ^ 6 : ℕ) : ℚ) = 64 := by norm_num
  rw [hpow] at hceil
  rw [paddedLength, hadd, hceil, ← Nat.cast_ofNat (R := ℚ), mul_natCast (by omega)]
  congr 1

theorem padded_eq {bytes : List UInt8} (h : bytes.length < 2 ^ 50) : padded bytes = StableHash.padded bytes := by
  set n := StableHash.paddedLength bytes.length with hn
  have hlarge : bytes.length + 9 ≤ n := by
    rw [hn, StableHash.paddedLength]
    omega
  have hsmall : n < 2 ^ 53 := by
    rw [hn, StableHash.paddedLength]
    omega
  have hindex : index (paddedLength bytes) = n := by rw [paddedLength_eq h, index, Int.floor_natCast, Int.toNat_natCast]
  have hsub4 : index (sub (paddedLength bytes) 4) = n - 4 := by
    rw [paddedLength_eq h, ← Nat.cast_ofNat (R := ℚ), sub_natCast hsmall (by omega), index, Int.floor_natCast,
      Int.toNat_natCast]
  have hsub8 : index (sub (paddedLength bytes) 8) = n - 8 := by
    rw [paddedLength_eq h, ← Nat.cast_ofNat (R := ℚ), sub_natCast hsmall (by omega), index, Int.floor_natCast,
      Int.toNat_natCast]
  have hbits : mul bytes.length 8 = (bytes.length * 8 : ℕ) := by
    rw [← Nat.cast_ofNat (R := ℚ)]
    exact mul_natCast (by omega)
  have hlow : (toWord (shiftRight (mul bytes.length 8) 0)).toNat = bytes.length * 8 % 2 ^ 32 := by
    rw [hbits, (represents_natCast _).unsign.toWord]
    rfl
  have hhigh : (toWord (floor (div (mul bytes.length 8) 0x100000000))).toNat = bytes.length * 8 / 2 ^ 32 := by
    have hfloor := floor_div_dyadic (n := bytes.length * 8) (k := 32) (by omega) (by decide)
    have hpow : ((2 ^ 32 : ℕ) : ℚ) = 0x100000000 := by norm_num
    rw [hpow] at hfloor
    rw [hbits, hfloor, (represents_natCast _).toWord]
    exact Nat.mod_eq_of_lt (by omega)
  simp only [padded, setUint32, StableHash.padded, hindex, hsub4, hsub8, hlow, hhigh, ← hn]

/-! ### The hash -/

/-- On fewer than `2 ^ 50` bytes, the hash on numbers is that on words. -/
theorem hashBytes_eq {bytes : List UInt8} (h : bytes.length < 2 ^ 50) : hashBytes bytes = StableHash.stableHash bytes := by
  have hlength : (StableHash.padded bytes).length = StableHash.paddedLength bytes.length := by
    rw [StableHash.padded_eq, Sha256.pad, StableHash.paddedLength]
    simp only [List.length_append, List.length_cons, List.length_replicate, List.length_map, List.length_range]
    omega
  have hcount : (StableHash.padded bytes).length = (bytes.length + 9 + 63) / 64 * 64 := hlength
  have hloop := blocksFrom_eq (StableHash.padded bytes) hcount (by omega) ((StableHash.padded bytes).length + 1) 0 fresh
    (by decide) (Nat.zero_le _) (by omega)
  rw [Nat.zero_mul, Nat.cast_zero, Nat.sub_zero] at hloop
  have hblocks : ((StableHash.padded bytes).length + 63) / 64 = (bytes.length + 9 + 63) / 64 := by omega
  rw [hashBytes, StableHash.stableHash, padded_eq h, hloop, StableHash.hashBlocks, hblocks, List.range_eq_range']
  rfl

/-- **The hash of a definition is the SHA-256 of its text**, whatever the text. -/
theorem stableHash_sha256 (value : Written) (h : (bytes value).length < 2 ^ 50) :
    stableHash value = Sha256.hex (bytes value) := by
  rw [stableHash, hashBytes_eq h, StableHash.stableHash_eq]

/-- A text of one member. -/
def sampleText : Written := .object [("id", .string "g")]

theorem stableHash_sha256_sample :
    (bytes sampleText).length < 2 ^ 50 ∧ stableHash sampleText = Sha256.hex (bytes sampleText) :=
  have hshort : (bytes sampleText).length < 2 ^ 50 := by decide +kernel
  ⟨hshort, stableHash_sha256 _ hshort⟩

end Knolo.Builder.HashArithmetic
