import Mathlib.Algebra.Group.Nat.Defs
import Mathlib.Data.List.Basic
import Mathlib.Data.Nat.Notation
import Mathlib.Tactic.Common

/-!
# SHA-256

The hash function of FIPS 180-4, on lists of bytes.
-/

namespace Knolo.Library.Sha256

/-- A 32-bit word. -/
abbrev Word := UInt32

/-- Rotation to the right. -/
def rotr (n : Word) (x : Word) : Word := (x >>> n) ||| (x <<< (32 - n))

/-- `Ch`. -/
def ch (x y z : Word) : Word := (x &&& y) ^^^ (~~~x &&& z)

/-- `Maj`. -/
def maj (x y z : Word) : Word := (x &&& y) ^^^ (x &&& z) ^^^ (y &&& z)

/-- `Σ₀`. -/
def bigSigma0 (x : Word) : Word := rotr 2 x ^^^ rotr 13 x ^^^ rotr 22 x

/-- `Σ₁`. -/
def bigSigma1 (x : Word) : Word := rotr 6 x ^^^ rotr 11 x ^^^ rotr 25 x

/-- `σ₀`. -/
def smallSigma0 (x : Word) : Word := rotr 7 x ^^^ rotr 18 x ^^^ (x >>> 3)

/-- `σ₁`. -/
def smallSigma1 (x : Word) : Word := rotr 17 x ^^^ rotr 19 x ^^^ (x >>> 10)

/-- The constants of the rounds. -/
def constants : List Word :=
  [0x428a2f98, 0x71374491, 0xb5c0fbcf, 0xe9b5dba5, 0x3956c25b, 0x59f111f1, 0x923f82a4, 0xab1c5ed5,
   0xd807aa98, 0x12835b01, 0x243185be, 0x550c7dc3, 0x72be5d74, 0x80deb1fe, 0x9bdc06a7, 0xc19bf174,
   0xe49b69c1, 0xefbe4786, 0x0fc19dc6, 0x240ca1cc, 0x2de92c6f, 0x4a7484aa, 0x5cb0a9dc, 0x76f988da,
   0x983e5152, 0xa831c66d, 0xb00327c8, 0xbf597fc7, 0xc6e00bf3, 0xd5a79147, 0x06ca6351, 0x14292967,
   0x27b70a85, 0x2e1b2138, 0x4d2c6dfc, 0x53380d13, 0x650a7354, 0x766a0abb, 0x81c2c92e, 0x92722c85,
   0xa2bfe8a1, 0xa81a664b, 0xc24b8b70, 0xc76c51a3, 0xd192e819, 0xd6990624, 0xf40e3585, 0x106aa070,
   0x19a4c116, 0x1e376c08, 0x2748774c, 0x34b0bcb5, 0x391c0cb3, 0x4ed8aa4a, 0x5b9cca4f, 0x682e6ff3,
   0x748f82ee, 0x78a5636f, 0x84c87814, 0x8cc70208, 0x90befffa, 0xa4506ceb, 0xbef9a3f7, 0xc67178f2]

/-- The eight words of the state. -/
structure State where
  a : Word
  b : Word
  c : Word
  d : Word
  e : Word
  f : Word
  g : Word
  h : Word
  deriving DecidableEq

/-- The initial hash value. -/
def initial : State :=
  ⟨0x6a09e667, 0xbb67ae85, 0x3c6ef372, 0xa54ff53a, 0x510e527f, 0x9b05688c, 0x1f83d9ab, 0x5be0cd19⟩

/-- The message: the bit `1`, then as many zero bits as complete a block with the length. -/
def pad (bytes : List UInt8) : List UInt8 :=
  bytes ++ 0x80 :: List.replicate ((119 - bytes.length % 64) % 64) 0 ++
    (List.range 8).map fun i => UInt8.ofNat (8 * bytes.length / 256 ^ (7 - i))

/-- A word from its bytes, the highest first. -/
def word (bytes : List UInt8) : Word := bytes.foldl (fun w b => (w <<< 8) ||| b.toUInt32) 0

/-- The next word of the schedule, from the words so far, the latest first. -/
def nextWord (ws : List Word) : Word :=
  smallSigma1 (ws.getD 1 0) + ws.getD 6 0 + smallSigma0 (ws.getD 14 0) + ws.getD 15 0

/-- The schedule with `n` more words, the latest first. -/
def extend : ℕ → List Word → List Word
  | 0, ws => ws
  | n + 1, ws => extend n (nextWord ws :: ws)

/-- The schedule of a block. -/
def schedule (block : List UInt8) : List Word :=
  (extend 48 ((List.range 16).map fun i => word ((block.drop (4 * i)).take 4)).reverse).reverse

/-- A round. -/
def round (s : State) (kw : Word × Word) : State :=
  let t1 := s.h + bigSigma1 s.e + ch s.e s.f s.g + kw.1 + kw.2
  let t2 := bigSigma0 s.a + maj s.a s.b s.c
  ⟨t1 + t2, s.a, s.b, s.c, s.d + t1, s.e, s.f, s.g⟩

/-- The addition of states. -/
def State.add (s t : State) : State :=
  ⟨s.a + t.a, s.b + t.b, s.c + t.c, s.d + t.d, s.e + t.e, s.f + t.f, s.g + t.g, s.h + t.h⟩

/-- The state after a block. -/
def compress (s : State) (block : List UInt8) : State :=
  s.add ((constants.zip (schedule block)).foldl round s)

/-- The state after `n` blocks of a message. -/
def blocks : ℕ → State → List UInt8 → State
  | 0, s, _ => s
  | n + 1, s, message => blocks n (compress s (message.take 64)) (message.drop 64)

/-- The words of a state. -/
def State.words (s : State) : List Word := [s.a, s.b, s.c, s.d, s.e, s.f, s.g, s.h]

/-- The hash, in words. -/
def digest (bytes : List UInt8) : List Word :=
  (blocks ((pad bytes).length / 64) initial (pad bytes)).words

/-- A hexadecimal digit. -/
def hexDigit (n : ℕ) : Char := if n < 10 then Char.ofNat (48 + n) else Char.ofNat (87 + n)

/-- The eight digits of a word. -/
def hexWord (w : Word) : List Char := (List.range 8).map fun i => hexDigit (w.toNat / 16 ^ (7 - i) % 16)

/-- The hash, in hexadecimal. -/
def hex (bytes : List UInt8) : String := String.ofList ((digest bytes).flatMap hexWord)

/-- Two messages with one hash. -/
def Collide (x y : List UInt8) : Prop := x ≠ y ∧ hex x = hex y

/-- The hash of a text of three bytes. -/
example : hex [0x61, 0x62, 0x63] = "ba7816bf8f01cfea414140de5dae2223b00361a396177a9cb410ff61f20015ad" := by
  decide +kernel

end Knolo.Library.Sha256
