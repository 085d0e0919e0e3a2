import Mathlib.Data.List.Basic
import Mathlib.Data.Nat.Bitwise
import Mathlib.Data.Nat.Notation
import Mathlib.Tactic.Common

/-!
# A self-delimiting code for trees

Items are nulls, booleans, integers, texts, arrays and maps. The code is the one of CBOR
with heads of up to four argument bytes: an item is written as a head, which holds its
major type and an argument, followed by what the head announces. An argument from `2 ^ 32`
on has no head, so encoding is partial.

* `head_cancel`: two heads followed by anything agree only if they are the same head and
  what follows is the same.
* `Item.encode_cancel`: the same of whole items. So the code is injective
  (`Item.encode_inj`) and no encoding is a proper prefix of another
  (`Item.encode_prefix`).
-/

namespace Knolo.Library.Cbor

/-- A tree to encode. -/
inductive Item where
  /-- The null item. -/
  | null
  /-- A boolean. -/
  | bool (b : Bool)
  /-- The integer `n`. -/
  | unsigned (n : ℕ)
  /-- The integer `-1 - n`. -/
  | negative (n : ℕ)
  /-- A text, as its bytes. -/
  | text (bytes : List UInt8)
  /-- A list of items. -/
  | array (items : List Item)
  /-- A list of keys and items. -/
  | map (entries : List (List UInt8 × Item))

/-- How an argument is written: the five bits that go into the first byte, and the
bytes that follow it. -/
def argument (n : ℕ) : Option (ℕ × List UInt8) :=
  if n < 24 then some (n, [])
  else if n ≤ 0xff then some (24, [.ofNat n])
  else if n ≤ 0xffff then some (25, [.ofNat (n >>> 8), .ofNat n])
  else if n ≤ 0xffffffff then
    some (26, [.ofNat (n >>> 24), .ofNat (n >>> 16), .ofNat (n >>> 8), .ofNat n])
  else none

/-- The head of an item: three bits of major type, then the argument. -/
def head (major n : ℕ) : Option (List UInt8) :=
  (argument n).map fun a => .ofNat (major <<< 5 ||| a.1) :: a.2

namespace Item

/-- A text: its length, then its bytes. -/
def encodeText (bytes : List UInt8) : Option (List UInt8) :=
  (head 3 bytes.length).map (· ++ bytes)

mutual

/-- The encoding of an item. -/
def encode : Item → Option (List UInt8)
  | .null => some [0xf6]
  | .bool true => some [0xf5]
  | .bool false => some [0xf4]
  | .unsigned n => head 0 n
  | .negative n => head 1 n
  | .text bytes => encodeText bytes
  | .array items => do return (← head 4 items.length) ++ (← encodeItems items)
  | .map entries => do return (← head 5 entries.length) ++ (← encodeEntries entries)

/-- The encodings of items, one after the other. -/
def encodeItems : List Item → Option (List UInt8)
  | [] => some []
  | v :: vs => do return (← encode v) ++ (← encodeItems vs)

/-- The encodings of keys and items, one after the other. -/
def encodeEntries : List (List UInt8 × Item) → Option (List UInt8)
  | [] => some []
  | (k, v) :: es => do return (← encodeText k) ++ ((← encode v) ++ (← encodeEntries es))

end

end Item

/-! ### Heads -/

/-- The bits of the major type stand above the five of the argument. -/
theorem major_or {m a : ℕ} (ha : a < 32) : m <<< 5 ||| a = 32 * m + a := by
  rw [Nat.shiftLeft_eq, Nat.mul_comm]
  exact (Nat.two_pow_add_eq_or_of_lt (i := 5) ha m).symm

theorem ofNat_inj {a b : ℕ} : UInt8.ofNat a = UInt8.ofNat b ↔ a % 256 = b % 256 := by
  rw [← UInt8.toNat_inj, UInt8.toNat_ofNat', UInt8.toNat_ofNat']

theorem argument_lt {n : ℕ} {a : ℕ × List UInt8} (h : argument n = some a) : a.1 < 32 := by
  unfold argument at h
  split_ifs at h <;> cases h <;> simp only <;> omega

/-- The five bits say how many bytes follow, and these are the argument. -/
theorem argument_cancel {n n' : ℕ} {a b : ℕ × List UInt8} {x y : List UInt8}
    (ha : argument n = some a) (hb : argument n' = some b) (hab : a.1 = b.1) (h : a.2 ++ x = b.2 ++ y) :
    n = n' ∧ x = y := by
  unfold argument at ha hb
  split_ifs at ha hb <;> cases ha <;> cases hb <;> simp only at hab <;>
    first
    | omega
    | simp only [List.cons_append, List.nil_append, List.cons.injEq, ofNat_inj,
        Nat.shiftRight_eq_div_pow] at h
      exact ⟨by omega, by tauto⟩

/-- **A head ends where it says**: two heads followed by anything agree only if they are
the same head. -/
theorem head_cancel {m m' n n' : ℕ} {s t x y : List UInt8} (hm : m < 8) (hm' : m' < 8)
    (hs : head m n = some s) (ht : head m' n' = some t) (h : s ++ x = t ++ y) :
    m = m' ∧ n = n' ∧ x = y := by
  obtain ⟨a, ha, rfl⟩ := Option.map_eq_some_iff.mp hs
  obtain ⟨b, hb, rfl⟩ := Option.map_eq_some_iff.mp ht
  have ha' := argument_lt ha
  have hb' := argument_lt hb
  rw [List.cons_append, List.cons_append, List.cons.injEq, ofNat_inj, major_or ha', major_or hb'] at h
  obtain ⟨hn, hxy⟩ := argument_cancel ha hb (by omega) h.2
  exact ⟨by omega, hn, hxy⟩

namespace Item

/-! ### Items -/

/-- The major type of an item. -/
def major : Item → ℕ
  | .unsigned _ => 0
  | .negative _ => 1
  | .text _ => 3
  | .array _ => 4
  | .map _ => 5
  | .null | .bool _ => 7

/-- The argument in the head of an item. -/
def arg : Item → ℕ
  | .unsigned n | .negative n => n
  | .text bytes => bytes.length
  | .array items => items.length
  | .map entries => entries.length
  | .bool b => if b then 21 else 20
  | .null => 22

/-- What follows the head of an item. -/
def body : Item → Option (List UInt8)
  | .text bytes => some bytes
  | .array items => encodeItems items
  | .map entries => encodeEntries entries
  | _ => some []

theorem major_lt (v : Item) : v.major < 8 := by cases v <;> simp [major]

theorem encodeText_eq_some {bytes s : List UInt8} :
    encodeText bytes = some s ↔ ∃ h, head 3 bytes.length = some h ∧ s = h ++ bytes := by
  simp [encodeText, eq_comm]

/-- An item is a head and what follows. -/
theorem encode_eq_some {v : Item} {s : List UInt8} (h : v.encode = some s) :
    ∃ a b, head v.major v.arg = some a ∧ v.body = some b ∧ s = a ++ b := by
  cases v with
  | null => exact ⟨s, [], h, rfl, by simp⟩
  | bool b => cases b <;> exact ⟨s, [], h, rfl, by simp⟩
  | unsigned n => exact ⟨s, [], h, rfl, by simp⟩
  | negative n => exact ⟨s, [], h, rfl, by simp⟩
  | text bytes =>
    obtain ⟨a, ha, rfl⟩ := encodeText_eq_some.mp h
    exact ⟨a, bytes, ha, rfl, rfl⟩
  | array items =>
    simp only [encode, Option.bind_eq_bind, Option.bind_eq_some_iff, Option.pure_def, Option.some.injEq] at h
    obtain ⟨a, ha, b, hb, rfl⟩ := h
    exact ⟨a, b, ha, hb, rfl⟩
  | map entries =>
    simp only [encode, Option.bind_eq_bind, Option.bind_eq_some_iff, Option.pure_def, Option.some.injEq] at h
    obtain ⟨a, ha, b, hb, rfl⟩ := h
    exact ⟨a, b, ha, hb, rfl⟩

theorem encodeItems_cons_eq_some {v : Item} {vs : List Item} {s : List UInt8} :
    encodeItems (v :: vs) = some s ↔
      ∃ a, v.encode = some a ∧ ∃ b, encodeItems vs = some b ∧ a ++ b = s := by
  simp [encodeItems, Option.bind_eq_some_iff]

theorem encodeEntries_cons_eq_some {k : List UInt8} {v : Item} {es : List (List UInt8 × Item)}
    {s : List UInt8} : encodeEntries ((k, v) :: es) = some s ↔ ∃ c, encodeText k = some c ∧
      ∃ a, v.encode = some a ∧ ∃ b, encodeEntries es = some b ∧ c ++ (a ++ b) = s := by
  simp [encodeEntries, Option.bind_eq_some_iff]

theorem encodeText_cancel {k l s t x y : List UInt8} (hs : encodeText k = some s)
    (ht : encodeText l = some t) (h : s ++ x = t ++ y) : k = l ∧ x = y := by
  obtain ⟨a, ha, rfl⟩ := encodeText_eq_some.mp hs
  obtain ⟨b, hb, rfl⟩ := encodeText_eq_some.mp ht
  rw [List.append_assoc, List.append_assoc] at h
  obtain ⟨-, hlen, h⟩ := head_cancel (by omega) (by omega) ha hb h
  exact List.append_inj h hlen

mutual

/-- **An item ends where it says**: two encodings followed by anything agree only if they
are of the same item. -/
theorem encode_cancel : ∀ (v w : Item) {s t x y : List UInt8}, v.encode = some s → w.encode = some t →
    s ++ x = t ++ y → v = w ∧ x = y := by
  intro v w s t x y hs ht h
  obtain ⟨a, b, ha, hb, rfl⟩ := encode_eq_some hs
  obtain ⟨a', b', ha', hb', rfl⟩ := encode_eq_some ht
  rw [List.append_assoc, List.append_assoc] at h
  obtain ⟨hmajor, harg, h⟩ := head_cancel v.major_lt w.major_lt ha ha' h
  match v, w with
  | .null, w =>
    cases w with
    | null => simp_all [body]
    | bool q => cases q <;> simp [arg] at harg
    | _ => simp [major] at hmajor
  | .bool p, w =>
    cases w with
    | bool q => cases p <;> cases q <;> simp_all [arg, body]
    | null => cases p <;> simp [arg] at harg
    | _ => simp [major] at hmajor
  | .unsigned n, w | .negative n, w => cases w <;> simp_all [major, arg, body]
  | .text k, w =>
    cases w with
    | text l =>
      cases hb
      cases hb'
      obtain ⟨rfl, hxy⟩ := List.append_inj h harg
      exact ⟨rfl, hxy⟩
    | _ => simp [major] at hmajor
  | .array vs, w =>
    cases w <;> simp only [major, reduceCtorEq, Nat.reduceEqDiff] at hmajor
    obtain ⟨rfl, hxy⟩ := encodeItems_cancel vs _ hb hb' harg h
    exact ⟨rfl, hxy⟩
  | .map es, w =>
    cases w <;> simp only [major, reduceCtorEq, Nat.reduceEqDiff] at hmajor
    obtain ⟨rfl, hxy⟩ := encodeEntries_cancel es _ hb hb' harg h
    exact ⟨rfl, hxy⟩

/-- The same of as many items one after the other. -/
theorem encodeItems_cancel : ∀ (vs ws : List Item) {s t x y : List UInt8}, encodeItems vs = some s →
    encodeItems ws = some t → vs.length = ws.length → s ++ x = t ++ y → vs = ws ∧ x = y
  | [], [], _, _, _, _, hs, ht, _, h => by
    cases hs
    cases ht
    exact ⟨rfl, h⟩
  | v :: vs, w :: ws, _, _, _, _, hs, ht, hlen, h => by
    obtain ⟨a, ha, b, hb, rfl⟩ := encodeItems_cons_eq_some.mp hs
    obtain ⟨a', ha', b', hb', rfl⟩ := encodeItems_cons_eq_some.mp ht
    rw [List.append_assoc, List.append_assoc] at h
    obtain ⟨rfl, h⟩ := encode_cancel v w ha ha' h
    obtain ⟨rfl, h⟩ := encodeItems_cancel vs ws hb hb' (Nat.succ.inj hlen) h
    exact ⟨rfl, h⟩

/-- The same of as many keys and items one after the other. -/
theorem encodeEntries_cancel : ∀ (es fs : List (List UInt8 × Item)) {s t x y : List UInt8},
    encodeEntries es = some s → encodeEntries fs = some t → es.length = fs.length →
    s ++ x = t ++ y → es = fs ∧ x = y
  | [], [], _, _, _, _, hs, ht, _, h => by
    cases hs
    cases ht
    exact ⟨rfl, h⟩
  | (k, v) :: es, (l, w) :: fs, _, _, _, _, hs, ht, hlen, h => by
    obtain ⟨c, hc, a, ha, b, hb, rfl⟩ := encodeEntries_cons_eq_some.mp hs
    obtain ⟨c', hc', a', ha', b', hb', rfl⟩ := encodeEntries_cons_eq_some.mp ht
    rw [List.append_assoc, List.append_assoc, List.append_assoc, List.append_assoc] at h
    obtain ⟨rfl, h⟩ := encodeText_cancel hc hc' h
    obtain ⟨rfl, h⟩ := encode_cancel v w ha ha' h
    obtain ⟨rfl, h⟩ := encodeEntries_cancel es fs hb hb' (Nat.succ.inj hlen) h
    exact ⟨rfl, h⟩

end

/-- No encoding is a proper prefix of another, and equal encodings are of equal items. -/
theorem encode_prefix {v w : Item} {s t : List UInt8} (hs : v.encode = some s) (ht : w.encode = some t)
    (h : s <+: t) : v = w := by
  obtain ⟨x, rfl⟩ := h
  exact (encode_cancel v w hs ht (List.append_nil _).symm).1

/-! ### What has an encoding -/

theorem head_isSome {m n : ℕ} : (head m n).isSome ↔ n < 2 ^ 32 := by
  unfold head argument
  split_ifs <;> simp <;> omega

mutual

/-- All arguments and lengths fit into a head. -/
def Fits : Item → Prop
  | .null | .bool _ => True
  | .unsigned n | .negative n => n < 2 ^ 32
  | .text bytes => bytes.length < 2 ^ 32
  | .array items => items.length < 2 ^ 32 ∧ FitsItems items
  | .map entries => entries.length < 2 ^ 32 ∧ FitsEntries entries

/-- The same of items. -/
def FitsItems : List Item → Prop
  | [] => True
  | v :: vs => v.Fits ∧ FitsItems vs

/-- The same of keys and items. -/
def FitsEntries : List (List UInt8 × Item) → Prop
  | [] => True
  | (k, v) :: es => (k.length < 2 ^ 32 ∧ v.Fits) ∧ FitsEntries es

end

theorem fitsItems_iff {vs : List Item} : FitsItems vs ↔ ∀ v ∈ vs, v.Fits := by
  induction vs with
  | nil => simp [FitsItems]
  | cons v vs ih => simp [FitsItems, ih]

theorem fitsEntries_iff {es : List (List UInt8 × Item)} :
    FitsEntries es ↔ ∀ e ∈ es, e.1.length < 2 ^ 32 ∧ e.2.Fits := by
  induction es with
  | nil => simp [FitsEntries]
  | cons e es ih => simp [FitsEntries, ih]

theorem encodeText_isSome {bytes : List UInt8} : (encodeText bytes).isSome ↔ bytes.length < 2 ^ 32 := by
  rw [encodeText, Option.isSome_map, head_isSome]

theorem isSome_bind₂ {α β γ : Type} {x : Option α} {y : Option β} {f : α → β → γ} :
    (x.bind fun a => y.bind fun b => some (f a b)).isSome ↔ x.isSome ∧ y.isSome := by
  cases x <;> cases y <;> simp

mutual

/-- An item has an encoding if everything fits. -/
theorem encode_isSome : ∀ v : Item, v.encode.isSome ↔ v.Fits
  | .null => by simp [encode, Fits]
  | .bool b => by cases b <;> simp [encode, Fits]
  | .unsigned _ | .negative _ => head_isSome
  | .text _ => encodeText_isSome
  | .array items => by
    rw [Fits, ← encodeItems_isSome items, ← head_isSome (m := 4)]
    exact isSome_bind₂
  | .map entries => by
    rw [Fits, ← encodeEntries_isSome entries, ← head_isSome (m := 5)]
    exact isSome_bind₂

theorem encodeItems_isSome : ∀ vs : List Item, (encodeItems vs).isSome ↔ FitsItems vs
  | [] => by simp [encodeItems, FitsItems]
  | v :: vs => by
    rw [FitsItems, ← encode_isSome v, ← encodeItems_isSome vs]
    exact isSome_bind₂

theorem encodeEntries_isSome : ∀ es : List (List UInt8 × Item), (encodeEntries es).isSome ↔ FitsEntries es
  | [] => by simp [encodeEntries, FitsEntries]
  | (k, v) :: es => by
    rw [FitsEntries, ← encode_isSome v, ← encodeEntries_isSome es, ← encodeText_isSome, encodeEntries]
    cases encodeText k <;> cases v.encode <;> cases encodeEntries es <;> simp

end

end Item

end Knolo.Library.Cbor
