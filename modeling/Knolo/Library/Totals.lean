import Std.Data.ExtTreeMap
import Mathlib.Algebra.GroupWithZero.Nat
import Mathlib.Algebra.Order.BigOperators.Group.List
import Mathlib.Algebra.Order.Group.Nat
import Mathlib.Data.List.Pairwise
import Mathlib.Tactic.Common

/-!
# The total over a map

* `tally` — the sum of a number over the values of a map.
* `tally_congr` — it depends on the numbers under each key only.
* `tally_le_of_alone` — where one value alone counts, the total is its number.
* `add_le_tally` — two values count for no more than all.
-/

namespace Knolo.Library

variable {α κ : Type} [Ord κ] [Std.TransOrd κ]

/-- The sum of `f` over the values of `m`. -/
def tally (f : α → ℕ) (m : Std.ExtTreeMap κ α) : ℕ := (m.toList.map fun kv => f kv.2).sum

variable {f : α → ℕ} {m m' : Std.ExtTreeMap κ α}

@[simp] theorem tally_empty : tally f (∅ : Std.ExtTreeMap κ α) = 0 := rfl

/-- The numbers of the values, as a map. -/
theorem tally_eq_map : tally f m = tally id (m.map fun _ a => f a) := by
  simp [tally, Std.ExtTreeMap.toList_map, Function.comp_def]

variable [Std.LawfulEqOrd κ]

/-- The total depends on the numbers under each key only. -/
theorem tally_congr (h : ∀ k : κ, m[k]?.map f = m'[k]?.map f) : tally f m = tally f m' := by
  have hmap : (m.map fun _ a => f a) = m'.map fun _ a => f a := by
    apply Std.ExtTreeMap.ext_getElem?
    intro k
    rw [Std.ExtTreeMap.getElem?_map, Std.ExtTreeMap.getElem?_map]
    exact h k
  rw [tally_eq_map, tally_eq_map (m := m'), hmap]

/-- Items of which one alone counts sum up to no more than each may count. -/
theorem sum_le_of_pairwise {β : Type} {g : β → ℕ} {l : List β} {n : ℕ}
    (hl : l.Pairwise fun a b => g a = 0 ∨ g b = 0) (hn : ∀ a ∈ l, g a ≤ n) : (l.map g).sum ≤ n := by
  induction l with
  | nil => exact Nat.zero_le n
  | cons a l ih =>
    obtain ⟨ha, hl⟩ := List.pairwise_cons.mp hl
    have hrest := ih hl fun b hb => hn b (List.mem_cons_of_mem a hb)
    rw [List.map_cons, List.sum_cons]
    by_cases h0 : g a = 0
    · omega
    · have hzero : (l.map g).sum = 0 := by
        apply List.sum_eq_zero
        intro x hx
        obtain ⟨b, hb, rfl⟩ := List.mem_map.mp hx
        exact (ha b hb).resolve_left h0
      have := hn a (List.mem_cons_self ..)
      omega

/-- Where only the value under `k` counts, the total is at most its number. -/
theorem tally_le_of_alone {k : κ} {n : ℕ} (hk : ∀ a, m[k]? = some a → f a ≤ n)
    (hothers : ∀ (k' : κ) (a : α), m[k']? = some a → k' ≠ k → f a = 0) : tally f m ≤ n := by
  have hmem : ∀ {kv : κ × α}, kv ∈ m.toList → m[kv.1]? = some kv.2 :=
    fun h => Std.ExtTreeMap.mem_toList_iff_getElem?_eq_some.mp h
  apply sum_le_of_pairwise
  · refine Std.ExtTreeMap.distinct_keys_toList.imp_of_mem fun {x y} hx hy hne => ?_
    by_cases hxk : x.1 = k
    · refine .inr (hothers y.1 y.2 (hmem hy) fun hyk => hne ?_)
      rw [hxk, hyk]
      exact Std.ReflOrd.compare_self
    · exact .inl (hothers x.1 x.2 (hmem hx) hxk)
  · intro x hx
    by_cases hxk : x.1 = k
    · exact hk x.2 (hxk ▸ hmem hx)
    · rw [hothers x.1 x.2 (hmem hx) hxk]
      exact Nat.zero_le n

/-- Two values count for no more than all. -/
theorem add_le_tally {k k' : κ} {a b : α} (ha : m[k]? = some a) (hb : m[k']? = some b) (hne : k ≠ k') :
    f a + f b ≤ tally f m := by
  have hmem : ∀ {k : κ} {a : α}, m[k]? = some a → (k, a) ∈ m.toList :=
    fun h => Std.ExtTreeMap.mem_toList_iff_getElem?_eq_some.mpr h
  obtain ⟨pre, post, hsplit⟩ := List.append_of_mem (hmem ha)
  have hother : (k', b) ∈ pre ∨ (k', b) ∈ post := by
    have h := hmem hb
    rw [hsplit, List.mem_append, List.mem_cons, Prod.mk.injEq] at h
    rcases h with h | ⟨h, -⟩ | h
    · exact .inl h
    · exact absurd h.symm hne
    · exact .inr h
  have hle : ∀ {l : List (κ × α)}, (k', b) ∈ l → f b ≤ (l.map fun kv => f kv.2).sum :=
    fun h => List.le_sum_of_mem (List.mem_map.mpr ⟨_, h, rfl⟩)
  have hsum : tally f m = (pre.map fun kv => f kv.2).sum + (f a + (post.map fun kv => f kv.2).sum) := by
    rw [tally, hsplit, List.map_append, List.sum_append, List.map_cons, List.sum_cons]
  rcases hother with h | h
  · have := hle h
    omega
  · have := hle h
    omega

end Knolo.Library
