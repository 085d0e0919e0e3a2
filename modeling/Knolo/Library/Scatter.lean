import Std.Data.ExtTreeMap
import Mathlib.Data.List.Induction
import Mathlib.Data.List.Pairwise
import Mathlib.Data.List.Sort
import Mathlib.Tactic.Common

/-!
# Lists kept in a map

A list is scattered over a map, each item under a key of its own, and gathered again in the order
of the ranks of its items.

* `removeWhere` — a map without some of its keys.
* `scatter`, `gather` — writing a list to a map and reading it back.
* `gather_scatter` — a list is read back if and only if its ranks increase.
* `stem_unique` — a key belongs to one stem only.
-/

namespace Knolo.Library

variable {α β κ : Type} [Ord κ] [Std.TransOrd κ] [Std.LawfulEqOrd κ] [DecidableEq κ]

/-! ### Removing keys -/

/-- The map without the keys that satisfy `p`. -/
def removeWhere (p : κ → Bool) (m : Std.ExtTreeMap κ β) : Std.ExtTreeMap κ β :=
  (m.keys.filter p).foldl (fun m k => m.erase k) m

theorem getElem?_foldl_erase (ks : List κ) (m : Std.ExtTreeMap κ β) (k : κ) :
    (ks.foldl (fun m k => m.erase k) m)[k]? = if k ∈ ks then none else m[k]? := by
  induction ks generalizing m with
  | nil => simp
  | cons k' ks ih =>
    rw [List.foldl_cons, ih, Std.ExtTreeMap.getElem?_erase]
    by_cases hk : k' = k
    · subst hk
      simp
    · simp [hk, Ne.symm hk]

theorem getElem?_removeWhere (p : κ → Bool) (m : Std.ExtTreeMap κ β) (k : κ) :
    (removeWhere p m)[k]? = if p k then none else m[k]? := by
  rw [removeWhere, getElem?_foldl_erase]
  by_cases hp : p k = true
  · by_cases hk : k ∈ m
    · simp [hp, hk]
    · simp [hp, hk]
  · simp [hp]

/-- Removing every key leaves nothing. -/
theorem removeWhere_true (m : Std.ExtTreeMap κ β) : removeWhere (fun _ => true) m = ∅ := by
  refine Std.ExtTreeMap.ext_getElem? fun k => ?_
  simp [getElem?_removeWhere]

/-! ### Scattering a list -/

/-- Write an item under its key; one that cannot be written is left out. -/
def place (key : α → κ) (write : α → Option β) (m : Std.ExtTreeMap κ β) (a : α) : Std.ExtTreeMap κ β :=
  match write a with
  | some b => m.insert (key a) b
  | none => m

/-- Write the items of a list. -/
def scatter (key : α → κ) (write : α → Option β) (l : List α) (m : Std.ExtTreeMap κ β) : Std.ExtTreeMap κ β :=
  l.foldl (place key write) m

variable {key : α → κ} {write : α → Option β} {l : List α} {m : Std.ExtTreeMap κ β} {k : κ}

theorem getElem?_place (a : α) :
    (place key write m a)[k]? = if key a = k then (write a).or m[k]? else m[k]? := by
  unfold place
  cases hw : write a with
  | none => simp
  | some b =>
    rw [Std.ExtTreeMap.getElem?_insert]
    by_cases hk : key a = k
    · simp [hk]
    · simp [hk]

/-- What is under a key was written there, or was there before. -/
theorem scatter_sound {b : β} (h : (scatter key write l m)[k]? = some b) :
    (∃ a ∈ l, key a = k ∧ write a = some b) ∨ m[k]? = some b := by
  induction l generalizing m with
  | nil => exact .inr h
  | cons a l ih =>
    rcases ih h with ⟨a', ha', h⟩ | h
    · exact .inl ⟨a', List.mem_cons_of_mem _ ha', h⟩
    · rw [getElem?_place] at h
      by_cases hk : key a = k
      · rw [if_pos hk, Option.or_eq_some_iff] at h
        rcases h with h | ⟨-, h⟩
        · exact .inl ⟨a, List.mem_cons_self .., hk, h⟩
        · exact .inr h
      · rw [if_neg hk] at h
        exact .inr h

/-- Keys that are not written keep what they have. -/
theorem scatter_other (h : ∀ a ∈ l, key a ≠ k) : (scatter key write l m)[k]? = m[k]? := by
  induction l generalizing m with
  | nil => rfl
  | cons a l ih =>
    show (scatter key write l (place key write m a))[k]? = _
    rw [ih fun a ha => h a (List.mem_cons_of_mem _ ha), getElem?_place, if_neg (h a (List.mem_cons_self ..))]

/-- What is under a key after writing depends on what was under it before, and on nothing else. -/
theorem scatter_congr {m m' : Std.ExtTreeMap κ β} (h : m[k]? = m'[k]?) :
    (scatter key write l m)[k]? = (scatter key write l m')[k]? := by
  induction l generalizing m m' with
  | nil => exact h
  | cons a l ih =>
    refine ih ?_
    rw [getElem?_place, getElem?_place, h]

/-- What is written is under its key, if no other item has that key. -/
theorem scatter_complete (hl : l.Pairwise fun a b => key a ≠ key b) {a : α} {b : β} (ha : a ∈ l)
    (hw : write a = some b) : (scatter key write l m)[key a]? = some b := by
  induction l generalizing m with
  | nil => cases ha
  | cons a' l ih =>
    obtain ⟨hne, hl⟩ := List.pairwise_cons.mp hl
    rcases List.mem_cons.mp ha with rfl | ha
    · show (scatter key write l (place key write m a))[key a]? = _
      rw [scatter_other fun b hb => (hne b hb).symm, getElem?_place, if_pos rfl, hw, Option.some_or]
    · exact ih hl ha

/-- A key that was written has something. -/
theorem scatter_isSome {a : α} (ha : a ∈ l) (hw : (write a).isSome = true) :
    ((scatter key write l m)[key a]?).isSome = true := by
  induction l using List.reverseRecOn with
  | nil => cases ha
  | append_singleton l a' ih =>
    rw [scatter, List.foldl_append, List.foldl_cons, List.foldl_nil, getElem?_place]
    rcases List.mem_append.mp ha with ha | ha
    · have h := ih ha
      split
      · rw [Option.isSome_or, Bool.or_eq_true]
        exact .inr h
      · exact h
    · obtain rfl := List.mem_singleton.mp ha
      rw [if_pos rfl, Option.isSome_or, hw, Bool.true_or]

/-- What is picked of the values of a map, written under keys that lead back to theirs. -/
theorem getElem?_scatter_values {ι γ : Type} [Ord ι] [Std.TransOrd ι] [Std.LawfulEqOrd ι]
    {values : Std.ExtTreeMap ι γ} {pick : γ → Option α} {back : κ → ι} (hback : Function.Injective back)
    (h : ∀ i c a, values[i]? = some c → pick c = some a → back (key a) = i) (k : κ) :
    (scatter key write ((values.toList.map (·.2)).filterMap pick) ∅)[k]? =
      (values[back k]?.bind pick).bind write := by
  have hdistinct : ((values.toList.map (·.2)).filterMap pick).Pairwise fun a b => key a ≠ key b := by
    refine List.pairwise_filterMap.mpr (List.pairwise_map.mpr ?_)
    refine Std.ExtTreeMap.distinct_keys_toList.imp_of_mem fun {x y} hx hy hne a ha b hb heq => hne ?_
    rw [← h _ _ a (Std.ExtTreeMap.mem_toList_iff_getElem?_eq_some.mp hx) ha,
      ← h _ _ b (Std.ExtTreeMap.mem_toList_iff_getElem?_eq_some.mp hy) hb, heq]
    exact Std.ReflOrd.compare_self
  refine Option.ext fun b => ⟨fun hb => ?_, fun hb => ?_⟩
  · rcases scatter_sound hb with ⟨a, ha, rfl, hw⟩ | hb
    · obtain ⟨c, hc, hpick⟩ := List.mem_filterMap.mp ha
      obtain ⟨⟨i, c⟩, hi, rfl⟩ := List.mem_map.mp hc
      have hi := Std.ExtTreeMap.mem_toList_iff_getElem?_eq_some.mp hi
      rw [h i c a hi hpick, hi, Option.bind_some, hpick, Option.bind_some, hw]
    · simp at hb
  · obtain ⟨a, ha, hw⟩ := Option.bind_eq_some_iff.mp hb
    obtain ⟨c, hc, hpick⟩ := Option.bind_eq_some_iff.mp ha
    obtain rfl : key a = k := hback (h _ c a hc hpick)
    refine scatter_complete hdistinct (List.mem_filterMap.mpr ⟨c, ?_, hpick⟩) hw
    exact List.mem_map.mpr ⟨(_, c), Std.ExtTreeMap.mem_toList_iff_getElem?_eq_some.mpr hc, rfl⟩

/-! ### Gathering it -/

/-- The items under the keys that satisfy `p`. -/
def items (p : κ → Bool) (read : β → Option α) (m : Std.ExtTreeMap κ β) : List α :=
  m.toList.filterMap fun kb => if p kb.1 then read kb.2 else none

/-- The items under the keys that satisfy `p`, by rank. -/
def gather (p : κ → Bool) (read : β → Option α) (rank : α → ℕ) (m : Std.ExtTreeMap κ β) : List α :=
  (items p read m).mergeSort fun a b => decide (rank a ≤ rank b)

variable {p : κ → Bool} {read : β → Option α} {rank : α → ℕ}

omit [DecidableEq κ] in
/-- Only what is under the keys that satisfy `p` is gathered. -/
theorem items_congr {m m' : Std.ExtTreeMap κ β} (h : ∀ k, p k = true → m[k]? = m'[k]?) :
    items p read m = items p read m' := by
  have hfilter : m.filter (fun k _ => p k) = m'.filter (fun k _ => p k) := by
    refine Std.ExtTreeMap.ext_getElem? fun k => ?_
    by_cases hp : p k = true
    · simp [h k hp, hp]
    · simp [hp]
  have hitems : ∀ m : Std.ExtTreeMap κ β,
      items p read m = (m.filter (fun k _ => p k)).toList.filterMap fun kb => read kb.2 := by
    intro m
    rw [Std.ExtTreeMap.toList_filter, items, List.filterMap_filter]
  rw [hitems, hitems, hfilter]

omit [DecidableEq κ] in
theorem mem_items {a : α} : a ∈ items p read m ↔ ∃ k b, m[k]? = some b ∧ p k = true ∧ read b = some a := by
  simp only [items, List.mem_filterMap, Prod.exists, Std.ExtTreeMap.mem_toList_iff_getElem?_eq_some]
  constructor
  · rintro ⟨k, b, hb, h⟩
    split at h
    · exact ⟨k, b, hb, ‹_›, h⟩
    · cases h
  · rintro ⟨k, b, hb, hp, h⟩
    exact ⟨k, b, hb, by simp [hp, h]⟩

/-- How the items of a list are written and read. -/
structure Scattered (p : κ → Bool) (key : α → κ) (write : α → Option β) (read : β → Option α) (rank : α → ℕ)
    (l : List α) : Prop where
  /-- Each is read as it was written. -/
  reads : ∀ a ∈ l, ∃ b, write a = some b ∧ read b = some a
  /-- Each has a key that is looked at. -/
  region : ∀ a ∈ l, p (key a) = true
  /-- Items have the same key if they have the same rank. -/
  keys : ∀ a ∈ l, ∀ b ∈ l, key a = key b ↔ rank a = rank b

variable (h : Scattered p key write read rank l)

include h

/-- An item under a key is one of the list that was written there. -/
theorem Scattered.item {b : β} {a : α} (hb : (scatter key write l ∅)[k]? = some b) (ha : read b = some a) :
    a ∈ l ∧ key a = k := by
  rcases scatter_sound hb with ⟨a', ha', hk, hw⟩ | hb
  · obtain ⟨b', hw', hr⟩ := h.reads a' ha'
    obtain rfl : b = b' := Option.some.inj (hw.symm.trans hw')
    obtain rfl : a = a' := Option.some.inj (ha.symm.trans hr)
    exact ⟨ha', hk⟩
  · simp at hb

/-- The items have different ranks. -/
theorem Scattered.distinct : (items p read (scatter key write l ∅)).Pairwise fun a b => rank a ≠ rank b := by
  refine List.pairwise_filterMap.mpr ?_
  refine Std.ExtTreeMap.distinct_keys_toList.imp_of_mem fun {x y} hx hy hne a ha b hb heq => hne ?_
  have hitem : ∀ {x : κ × β} {a : α}, x ∈ (scatter key write l ∅).toList →
      (if p x.1 then read x.2 else none) = some a → a ∈ l ∧ key a = x.1 := by
    intro x a hx ha
    split at ha
    · exact h.item (Std.ExtTreeMap.mem_toList_iff_getElem?_eq_some.mp hx) ha
    · cases ha
  obtain ⟨hal, hka⟩ := hitem hx ha
  obtain ⟨hbl, hkb⟩ := hitem hy hb
  rw [← hka, ← hkb, (h.keys a hal b hbl).mpr heq]
  exact Std.ReflOrd.compare_self

/-- What is gathered increases in rank. -/
theorem Scattered.increases : (gather p read rank (scatter key write l ∅)).Pairwise fun a b => rank a < rank b := by
  have hsorted : (gather p read rank (scatter key write l ∅)).Pairwise fun a b => rank a ≤ rank b := by
    refine (List.pairwise_mergeSort (fun a b c => ?_) (fun a b => ?_) _).imp fun h => of_decide_eq_true h
    · simp only [decide_eq_true_eq]
      exact Nat.le_trans
    · simp only [Bool.or_eq_true, decide_eq_true_eq]
      exact Nat.le_total _ _
  have hdistinct : (gather p read rank (scatter key write l ∅)).Pairwise fun a b => rank a ≠ rank b :=
    (List.Perm.pairwise_iff (fun h => h.symm) (List.mergeSort_perm _ _)).mpr h.distinct
  exact (hsorted.and hdistinct).imp fun ⟨hle, hne⟩ => lt_of_le_of_ne hle hne

/-- Something is gathered of a list that is not empty. -/
theorem Scattered.items_ne_nil (hl : l ≠ []) : items p read (scatter key write l ∅) ≠ [] := by
  obtain ⟨a, ha⟩ := List.exists_mem_of_ne_nil l hl
  obtain ⟨b, hw, -⟩ := h.reads a ha
  have hsome : ((scatter key write l ∅)[key a]?).isSome = true := scatter_isSome ha (by simp [hw])
  obtain ⟨b', hb'⟩ := Option.isSome_iff_exists.mp hsome
  rcases scatter_sound hb' with ⟨a', ha', hk, hw'⟩ | hb
  · obtain ⟨b'', hw'', hr⟩ := h.reads a' ha'
    obtain rfl : b' = b'' := Option.some.inj (hw'.symm.trans hw'')
    exact List.ne_nil_of_mem (mem_items.mpr ⟨_, b', hb', h.region a ha, hr⟩)
  · simp at hb

/-- **A list is read back if and only if its ranks increase.** -/
theorem gather_scatter :
    gather p read rank (scatter key write l ∅) = l ↔ l.Pairwise fun a b => rank a < rank b := by
  constructor
  · intro heq
    have hinc := h.increases
    rwa [heq] at hinc
  · intro hl
    have hkeys : l.Pairwise fun a b => key a ≠ key b :=
      hl.imp_of_mem fun ha hb hlt heq => (Nat.ne_of_lt hlt) ((h.keys _ ha _ hb).mp heq)
    have hmem : ∀ a, a ∈ items p read (scatter key write l ∅) ↔ a ∈ l := by
      intro a
      rw [mem_items]
      constructor
      · rintro ⟨k, b, hb, -, hr⟩
        exact (h.item hb hr).1
      · intro ha
        obtain ⟨b, hw, hr⟩ := h.reads a ha
        exact ⟨_, b, scatter_complete hkeys ha hw, h.region a ha, hr⟩
    have hnodup : (items p read (scatter key write l ∅)).Nodup :=
      h.distinct.imp fun {a b} hne heq => hne (congrArg rank heq)
    have hlnodup : l.Nodup := hl.imp fun {a b} hlt heq => Nat.ne_of_lt hlt (congrArg rank heq)
    have hperm : (gather p read rank (scatter key write l ∅)).Perm l :=
      (List.mergeSort_perm _ _).trans ((List.perm_ext_iff_of_nodup hnodup hlnodup).mpr hmem)
    exact hperm.eq_of_pairwise (fun a b _ _ hab hba => absurd hab (Nat.lt_asymm hba)) h.increases hl

omit h

/-! ### Stems -/

/-- A list that begins with two stems, each ended by `c` and without it before, has one stem. -/
theorem stem_unique {γ : Type} [DecidableEq γ] {c : γ} {a b l : List γ} (ha : c ∉ a) (hb : c ∉ b)
    (hal : a ++ [c] <+: l) (hbl : b ++ [c] <+: l) : a = b := by
  have hstem : ∀ {a : List γ}, c ∉ a → a ++ [c] <+: l → l.takeWhile (· ≠ c) = a := by
    rintro a ha ⟨t, rfl⟩
    rw [List.append_assoc, List.takeWhile_append_of_pos]
    · simp
    · intro x hx
      exact decide_eq_true fun heq => ha (heq ▸ hx)
  rw [← hstem ha hal, ← hstem hb hbl]

end Knolo.Library
