import Mathlib.Data.List.Sort
import Mathlib.Data.List.TakeWhile
import Mathlib.Data.Set.List
import Mathlib.Tactic.Common

/-!
# Sorting by a comparison

The stable sort of a list by a three-way comparison, and what the result depends on.

* `sortBy_eq_of_perm`, `sortBy_perm_iff`: the result does not depend on the order the list comes
  in exactly where the comparison tells different elements apart.
* `filter_sortBy`: stability.
* `sortBy_eq_iff`: two consistent comparisons sort a list the same way exactly when they
  agree, for every two elements in the order of the list, on whether the first has to move
  behind the second.
* `sortBy_of_before`: elements that come before the others are sorted by themselves.
* `sortBy_eq_of_perm_of`: a comparison may be consistent on the elements of the list only.
-/

namespace Knolo.Library.StableSort

variable {α β : Type}

/-- Sort by a comparison; elements that compare equal keep their order. -/
def sortBy (cmp : α → α → Ordering) (l : List α) : List α := l.insertionSort fun a b => (cmp a b).isLE

variable {cmp cmp' : α → α → Ordering} {l l' : List α}

@[simp] theorem sortBy_nil : sortBy cmp [] = [] := rfl

theorem sortBy_perm : (sortBy cmp l).Perm l := List.perm_insertionSort _ l

@[simp] theorem mem_sortBy {a : α} : a ∈ sortBy cmp l ↔ a ∈ l := sortBy_perm.mem_iff

@[simp] theorem length_sortBy : (sortBy cmp l).length = l.length := sortBy_perm.length_eq

/-- Sorting is compatible with maps that keep the comparison. -/
theorem map_sortBy {cmp' : β → β → Ordering} (f : α → β)
    (h : ∀ a ∈ l, ∀ b ∈ l, cmp a b = cmp' (f a) (f b)) :
    (sortBy cmp l).map f = sortBy cmp' (l.map f) :=
  List.map_insertionSort _ _ f l fun a ha b hb => by rw [h a ha b hb]

/-- An element is inserted behind those it is greater than. -/
theorem sortBy_cons (a : α) : sortBy cmp (a :: l) =
    (sortBy cmp l).takeWhile (fun b => cmp a b = .gt) ++
      a :: (sortBy cmp l).dropWhile (fun b => cmp a b = .gt) := by
  have h : (fun b => decide (¬ (cmp a b).isLE = true)) = fun b => decide (cmp a b = .gt) := by
    funext b
    cases cmp a b <;> rfl
  rw [sortBy, List.insertionSort_cons_eq_take_drop, h]
  rfl

theorem pairwise_sortBy [Std.TransCmp cmp] :
    (sortBy cmp l).Pairwise fun a b => (cmp a b).isLE = true := by
  have htotal : Std.Total fun a b => (cmp a b).isLE = true :=
    ⟨fun a b => by
      rw [@Std.OrientedCmp.eq_swap _ cmp _ b]
      cases cmp a b <;> simp⟩
  have htrans : IsTrans α fun a b => (cmp a b).isLE = true := ⟨fun _ _ _ => Std.TransCmp.isLE_trans⟩
  exact List.pairwise_insertionSort _ l

/-- A sorted list is left as it is. -/
theorem sortBy_sortBy [Std.TransCmp cmp] : sortBy cmp (sortBy cmp l) = sortBy cmp l :=
  List.Pairwise.insertionSort_eq pairwise_sortBy

/-- Where only equal elements compare equal, the order of the list does not matter. -/
theorem sortBy_eq_of_perm [Std.TransCmp cmp] (hp : l.Perm l')
    (h : ∀ a ∈ l, ∀ b ∈ l, cmp a b = .eq → a = b) : sortBy cmp l = sortBy cmp l' := by
  refine List.Perm.eq_of_pairwise (fun a b ha hb hab hba => ?_) pairwise_sortBy pairwise_sortBy
    (sortBy_perm.trans (hp.trans sortBy_perm.symm))
  exact h a (mem_sortBy.mp ha) b (hp.mem_iff.mpr (mem_sortBy.mp hb)) (Std.OrientedCmp.isLE_antisymm hab hba)

/-- **Stability**: elements that compare equal keep their order. -/
theorem filter_sortBy [Std.TransCmp cmp] (a : α) :
    (sortBy cmp l).filter (fun b => cmp a b = .eq) = l.filter fun b => cmp a b = .eq := by
  induction l with
  | nil => rfl
  | cons c l ih =>
    have hsplit : (sortBy cmp l).filter (fun b => cmp a b = .eq) =
        ((sortBy cmp l).takeWhile fun b => cmp c b = .gt).filter (fun b => cmp a b = .eq) ++
          ((sortBy cmp l).dropWhile fun b => cmp c b = .gt).filter (fun b => cmp a b = .eq) := by
      rw [← List.filter_append, List.takeWhile_append_dropWhile]
    rw [sortBy_cons, List.filter_append]
    by_cases hc : cmp a c = .eq
    · -- what `c` is inserted behind is smaller, so that it compares equal to neither
      have hsmaller : ((sortBy cmp l).takeWhile fun b => cmp c b = .gt).filter (fun b => cmp a b = .eq) = [] := by
        rw [List.filter_eq_nil_iff]
        intro b hb heq
        have hgt : cmp c b = .gt := by simpa using List.mem_takeWhile_imp hb
        rw [← Std.TransCmp.congr_left hc] at hgt
        simp [hgt] at heq
      rw [hsmaller, List.nil_append] at hsplit ⊢
      rw [List.filter_cons_of_pos (by simpa using hc), List.filter_cons_of_pos (by simpa using hc), ← ih, hsplit]
    · rw [List.filter_cons_of_neg (by simpa using hc), List.filter_cons_of_neg (by simpa using hc), ← ih, hsplit]

/-- **Sorting forgets the order of a list exactly when only equal elements compare equal.** -/
theorem sortBy_perm_iff [Std.TransCmp cmp] {f : β → α} {l : List β} :
    (∀ l', l.Perm l' → sortBy cmp (l'.map f) = sortBy cmp (l.map f)) ↔
      ∀ a ∈ l, ∀ b ∈ l, cmp (f a) (f b) = .eq → f a = f b := by
  classical
  constructor
  · intro h a ha b hb hab
    -- of the elements that compare equal to `f a`, the one that comes first stays first
    have hfirst : ∀ c ∈ l, cmp (f a) (f c) = .eq →
        ((sortBy cmp (l.map f)).filter fun b => cmp (f a) b = .eq).head? = some (f c) := by
      intro c hc hac
      rw [← h _ (List.perm_cons_erase hc), filter_sortBy, List.map_cons, List.filter_cons_of_pos (by simpa using hac)]
      rfl
    have hself := hfirst a ha Std.ReflCmp.compare_self
    rw [hfirst b hb hab] at hself
    exact (Option.some.inj hself).symm
  · intro h l' hp
    refine (sortBy_eq_of_perm (hp.map f) fun x hx y hy hxy => ?_).symm
    obtain ⟨a, ha, rfl⟩ := List.mem_map.mp hx
    obtain ⟨b, hb, rfl⟩ := List.mem_map.mp hy
    exact h a ha b hb hxy

/-! ### Two comparisons -/

theorem takeWhile_dropWhile_congr {p q : α → Bool} (h : ∀ b ∈ l, p b = q b) :
    l.takeWhile p = l.takeWhile q ∧ l.dropWhile p = l.dropWhile q := by
  induction l with
  | nil => exact ⟨rfl, rfl⟩
  | cons b l ih =>
    obtain ⟨hb, hl⟩ := List.forall_mem_cons.mp h
    obtain ⟨ht, hd⟩ := ih hl
    rw [List.takeWhile_cons, List.takeWhile_cons, List.dropWhile_cons, List.dropWhile_cons, hb, ht, hd]
    exact ⟨rfl, rfl⟩

/-- Sorting looks at a comparison only to see what has to move behind what. -/
theorem sortBy_congr (h : l.Pairwise fun a b => (cmp a b = .gt ↔ cmp' a b = .gt)) :
    sortBy cmp l = sortBy cmp' l := by
  induction l with
  | nil => rfl
  | cons a l ih =>
    obtain ⟨ha, hl⟩ := List.pairwise_cons.mp h
    have hmem : ∀ b ∈ sortBy cmp' l, decide (cmp a b = .gt) = decide (cmp' a b = .gt) :=
      fun b hb => by rw [decide_eq_decide]; exact ha b (mem_sortBy.mp hb)
    obtain ⟨ht, hd⟩ := takeWhile_dropWhile_congr hmem
    rw [sortBy_cons, sortBy_cons, ih hl, ht, hd]

/-- In a sorted list, what an element is greater than comes first. -/
theorem mem_takeWhile_gt [Std.TransCmp cmp] {a b : α} {s : List α}
    (hs : s.Pairwise fun a b => (cmp a b).isLE = true) (hb : b ∈ s) :
    b ∈ s.takeWhile (fun b => cmp a b = .gt) ↔ cmp a b = .gt := by
  induction s with
  | nil => simp at hb
  | cons c s ih =>
    obtain ⟨hc, hs⟩ := List.pairwise_cons.mp hs
    by_cases hgt : cmp a c = .gt
    · rw [List.takeWhile_cons_of_pos (by simpa using hgt), List.mem_cons]
      rcases List.mem_cons.mp hb with rfl | hb
      · simp [hgt]
      · refine ⟨?_, fun h => .inr ((ih hs hb).mpr h)⟩
        rintro (rfl | h)
        · exact hgt
        · exact (ih hs hb).mp h
    · rw [List.takeWhile_cons_of_neg (by simpa using hgt)]
      refine ⟨by simp, fun h => absurd ?_ hgt⟩
      rcases List.mem_cons.mp hb with rfl | hb
      · exact h
      · exact Std.TransCmp.gt_of_gt_of_isGE h (Std.OrientedCmp.isGE_of_isLE (hc b hb))

theorem notMem_takeWhile_gt [Std.ReflCmp cmp] (a : α) (s : List α) :
    a ∉ s.takeWhile fun b => cmp a b = .gt := by
  intro h
  have := List.mem_takeWhile_imp h
  simp [@Std.ReflCmp.compare_self _ cmp] at this

/-- The first occurrence of an element splits a list in one way. -/
theorem append_cons_cancel {a : α} {x y z w : List α} (hx : a ∉ x) (hy : a ∉ y)
    (h : x ++ a :: z = y ++ a :: w) : x = y ∧ z = w := by
  induction x generalizing y with
  | nil =>
    cases y with
    | nil => exact ⟨rfl, (List.cons.inj h).2⟩
    | cons b y => exact absurd (List.mem_cons.mpr (.inl (List.cons.inj h).1)) hy
  | cons b x ih =>
    cases y with
    | nil => exact absurd (List.mem_cons.mpr (.inl (List.cons.inj h).1.symm)) hx
    | cons c y =>
      obtain ⟨rfl, htail⟩ := List.cons.inj h
      obtain ⟨rfl, rfl⟩ := ih (fun h => hx (.tail _ h)) (fun h => hy (.tail _ h)) htail
      exact ⟨rfl, rfl⟩

/-- **Two consistent comparisons sort a list the same way exactly when they agree on what
has to move behind what.** -/
theorem sortBy_eq_iff [Std.TransCmp cmp] [Std.TransCmp cmp'] :
    sortBy cmp l = sortBy cmp' l ↔ l.Pairwise fun a b => (cmp a b = .gt ↔ cmp' a b = .gt) := by
  refine ⟨fun h => ?_, sortBy_congr⟩
  induction l with
  | nil => exact .nil
  | cons a l ih =>
    -- the first occurrence of the element that is inserted last splits both sorted lists
    rw [sortBy_cons, sortBy_cons] at h
    obtain ⟨ht, hd⟩ := append_cons_cancel (notMem_takeWhile_gt a _) (notMem_takeWhile_gt a _) h
    have hsort : sortBy cmp l = sortBy cmp' l := by
      rw [← List.takeWhile_append_dropWhile (p := fun b => cmp a b = .gt) (l := sortBy cmp l), ht, hd,
        List.takeWhile_append_dropWhile]
    refine List.pairwise_cons.mpr ⟨fun b hb => ?_, ih hsort⟩
    rw [← mem_takeWhile_gt pairwise_sortBy (mem_sortBy.mpr hb), ht,
      mem_takeWhile_gt pairwise_sortBy (mem_sortBy.mpr hb)]

/-! ### Parts of a list -/

theorem orderedInsert_append_left {r : α → α → Prop} [DecidableRel r] {a : α} {after : List α} (h : ∀ b ∈ after, r a b)
    (l : List α) : (l ++ after).orderedInsert r a = l.orderedInsert r a ++ after := by
  induction l with
  | nil =>
    cases after with
    | nil => rfl
    | cons b after =>
      rw [List.nil_append, List.orderedInsert_cons, if_pos (h b (.head _))]
      rfl
  | cons b l ih =>
    rw [List.cons_append, List.orderedInsert_cons, List.orderedInsert_cons]
    split
    · rfl
    · rw [ih, List.cons_append]

theorem orderedInsert_append_right {r : α → α → Prop} [DecidableRel r] {a : α} (l : List α) :
    ∀ {before : List α}, (∀ b ∈ before, ¬ r a b) → (before ++ l).orderedInsert r a = before ++ l.orderedInsert r a := by
  intro before
  induction before with
  | nil => intro _; rfl
  | cons b before ih =>
    intro h
    rw [List.cons_append, List.orderedInsert_cons, if_neg (h b (.head _)), ih fun c hc => h c (.tail _ hc), List.cons_append]

/-- Elements that come before the others are sorted by themselves. -/
theorem sortBy_of_before {q : α → Bool} (hbefore : ∀ a b, q a = true → q b = false → cmp a b ≠ .gt ∧ cmp b a = .gt)
    (l : List α) : sortBy cmp l = sortBy cmp (l.filter q) ++ sortBy cmp (l.filter (!q ·)) := by
  induction l with
  | nil => rfl
  | cons a l ih =>
    have hcons : ∀ l, sortBy cmp (a :: l) = (sortBy cmp l).orderedInsert (fun a b => (cmp a b).isLE) a := fun l => rfl
    rw [hcons, ih]
    cases ha : q a with
    | true =>
      rw [List.filter_cons_of_pos ha, List.filter_cons_of_neg (by rw [ha]; decide), hcons]
      refine orderedInsert_append_left (fun b hb => ?_) _
      have hb := (List.mem_filter.mp (mem_sortBy.mp hb)).2
      have hlast := (hbefore a b ha (by simpa using hb)).1
      revert hlast
      cases cmp a b <;> decide
    | false =>
      rw [List.filter_cons_of_neg (by rw [ha]; decide), List.filter_cons_of_pos (by rw [ha]; rfl), hcons]
      refine orderedInsert_append_right _ fun b hb => ?_
      have hb := (List.mem_filter.mp (mem_sortBy.mp hb)).2
      rw [(hbefore b a hb ha).2]
      decide

/-! ### Comparisons that are consistent on a part of the type -/

/-- Elements are compared by what they are mapped to. -/
theorem transCmp_on {cmp : β → β → Ordering} (h : Std.TransCmp cmp) (f : α → β) : Std.TransCmp fun a b => cmp (f a) (f b) :=
  { eq_swap := Std.OrientedCmp.eq_swap
    isLE_trans := Std.TransCmp.isLE_trans }

/-- A list whose elements are compared consistently is sorted. -/
theorem pairwise_sortBy_of {P : α → Prop} (hcmp : Std.TransCmp fun a b : {a // P a} => cmp a b) (h : ∀ a ∈ l, P a) :
    (sortBy cmp l).Pairwise fun a b => (cmp a b).isLE = true := by
  lift l to List {a // P a} using h
  rw [← @map_sortBy _ _ (fun a b : {a // P a} => cmp a b) _ _ (fun a => (a : α)) fun _ _ _ _ => rfl, List.pairwise_map]
  exact pairwise_sortBy

/-- The order of a list whose elements are told apart consistently does not matter. -/
theorem sortBy_eq_of_perm_of {P : α → Prop} (hcmp : Std.TransCmp fun a b : {a // P a} => cmp a b) (hp : l.Perm l')
    (h : ∀ a ∈ l, P a) (heq : ∀ a ∈ l, ∀ b ∈ l, cmp a b = .eq → a = b) : sortBy cmp l = sortBy cmp l' := by
  have hanti : ∀ a b : {a // P a}, (cmp a b).isLE = true → (cmp b a).isLE = true → cmp a b = .eq :=
    fun a b => @Std.OrientedCmp.isLE_antisymm _ (fun a b : {a // P a} => cmp a b) _ a b
  refine List.Perm.eq_of_pairwise (fun a b ha hb hab hba => ?_) (pairwise_sortBy_of hcmp h)
    (pairwise_sortBy_of hcmp fun a ha => h a (hp.mem_iff.mpr ha)) (sortBy_perm.trans (hp.trans sortBy_perm.symm))
  have ha := mem_sortBy.mp ha
  have hb := hp.mem_iff.mpr (mem_sortBy.mp hb)
  exact heq a ha b hb (hanti ⟨a, h a ha⟩ ⟨b, h b hb⟩ hab hba)

end Knolo.Library.StableSort
